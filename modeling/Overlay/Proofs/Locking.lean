import Overlay.Proofs.Interleaving

/-!
# One lock for every name

The table of locks is consulted twice before a lock is made, and other requests may get there in
between. Every name has at most one lock all the same, every request obtains the lock of its own
name, and whoever works on a name holds that lock.
-/

namespace Overlay

variable {φ β : Type}

namespace System

/-- Every name has one lock, and whoever works on a name holds its lock. -/
structure Guarded (y : System φ β) : Prop where
  /-- The table leads from a name to a lock of that name. -/
  named : ∀ name l, y.lockTable.get? name = some l → ∃ k, y.locks[l]? = some k ∧ k.name = name
  /-- The table leads to every lock. -/
  listed : ∀ (l : Nat) k, y.locks[l]? = some k → y.lockTable.get? k.name = some l
  /-- The lock that a request has obtained is the one in the table. -/
  obtained : ∀ (i : Nat) task l, y.tasks[i]? = some task → task.phase.lock? = some l →
    y.lockTable.get? task.job.key = some l
  /-- A request inside holds its lock. -/
  holds : ∀ (i : Nat) task l stage, y.tasks[i]? = some task → task.phase = .inside l stage →
    ∃ k, y.locks[l]? = some k ∧ k.holder = some i

/-- What does not touch locks and requests keeps the locks guarded. -/
theorem Guarded.congr {y y' : System φ β} (h : y.Guarded) (ht : y'.lockTable = y.lockTable)
    (hl : y'.locks = y.locks) (hr : y'.tasks = y.tasks) : y'.Guarded where
  named := by
    rw [ht, hl]
    exact h.named
  listed := by
    rw [ht, hl]
    exact h.listed
  obtained := by
    rw [ht, hr]
    exact h.obtained
  holds := by
    rw [hl, hr]
    exact h.holds

/-- A request may move to a phase that its locks allow. -/
theorem Guarded.moveTo {y : System φ β} (h : y.Guarded) {i : Nat} {job : Job} {phase : Phase}
    (hobtained : ∀ l, phase.lock? = some l → y.lockTable.get? job.key = some l)
    (hholds : ∀ l stage, phase = .inside l stage →
      ∃ k, y.locks[l]? = some k ∧ k.holder = some i) :
    (y.moveTo i job phase).Guarded where
  named := h.named
  listed := h.listed
  obtained j task l hj hl := by
    rcases task_moveTo hj with ⟨rfl, rfl⟩ | ⟨-, hj⟩
    · exact hobtained l hl
    · exact h.obtained j task l hj hl
  holds j task l stage hj hp := by
    rcases task_moveTo hj with ⟨rfl, rfl⟩ | ⟨-, hj⟩
    · exact hholds l stage hp
    · exact h.holds j task l stage hj hp

/-- A lock may be made for a name that has none. -/
theorem Guarded.makeLock {y : System φ β} (h : y.Guarded) {name : String}
    (absent : y.lockTable.get? name = none) : (y.makeLock name).Guarded := by
  have hkept : ∀ other l, y.lockTable.get? other = some l →
      (y.makeLock name).lockTable.get? other = some l := by
    intro other l hl
    have hne : other ≠ name := by
      rintro rfl
      rw [absent] at hl
      cases hl
    exact (Table.get?_insert_of_ne _ hne _).trans hl
  have hlock : ∀ (l : Nat) k, y.locks[l]? = some k → (y.makeLock name).locks[l]? = some k := by
    intro l k hk
    exact getElem?_append_of_some hk _
  constructor
  case named =>
    intro other l hl
    change (y.lockTable.insert name y.locks.length).get? other = some l at hl
    rw [Table.get?_insert] at hl
    split at hl
    · rename_i hother
      obtain rfl := Option.some.inj hl
      exact ⟨⟨name, none⟩, List.getElem?_concat_length, hother.symm⟩
    · obtain ⟨k, hk, hname⟩ := h.named other l hl
      exact ⟨k, hlock l k hk, hname⟩
  case listed =>
    intro l k hk
    change (y.locks ++ [⟨name, none⟩])[l]? = some k at hk
    rcases of_getElem?_concat hk with hk | ⟨rfl, rfl⟩
    · exact hkept _ l (h.listed l k hk)
    · exact Table.get?_insert_self ..
  case obtained =>
    intro i task l hi hl
    exact hkept _ l (h.obtained i task l hi hl)
  case holds =>
    intro i task l stage hi hp
    obtain ⟨k, hk, hholder⟩ := h.holds i task l stage hi hp
    exact ⟨k, hlock l k hk, hholder⟩

/-- Every lock but the one that changes hands is as it was. -/
theorem locks_setHolder (y : System φ β) (l l' : Nat) (holder : Option Nat) :
    (y.setHolder l holder).locks[l']? =
      y.locks[l']?.map fun k => if l = l' then { k with holder } else k := by
  change (y.locks.modify l fun k => { k with holder })[l']? = _
  rw [List.getElem?_modify]
  rfl

/-- A lock that nobody works under may change hands. -/
theorem Guarded.setHolder {y : System φ β} (h : y.Guarded) {l : Nat} {holder : Option Nat}
    (idle : ∀ (i : Nat) task stage, y.tasks[i]? = some task → task.phase ≠ .inside l stage) :
    (y.setHolder l holder).Guarded := by
  refine ⟨?_, ?_, h.obtained, ?_⟩
  · intro name l' hl'
    obtain ⟨k, hk, hname⟩ := h.named name l' hl'
    refine ⟨_, by rw [locks_setHolder, hk, Option.map_some], ?_⟩
    split <;> exact hname
  · intro l' k hk
    rw [locks_setHolder, Option.map_eq_some_iff] at hk
    obtain ⟨k', hk', rfl⟩ := hk
    have := h.listed l' k' hk'
    split <;> exact this
  · intro i task l' stage hi hp
    have hne : l ≠ l' := by
      rintro rfl
      exact idle i task stage hi hp
    obtain ⟨k, hk, hholder⟩ := h.holds i task l' stage hi hp
    exact ⟨k, by rw [locks_setHolder, hk, Option.map_some, if_neg hne], hholder⟩

/-- Nobody works under a free lock. -/
theorem Guarded.idle_of_free {y : System φ β} (h : y.Guarded) {l : Nat} {k : Lock}
    (lock : y.locks[l]? = some k) (free : k.holder = none) (i : Nat) (task : Task) (stage : Stage)
    (hi : y.tasks[i]? = some task) : task.phase ≠ .inside l stage := by
  intro hp
  obtain ⟨k', hk', hholder⟩ := h.holds i task l stage hi hp
  obtain rfl := Option.some.inj (lock.symm.trans hk')
  rw [free] at hholder
  cases hholder

/-- At most one request at a time works on a name. -/
theorem Guarded.exclusive {y : System φ β} (h : y.Guarded) {i j : Nat} {task task' : Task}
    {l l' : Nat} {stage stage' : Stage} (hi : y.tasks[i]? = some task)
    (hj : y.tasks[j]? = some task') (hkey : task.job.key = task'.job.key)
    (hp : task.phase = .inside l stage) (hp' : task'.phase = .inside l' stage') : i = j := by
  have hl : y.lockTable.get? task.job.key = some l :=
    h.obtained i task l hi (by rw [hp]; rfl)
  have hl' : y.lockTable.get? task'.job.key = some l' :=
    h.obtained j task' l' hj (by rw [hp']; rfl)
  rw [← hkey, hl] at hl'
  obtain rfl := Option.some.inj hl'
  obtain ⟨k, hk, hholder⟩ := h.holds i task l stage hi hp
  obtain ⟨k', hk', hholder'⟩ := h.holds j task' l stage' hj hp'
  obtain rfl := Option.some.inj (hk.symm.trans hk')
  exact Option.some.inj (hholder.symm.trans hholder')

/-- No two locks have the same name. -/
theorem Guarded.names_nodup {y : System φ β} (h : y.Guarded) : (y.locks.map Lock.name).Nodup := by
  rw [List.Nodup, List.pairwise_map, List.pairwise_iff_getElem]
  intro l l' hl hl' hlt hname
  have h₁ := h.listed l _ (List.getElem?_eq_getElem hl)
  have h₂ := h.listed l' _ (List.getElem?_eq_getElem hl')
  rw [hname, h₂] at h₁
  have := Option.some.inj h₁
  omega

/-- A system without requests has no locks to guard. -/
theorem guarded_start (b : Blueprint φ β) (t : FileTree) (fallback : φ) (bootstrap : β) :
    (start b t fallback bootstrap).Guarded where
  named name l hl := by cases hl
  listed l k hk := by cases hk
  obtained i task l hi hl := by cases hi
  holds i task l stage hi hp := by cases hi

/-- Every step of a request keeps the locks guarded. -/
theorem Guarded.advance {y : System φ β} (h : y.Guarded) (b : Blueprint φ β) {i : Nat}
    {task : Task} (hi : y.tasks[i]? = some task) : (y.advance b i task).Guarded := by
  have hm := moves_advance b y i task
  generalize y.advance b i task = z at hm ⊢
  cases hm with
  | finds outside found =>
    apply h.moveTo
    · intro l hl
      obtain rfl := Option.some.inj hl
      exact found
    · intro l stage hp
      cases hp
  | misses absent =>
    apply h.moveTo
    · intro l hl
      cases hl
    · intro l stage hp
      cases hp
  | makes absent =>
    apply (h.makeLock absent).moveTo
    · intro l hl
      obtain rfl := Option.some.inj hl
      exact Table.get?_insert_self ..
    · intro l stage hp
      cases hp
  | @enters job l k lock free =>
    apply (h.setHolder (h.idle_of_free lock free)).moveTo
    · intro l' hl'
      obtain rfl := Option.some.inj hl'
      exact h.obtained i ⟨job, .waiting l⟩ l hi rfl
    · intro l' stage hp
      cases hp
      exact ⟨{ k with holder := some i },
        by rw [locks_setHolder, lock, Option.map_some, if_pos rfl], rfl⟩
  | @leaves job l o =>
    have hmoved : (y.moveTo i job (.done o)).Guarded := by
      apply h.moveTo
      · intro l hl
        cases hl
      · intro l stage hp
        cases hp
    apply hmoved.setHolder
    intro j task stage hj hp
    rcases task_moveTo hj with ⟨-, rfl⟩ | ⟨hne, hj⟩
    · cases hp
    · obtain ⟨k, hk, hholder⟩ := h.holds j task l stage hj hp
      obtain ⟨k', hk', hholder'⟩ := h.holds i ⟨job, .inside l (.release o)⟩ l _ hi rfl
      obtain rfl := Option.some.inj (hk.symm.trans hk')
      exact hne (Option.some.inj (hholder.symm.trans hholder'))
  | @works job l stage busy =>
    apply (h.congr rfl rfl rfl : (y.work b job stage).Guarded).moveTo
    · intro l' hl'
      obtain rfl := Option.some.inj hl'
      exact h.obtained i ⟨job, .inside l stage⟩ l hi rfl
    · intro l' stage' hp
      cases hp
      exact h.holds i ⟨job, .inside l stage⟩ l stage hi rfl
  | stays idle => exact h

/-- Whatever happens keeps the locks guarded. -/
theorem Guarded.step {y : System φ β} (h : y.Guarded) (b : Blueprint φ β) (a : Action) :
    (y.step b a).Guarded := by
  cases a with
  | arrive job =>
    refine ⟨h.named, h.listed, ?_, ?_⟩
    · intro i task l hi hl
      rcases task_arrive hi with hi | rfl
      · exact h.obtained i task l hi hl
      · cases hl
    · intro i task l stage hi hp
      rcases task_arrive hi with hi | rfl
      · exact h.holds i task l stage hi hp
      · cases hp
  | advance i =>
    simp only [System.step]
    split
    · exact h.advance b ‹_›
    · exact h
  | request r hr => exact h.congr rfl rfl rfl
  | files t => exact h.congr rfl rfl rfl

end System

end Overlay
