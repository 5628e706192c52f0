import Overlay.Loader.Memory
import Overlay.Proofs.Locking

/-!
# Every symbol is defined once

A request looks its name up again once it holds the lock of the name, and at most one request at a
time does. Hence a name is defined at most once and for good, whatever happens between the steps of
the requests, and every request that ends with a symbol of the pipeline ends with that one.
-/

namespace Overlay

variable {φ β : Type}

/-- A request that needs no lock defines nothing. -/
theorem Request.defined_run {r : Request} (h : r.isLocked = false) (b : Blueprint φ β)
    (t : FileTree) (s : Pipeline φ β) : (r.run b t s).2.defined = s.defined := by
  apply defined_run_of_ne_load
  rintro name allowed rfl
  cases h

namespace Stage

/-- Only the insert stage changes the definitions. -/
theorem defined_next {stage : Stage} (h : stage.insertion? = none) (b : Blueprint φ β)
    (t : FileTree) (job : Job) (s : Pipeline φ β) :
    (stage.next b t job s).2.defined = s.defined := by
  cases stage with
  | mark f bytes => exact congrArg Pipeline.Tables.defined (Pipeline.tables_markFetched job.key f s)
  | describe f bytes =>
    exact congrArg Pipeline.Tables.defined (Pipeline.tables_describe t f.codeSource s)
  | noteNamespace f bytes descriptor =>
    exact congrArg Pipeline.Tables.defined (Pipeline.tables_noteNamespace job.key (s := s) rfl)
  | insert x => cases h
  | _ => exact Pipeline.defined_of_tables (tables_next rfl b t job s)

/-- What the entry of a name can be when a request for it is in a stage. -/
def Sound (key : String) (entry : Option Symbol) : Stage → Prop
  | check => True
  | insert x => x.name = key ∧ entry = none
  | release (.own x) => entry = some x
  | release _ => True
  | _ => entry = none

/-- The stage after a sound one is sound. -/
theorem Sound.next {stage : Stage} {job : Job} {s : Pipeline φ β}
    (h : stage.Sound job.key (s.defined.get? job.key)) (b : Blueprint φ β) (t : FileTree) :
    (stage.next b t job s).1.Sound job.key ((stage.next b t job s).2.defined.get? job.key) := by
  cases stage with
  | check =>
    rw [defined_next rfl]
    cases job with
    | isLoaded name =>
      simp only [Stage.next]
      split <;> trivial
    | load name allowed =>
      cases hx : s.defined.get? (Job.load name allowed).key with
      | some x =>
        simp only [Stage.next, hx]
        rfl
      | none =>
        simp only [Stage.next, hx]
        split
        · rfl
        · split <;> rfl
  | support | bootstrap | delegate => trivial
  | consult => exact h
  | fetch allowed =>
    rw [defined_next rfl]
    simp only [Stage.next]
    split
    · trivial
    · exact h
    · exact h
  | transform f =>
    rw [defined_next rfl]
    simp only [Stage.next]
    split
    · trivial
    · exact h
  | mark f bytes | describe f bytes =>
    rw [defined_next rfl]
    exact h
  | noteNamespace f bytes descriptor =>
    rw [defined_next rfl]
    exact ⟨rfl, h⟩
  | insert x =>
    obtain ⟨hname, habsent⟩ := h
    change ((s.defined.insertIfAbsent x.name x).get? job.key) =
      some (((s.defined.insertIfAbsent x.name x).get? x.name).getD x)
    rw [hname, Table.get?_insertIfAbsent, if_pos rfl, Option.getD_some]
  | release o => exact h

end Stage

/-- What the entry of a name can be when a request for it is in a phase. -/
def Phase.Sound (key : String) (entry : Option Symbol) : Phase → Prop
  | inside _ stage => stage.Sound key entry
  | done (.own x) => entry = some x
  | _ => True

/-- A request that is not inside minds no new entry. -/
theorem Phase.Sound.defined {key : String} {phase : Phase} (h : phase.Sound key none) (x : Symbol)
    (houtside : ∀ l stage, phase ≠ .inside l stage) : phase.Sound key (some x) := by
  cases phase with
  | arrived | missing | waiting l => trivial
  | inside l stage => exact absurd rfl (houtside l stage)
  | done o =>
    cases o with
    | own x => cases h
    | handed result | present result => trivial

namespace System

/-- Requests, definitions and insertions agree. -/
structure Sound (y : System φ β) : Prop where
  /-- Every request is in a phase that suits the entry of its name. -/
  tasks : ∀ (i : Nat) task, y.tasks[i]? = some task →
    task.phase.Sound task.job.key (y.pipeline.defined.get? task.job.key)
  /-- The definitions are what was inserted. -/
  inserted : ∀ name x, y.pipeline.defined.get? name = some x ↔ x ∈ y.insertions ∧ x.name = name
  /-- No name was inserted twice. -/
  nodup : (y.insertions.map Symbol.name).Nodup

theorem sound_start (b : Blueprint φ β) (t : FileTree) (fallback : φ) (bootstrap : β) :
    (start b t fallback bootstrap).Sound where
  tasks i task hi := by cases hi
  inserted name x := by simp [start, Pipeline.ofBlueprint]
  nodup := List.nodup_nil

/-- What touches neither requests nor definitions nor insertions keeps them in agreement. -/
theorem Sound.congr {y y' : System φ β} (h : y.Sound) (hr : y'.tasks = y.tasks)
    (hd : y'.pipeline.defined = y.pipeline.defined) (hi : y'.insertions = y.insertions) :
    y'.Sound where
  tasks := by
    rw [hr, hd]
    exact h.tasks
  inserted := by
    rw [hd, hi]
    exact h.inserted
  nodup := by
    rw [hi]
    exact h.nodup

/-- A request may move to a phase that suits the entry of its name. -/
theorem Sound.moveTo {y : System φ β} (h : y.Sound) {i : Nat} {job : Job} {phase : Phase}
    (hp : phase.Sound job.key (y.pipeline.defined.get? job.key)) :
    (y.moveTo i job phase).Sound where
  tasks j task hj := by
    rcases task_moveTo hj with ⟨rfl, rfl⟩ | ⟨-, hj⟩
    · exact hp
    · exact h.tasks j task hj
  inserted := h.inserted
  nodup := h.nodup

/-- The insert stage adds its symbol to the definitions and changes no other entry. -/
theorem get?_work_insert {y : System φ β} {job : Job} {x : Symbol}
    (habsent : y.pipeline.defined.get? x.name = none) (b : Blueprint φ β) (name : String) :
    (y.work b job (.insert x)).pipeline.defined.get? name =
      if name = x.name then some x else y.pipeline.defined.get? name := by
  change (y.pipeline.defined.insertIfAbsent x.name x).get? name = _
  rw [Table.get?_insertIfAbsent, habsent, Option.getD_none]

/-- The insert stage of a request that works alone on its name keeps everything in agreement. -/
theorem Sound.insert {y : System φ β} (h : y.Sound) (hg : y.Guarded) (b : Blueprint φ β) {i : Nat}
    {job : Job} {l : Nat} {x : Symbol} (hi : y.tasks[i]? = some ⟨job, .inside l (.insert x)⟩) :
    ((y.work b job (.insert x)).moveTo i job
      (.inside l (Stage.next b y.tree job (.insert x) y.pipeline).1)).Sound := by
  have hsound : (Stage.insert x).Sound job.key (y.pipeline.defined.get? job.key) := h.tasks i _ hi
  have hname : x.name = job.key := hsound.1
  have habsent : y.pipeline.defined.get? job.key = none := hsound.2
  have hget : ∀ name, (y.work b job (.insert x)).pipeline.defined.get? name =
      if name = x.name then some x else y.pipeline.defined.get? name :=
    get?_work_insert (hname ▸ habsent) b
  have hfresh : ∀ x' ∈ y.insertions, x'.name ≠ x.name := by
    intro x' hx' heq
    have := (h.inserted x.name x').2 ⟨hx', heq⟩
    rw [hname, habsent] at this
    cases this
  constructor
  case tasks =>
    intro j task hj
    rcases task_moveTo hj with ⟨rfl, rfl⟩ | ⟨hne, hj⟩
    · exact hsound.next b y.tree
    · have hold := h.tasks j task hj
      change task.phase.Sound task.job.key
        ((y.work b job (.insert x)).pipeline.defined.get? task.job.key)
      rw [hget]
      split
      · rename_i hkey
        rw [hkey, hname, habsent] at hold
        rw [hkey, hname]
        apply hold.defined x
        intro l' stage' hp
        exact hne (hg.exclusive hj hi (hkey.trans hname) hp rfl)
      · exact hold
  case inserted =>
    intro name x'
    change (y.work b job (.insert x)).pipeline.defined.get? name = some x' ↔
      x' ∈ y.insertions ++ [x] ∧ x'.name = name
    rw [hget, List.mem_append, List.mem_singleton]
    by_cases hn : name = x.name
    · rw [if_pos hn, hn]
      constructor
      · intro hx'
        obtain rfl := Option.some.inj hx'
        exact ⟨Or.inr rfl, rfl⟩
      · rintro ⟨hx' | rfl, heq⟩
        · exact absurd heq (hfresh x' hx')
        · rfl
    · rw [if_neg hn, h.inserted]
      constructor
      · rintro ⟨hx', heq⟩
        exact ⟨Or.inl hx', heq⟩
      · rintro ⟨hx' | rfl, heq⟩
        · exact ⟨hx', heq⟩
        · exact absurd heq.symm hn
  case nodup =>
    change ((y.insertions ++ [x]).map Symbol.name).Nodup
    rw [List.map_append, List.map_singleton, List.nodup_append]
    refine ⟨h.nodup, by simp, ?_⟩
    intro name hmem name' hmem' heq
    obtain ⟨x', hx', rfl⟩ := List.mem_map.1 hmem
    rw [List.mem_singleton] at hmem'
    exact hfresh x' hx' (heq.trans hmem')

/-- Every stage of a request that works alone on its name keeps everything in agreement. -/
theorem Sound.work {y : System φ β} (h : y.Sound) (hg : y.Guarded) (b : Blueprint φ β) {i : Nat}
    {job : Job} {l : Nat} {stage : Stage} (hi : y.tasks[i]? = some ⟨job, .inside l stage⟩) :
    ((y.work b job stage).moveTo i job
      (.inside l (stage.next b y.tree job y.pipeline).1)).Sound := by
  cases hs : stage.insertion? with
  | none =>
    have hsame : (y.work b job stage).Sound := by
      refine h.congr rfl (Stage.defined_next hs b y.tree job y.pipeline) ?_
      change y.insertions ++ stage.insertion?.toList = y.insertions
      rw [hs, Option.toList_none, List.append_nil]
    exact hsame.moveTo ((h.tasks i _ hi : stage.Sound _ _).next b y.tree)
  | some x =>
    cases stage with
    | insert x => exact h.insert hg b hi
    | _ => cases hs

/-- Every step of a request keeps everything in agreement. -/
theorem Sound.advance {y : System φ β} (h : y.Sound) (hg : y.Guarded) (b : Blueprint φ β) {i : Nat}
    {task : Task} (hi : y.tasks[i]? = some task) : (y.advance b i task).Sound := by
  have hm := moves_advance b y i task
  generalize y.advance b i task = z at hm ⊢
  cases hm with
  | finds outside found => exact h.moveTo trivial
  | misses absent => exact h.moveTo trivial
  | makes absent => exact (h.congr rfl rfl rfl : (y.makeLock _).Sound).moveTo trivial
  | enters lock free => exact (h.congr rfl rfl rfl : (y.setHolder _ _).Sound).moveTo trivial
  | @leaves job l o =>
    apply (h.congr rfl rfl rfl : (y.setHolder l none).Sound).moveTo
    have hold : (Stage.release o).Sound _ _ := h.tasks i _ hi
    cases o with
    | own x => exact hold
    | handed result | present result => trivial
  | works busy => exact h.work hg b hi
  | stays idle => exact h

/-- Whatever happens keeps everything in agreement. -/
theorem Sound.step {y : System φ β} (h : y.Sound) (hg : y.Guarded) (b : Blueprint φ β)
    (a : Action) : (y.step b a).Sound := by
  cases a with
  | arrive job =>
    refine ⟨?_, h.inserted, h.nodup⟩
    intro i task hi
    rcases task_arrive hi with hi | rfl
    · exact h.tasks i task hi
    · trivial
  | advance i =>
    simp only [System.step]
    split
    · exact h.advance hg b ‹_›
    · exact h
  | request r hr => exact h.congr rfl (r.defined_run hr b y.tree y.pipeline) rfl
  | files t => exact h.congr rfl rfl rfl

/-- No step replaces or removes a definition. -/
theorem get?_step {y : System φ β} {name : String} {x : Symbol}
    (h : y.pipeline.defined.get? name = some x) (b : Blueprint φ β) (a : Action) :
    (y.step b a).pipeline.defined.get? name = some x := by
  cases a with
  | arrive job | files t => exact h
  | request r hr =>
    change (r.run b y.tree y.pipeline).2.defined.get? name = some x
    rw [r.defined_run hr]
    exact h
  | advance i =>
    simp only [System.step]
    split
    · rename_i task hi
      have hm := moves_advance b y i task
      generalize y.advance b i task = z at hm ⊢
      cases hm with
      | finds | misses | makes | enters | leaves | stays => exact h
      | @works job l stage busy =>
        change (stage.next b y.tree job y.pipeline).2.defined.get? name = some x
        cases hs : stage.insertion? with
        | none =>
          rw [Stage.defined_next hs]
          exact h
        | some x' =>
          cases stage with
          | insert x' =>
            change (y.pipeline.defined.insertIfAbsent x'.name x').get? name = some x
            rw [Table.get?_insertIfAbsent]
            split
            · rename_i hname
              rw [← hname, h, Option.getD_some]
            · exact h
          | _ => cases hs
    · exact h

/-- No run replaces or removes a definition. -/
theorem get?_run {y : System φ β} {name : String} {x : Symbol}
    (h : y.pipeline.defined.get? name = some x) (b : Blueprint φ β) (as : List Action) :
    (y.run b as).pipeline.defined.get? name = some x :=
  run_induction (P := fun z => z.pipeline.defined.get? name = some x) h
    (fun _ a hz => get?_step hz b a) as

end System

/-- Where a request can be that enters when its name is defined. -/
def Phase.Finds (found : Outcome) : Phase → Prop
  | arrived | missing | waiting _ => True
  | inside _ .check => True
  | inside _ (.release o) => o = found
  | inside _ _ => False
  | done o => o = found

namespace System

/-- A request that enters when its name is defined as the given symbol. -/
def Late (y : System φ β) (i : Nat) (job : Job) (x : Symbol) : Prop :=
  y.pipeline.defined.get? job.key = some x ∧
    ∃ phase, y.tasks[i]? = some ⟨job, phase⟩ ∧ phase.Finds (job.found x)

/-- A late request takes its step without a change of the pipeline, and stays late. -/
theorem Late.advance {y : System φ β} {i : Nat} {job : Job} {x : Symbol} {phase : Phase}
    (hx : y.pipeline.defined.get? job.key = some x) (hi : y.tasks[i]? = some ⟨job, phase⟩)
    (hp : phase.Finds (job.found x)) (b : Blueprint φ β) :
    (y.advance b i ⟨job, phase⟩).Late i job x ∧
      (y.advance b i ⟨job, phase⟩).pipeline = y.pipeline := by
  have hm := moves_advance b y i ⟨job, phase⟩
  generalize y.advance b i ⟨job, phase⟩ = z at hm ⊢
  cases hm with
  | finds | misses | makes | enters =>
    exact ⟨⟨hx, _, task_moveTo_self hi _ _, trivial⟩, rfl⟩
  | leaves => exact ⟨⟨hx, _, task_moveTo_self hi _ _, hp⟩, rfl⟩
  | stays idle => exact ⟨⟨hx, phase, hi, hp⟩, rfl⟩
  | @works job l stage busy =>
    cases stage with
    | check =>
      have hnext : Stage.check.next b y.tree job y.pipeline =
          (.release (job.found x), y.pipeline) := by
        simp only [Stage.next, hx]
      refine ⟨⟨?_, _, task_moveTo_self hi _ _, ?_⟩, ?_⟩
      · change (Stage.check.next b y.tree job y.pipeline).2.defined.get? job.key = some x
        rw [hnext]
        exact hx
      · rw [hnext]
        rfl
      · change (Stage.check.next b y.tree job y.pipeline).2 = y.pipeline
        rw [hnext]
    | release o => exact absurd rfl (busy o)
    | _ => exact hp.elim

/-- A late request stays late, whatever happens. -/
theorem Late.step {y : System φ β} {i : Nat} {job : Job} {x : Symbol} (h : y.Late i job x)
    (b : Blueprint φ β) (a : Action) : (y.step b a).Late i job x := by
  obtain ⟨hx, phase, hi, hp⟩ := h
  have hx' := get?_step hx b a
  cases a with
  | request r hr | files t => exact ⟨hx', phase, hi, hp⟩
  | arrive job' =>
    refine ⟨hx', phase, ?_, hp⟩
    exact getElem?_append_of_some hi _
  | advance j =>
    by_cases hij : j = i
    · subst hij
      simp only [System.step, hi]
      exact (Late.advance hx hi hp b).1
    · refine ⟨hx', phase, ?_, hp⟩
      simp only [System.step]
      split
      · rw [task_advance_of_ne hij]
        exact hi
      · exact hi

/-- The step of a late request does not change the pipeline. -/
theorem Late.pipeline_advance {y : System φ β} {i : Nat} {job : Job} {x : Symbol}
    (h : y.Late i job x) (b : Blueprint φ β) :
    (y.step b (.advance i)).pipeline = y.pipeline := by
  obtain ⟨hx, phase, hi, hp⟩ := h
  simp only [System.step, hi]
  exact (Late.advance hx hi hp b).2

/-- What holds of a system whose requests define every symbol once. -/
structure DefinesOnce (b : Blueprint φ β) (y : System φ β) : Prop where
  /-- No two locks were made for one name. -/
  one_lock : (y.locks.map Lock.name).Nodup
  /-- A request waits for the lock of its own name, or holds it. -/
  own_lock : ∀ (i : Nat) job phase l, y.tasks[i]? = some ⟨job, phase⟩ → phase.lock? = some l →
    ∃ k, y.locks[l]? = some k ∧ k.name = job.key
  /-- No two symbols were inserted for one name. -/
  one_insertion : (y.insertions.map Symbol.name).Nodup
  /-- The definitions are the symbols that were inserted. -/
  inserted : ∀ name x, y.pipeline.defined.get? name = some x ↔ x ∈ y.insertions ∧ x.name = name
  /-- No definition is ever replaced or removed. -/
  kept : ∀ name x, y.pipeline.defined.get? name = some x → ∀ as,
    (y.run b as).pipeline.defined.get? name = some x
  /-- A request that ended with a symbol of the pipeline ended with the definition of its name. -/
  returned : ∀ (i : Nat) job x, y.tasks[i]? = some ⟨job, .done (.own x)⟩ →
    y.pipeline.defined.get? job.key = some x
  /-- A request about to insert a symbol finds no entry for its name. -/
  uncontested : ∀ (i : Nat) job l x, y.tasks[i]? = some ⟨job, .inside l (.insert x)⟩ →
    x.name = job.key ∧ y.pipeline.defined.get? job.key = none
  /-- A request that has not entered when its name is defined never calls a loader or the
  transformer: no step of it changes the pipeline, and it can only end with that definition. -/
  late : ∀ (i : Nat) job phase x, y.tasks[i]? = some ⟨job, phase⟩ →
    phase = .arrived ∨ phase = .missing ∨ (∃ l, phase = .waiting l) →
    y.pipeline.defined.get? job.key = some x → ∀ as, ∃ phase',
      (y.run b as).tasks[i]? = some ⟨job, phase'⟩ ∧
      (∀ l stage, phase' = .inside l stage → stage.calls = false) ∧
      (∀ o, phase' = .done o → o = job.found x) ∧
      ((y.run b as).step b (.advance i)).pipeline = (y.run b as).pipeline

/-- In every run, however the steps of the requests interleave with each other and with everything
else, symbols are defined once. -/
theorem definesOnce_run (b : Blueprint φ β) (t : FileTree) (fallback : φ) (bootstrap : β)
    (as : List Action) : ((start b t fallback bootstrap).run b as).DefinesOnce b := by
  have hinv : ((start b t fallback bootstrap).run b as).Guarded ∧
      ((start b t fallback bootstrap).run b as).Sound := by
    refine run_induction (P := fun y => y.Guarded ∧ y.Sound)
      ⟨guarded_start b t fallback bootstrap, sound_start b t fallback bootstrap⟩ ?_ as
    rintro y a ⟨hg, hs⟩
    exact ⟨hg.step b a, hs.step hg b a⟩
  obtain ⟨hg, hs⟩ := hinv
  generalize (start b t fallback bootstrap).run b as = y at hg hs ⊢
  refine ⟨hg.names_nodup, ?_, hs.nodup, hs.inserted, ?_, ?_, ?_, ?_⟩
  · intro i job phase l hi hl
    exact hg.named _ l (hg.obtained i _ l hi hl)
  · intro name x hx as
    exact get?_run hx b as
  · intro i job x hi
    exact hs.tasks i _ hi
  · intro i job l x hi
    exact hs.tasks i _ hi
  · intro i job phase x hi houtside hx as
    have hlate : y.Late i job x := by
      refine ⟨hx, phase, hi, ?_⟩
      rcases houtside with rfl | rfl | ⟨l, rfl⟩ <;> trivial
    have hlate' : (y.run b as).Late i job x :=
      run_induction (P := fun z => z.Late i job x) hlate (fun _ a hz => hz.step b a) as
    have hsame := hlate'.pipeline_advance b
    obtain ⟨-, phase', hi', hfinds⟩ := hlate'
    refine ⟨phase', hi', ?_, ?_, hsame⟩
    · rintro l stage rfl
      cases stage with
      | check | release o => rfl
      | _ => exact hfinds.elim
    · rintro o rfl
      exact hfinds

/-- Two requests that take turns from their arrival on, one under each spelling. -/
example :
    let b : Blueprint Memory Unit := ⟨{}, Memory.loader, BootstrapLoader.none⟩
    let copy : Resource := ⟨.address "memory", ByteArray.empty⟩
    ∃ x, ((start b ⟨[], []⟩ (Memory.empty.addResource "a/b/C.sym" copy) ()).run b
      (.arrive (.load "a.b.C" true) :: .arrive (.load "a/b/C" true) ::
        (List.range 30).map fun i => .advance (i % 2))).tasks =
      [⟨.load "a.b.C" true, .done (.own x)⟩, ⟨.load "a/b/C" true, .done (.own x)⟩] :=
  ⟨_, rfl⟩

end System

end Overlay
