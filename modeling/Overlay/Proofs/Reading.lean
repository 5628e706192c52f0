import Overlay.Proofs.Describing

/-!
# Reading a descriptor in steps

The descriptor of an origin is read in up to four steps, and each looks at the files as they are at
its moment: whether the origin is a directory, whether it has a descriptor file, what that file says;
or else what the leading entries of the archive are, whether there is a live view of it, and what its
index holds. `ReadingStage.finished_alone` ties the steps to the reading that nothing interrupts.
-/

namespace Overlay

/-- What the reading of a descriptor does next. -/
inductive ReadingStage where
  /-- Look whether the origin is a directory. -/
  | start
  /-- Look for the descriptor file of a directory. -/
  | seek
  /-- Read the descriptor file. -/
  | read
  /-- Scan the leading entries of an archive. -/
  | scan
  /-- Look for a live view of the archive, whose leading entries name the signers. -/
  | view (signers : List String)
  /-- Index the archive. -/
  | index (signers : List String)
  /-- Nothing: the reading is over. -/
  | ended (result : Except IoError Descriptor)

namespace ReadingStage

/-- Carry out a stage on the files and views of the moment. -/
def next (t : FileTree) (m : MetadataCache) (a : ArchiveTable) (p : Path) :
    ReadingStage → ReadingStage
  | start => if t.isDirectory p then seek else scan
  | seek => if t.isFile (p.join m.descriptorPath) then read else ended (.ok Descriptor.empty)
  | read => ended ((t.readText (p.join m.descriptorPath)).map Descriptor.parse)
  | scan =>
    match Archive.scanLeading t p m.directoryPrefix with
    | .error e => ended (.error e)
    | .ok leading =>
      match m.leadingDescriptor? leading with
      | some data =>
        ended (.ok ((Descriptor.parse (Text.Utf8.decodeLenient data)).withSigners
          (m.leadingSigners leading)))
      | none => view (m.leadingSigners leading)
  | view signers =>
    match a.get? p with
    | some i => ended (.ok (m.ofIndex i signers))
    | none => index signers
  | index signers => ended ((ArchiveIndex.ofPath t p).map fun i => m.ofIndex i signers)
  | ended result => ended result

/-- How many stages there can be at most until the reading is over. -/
def left : ReadingStage → Nat
  | start => 4
  | scan => 3
  | seek | view _ => 2
  | read | index _ => 1
  | ended _ => 0

/-- Every stage brings the reading nearer to its end, whatever the files are. -/
theorem left_next {stage : ReadingStage} (h : stage.left ≠ 0) (t : FileTree) (m : MetadataCache)
    (a : ArchiveTable) (p : Path) : (stage.next t m a p).left < stage.left := by
  cases stage with
  | start =>
    simp only [next]
    split <;> simp [left]
  | seek =>
    simp only [next]
    split <;> simp [left]
  | scan =>
    simp only [next]
    split
    · simp [left]
    · split <;> simp [left]
  | view signers =>
    simp only [next]
    split <;> simp [left]
  | read | index signers => simp [next, left]
  | ended result => exact absurd rfl h

/-- A reading with no stages left is over. -/
theorem eq_ended_of_left {stage : ReadingStage} (h : stage.left = 0) :
    ∃ result, stage = ended result := by
  cases stage with
  | ended result => exact ⟨result, rfl⟩
  | _ => cases h

/-- Carry out stages, beginning with the given one, without an interruption. -/
def alone (t : FileTree) (m : MetadataCache) (a : ArchiveTable) (p : Path) :
    Nat → ReadingStage → ReadingStage
  | 0, stage => stage
  | k + 1, stage => alone t m a p k (stage.next t m a p)

/-- A reading that nothing interrupts goes through at most four stages, and ends with what is read
at once. -/
theorem finished_alone (t : FileTree) (m : MetadataCache) (a : ArchiveTable) (p : Path) :
    alone t m a p 4 start = ended (m.compute t a p) := by
  by_cases hd : t.isDirectory p = true
  · by_cases hf : t.isFile (p.join m.descriptorPath) = true <;>
      simp [alone, next, MetadataCache.compute, MetadataCache.ofDirectory, hd, hf]
  · cases hs : Archive.scanLeading t p m.directoryPrefix with
    | error e =>
      simp [alone, next, MetadataCache.compute, MetadataCache.ofArchive, hd, hs]
    | ok leading =>
      cases hl : m.leadingDescriptor? leading with
      | some data =>
        simp [alone, next, MetadataCache.compute, MetadataCache.ofArchive, hd, hs, hl]
      | none =>
        cases ha : a.get? p with
        | some i =>
          simp [alone, next, MetadataCache.compute, MetadataCache.ofArchive, ArchiveTable.acquire,
            hd, hs, hl, ha, Except.map]
        | none =>
          cases hi : ArchiveIndex.ofPath t p <;>
            simp [alone, next, MetadataCache.compute, MetadataCache.ofArchive,
              ArchiveTable.acquire, hd, hs, hl, ha, hi, Except.map]

end ReadingStage

/-- The descriptor that a reading ends with; one that cannot be read counts as empty. -/
def MetadataCache.readAs : Except IoError Descriptor → Descriptor
  | .ok d => d
  | .error _ => Descriptor.empty

namespace Pipeline

variable {φ β : Type}

/-- Keep what was read at a location; a failure leaves a notice. -/
def keepRead (p : Path) (result : Except IoError Descriptor) (s : Pipeline φ β) : Pipeline φ β :=
  let s := { s with metadata := s.metadata.keep p (MetadataCache.readAs result) }
  match result with
  | .ok _ => s
  | .error e => s.note (.descriptorFailed p e)

theorem metadata_keepRead (p : Path) (result : Except IoError Descriptor) (s : Pipeline φ β) :
    (s.keepRead p result).metadata = s.metadata.keep p (MetadataCache.readAs result) := by
  cases result <;> rfl

theorem defined_keepRead (p : Path) (result : Except IoError Descriptor) (s : Pipeline φ β) :
    (s.keepRead p result).defined = s.defined := by
  cases result <;> rfl

/-- Who asks first reads the descriptor and keeps it. -/
theorem descriptorFor_of_none {p : Path} {s : Pipeline φ β} (h : s.metadata.get? p = none)
    (t : FileTree) :
    s.descriptorFor t p =
      (MetadataCache.readAs (s.metadata.compute t s.lookups.archives p),
        s.keepRead p (s.metadata.compute t s.lookups.archives p)) := by
  unfold descriptorFor MetadataCache.descriptorFor
  rw [h]
  dsimp only
  cases s.metadata.compute t s.lookups.archives p <;> rfl

/-- Who asks later gets the kept descriptor and changes nothing. -/
theorem descriptorFor_of_some {p : Path} {s : Pipeline φ β} {d : Descriptor}
    (h : s.metadata.get? p = some d) (t : FileTree) : s.descriptorFor t p = (d, s) := by
  unfold descriptorFor MetadataCache.descriptorFor
  rw [h]

end Pipeline

end Overlay
