import Overlay.ArchiveTable
import Overlay.Journal
import Overlay.Registry

/-!
# Looking up resources

`find?` and `findAll` give the locations of a resource in the registered origins, `resolve?` and
`resolveAll` its content as well. All go through the origins in order. A resource name that does
not stay below an origin is never found, and an archive that cannot be read is passed over with a
notice.
-/

namespace Overlay

/-- What a look-up may change: the live archive views and the journal. -/
structure LookupState where
  /-- The live archive views. -/
  archives : ArchiveTable
  /-- The notices. -/
  journal : Journal
  deriving DecidableEq

namespace LookupState

/-- No views and no notices. -/
def empty : LookupState := ⟨ArchiveTable.empty, []⟩

/-- Add a notice. -/
def note (s : LookupState) (n : Notice) : LookupState := { s with journal := s.journal ++ [n] }

end LookupState

/-- A resource with the origin that supplied it. -/
abbrev Found := Origin × Resource

namespace Origin

/-- The view of an origin that is an archive, or none with a notice if it cannot be read. -/
def view (t : FileTree) (o : Origin) (s : LookupState) : Option ArchiveIndex × LookupState :=
  match s.archives.openView t o.location with
  | (.ok i, archives) => (some i, { s with archives })
  | (.error e, archives) => (none, { s with archives }.note (.archiveSkipped o.location e))

/-- Whether an origin has a resource. -/
def holds (t : FileTree) (resource : String) (o : Origin) (s : LookupState) :
    Bool × LookupState :=
  if !Path.staysBelow resource then (false, s)
  else
    match o.kind with
    | .directory => (t.isFile (o.location.join resource), s)
    | .archive =>
      let (index, s) := o.view t s
      (index.any (·.contains resource), s)

/-- Read a resource of an origin. -/
def readResource (t : FileTree) (resource : String) (o : Origin) (s : LookupState) :
    Except LoadError (Option Resource) × LookupState :=
  if !Path.staysBelow resource then (.ok none, s)
  else
    match o.kind with
    | .directory =>
      let path := o.location.join resource
      if !t.isFile path then (.ok none, s)
      else
        match t.read path with
        | .ok bytes => (.ok (some ⟨.file path, bytes⟩), s)
        | .error e => (.error (.read resource (.file path) e), s)
    | .archive =>
      let (index, s) := o.view t s
      (.ok ((index.bind (·.read? resource)).map fun bytes => ⟨o.locate resource, bytes⟩), s)

end Origin

namespace Registry

/-- The location of a resource in the first of some origins that has it. -/
def findIn (t : FileTree) (resource : String) :
    List Origin → LookupState → Option Location × LookupState
  | [], s => (none, s)
  | o :: os, s =>
    match o.holds t resource s with
    | (true, s) => (some (o.locate resource), s)
    | (false, s) => findIn t resource os s

/-- The locations of a resource in all of some origins that have it. -/
def findAllIn (t : FileTree) (resource : String) :
    List Origin → LookupState → List Location × LookupState
  | [], s => ([], s)
  | o :: os, s =>
    match o.holds t resource s with
    | (true, s) =>
      let (ls, s) := findAllIn t resource os s
      (o.locate resource :: ls, s)
    | (false, s) => findAllIn t resource os s

/-- Read a resource from the first of some origins that has it. -/
def resolveIn (t : FileTree) (resource : String) :
    List Origin → LookupState → Except LoadError (Option Found) × LookupState
  | [], s => (.ok none, s)
  | o :: os, s =>
    match o.readResource t resource s with
    | (.error e, s) => (.error e, s)
    | (.ok (some found), s) => (.ok (some (o, found)), s)
    | (.ok none, s) => resolveIn t resource os s

/-- Read a resource from all of some origins that have it. -/
def resolveAllIn (t : FileTree) (resource : String) :
    List Origin → LookupState → Except LoadError (List Found) × LookupState
  | [], s => (.ok [], s)
  | o :: os, s =>
    match o.readResource t resource s with
    | (.error e, s) => (.error e, s)
    | (.ok none, s) => resolveAllIn t resource os s
    | (.ok (some found), s) =>
      match resolveAllIn t resource os s with
      | (.error e, s) => (.error e, s)
      | (.ok more, s) => (.ok ((o, found) :: more), s)

/-- The location of a resource in the first origin that has it. -/
def find? (t : FileTree) (r : Registry) (resource : String) (s : LookupState) :
    Option Location × LookupState := findIn t resource r.order s

/-- The locations of a resource in all origins that have it. -/
def findAll (t : FileTree) (r : Registry) (resource : String) (s : LookupState) :
    List Location × LookupState := findAllIn t resource r.order s

/-- Read a resource from the first origin that has it. -/
def resolve? (t : FileTree) (r : Registry) (resource : String) (s : LookupState) :
    Except LoadError (Option Found) × LookupState := resolveIn t resource r.order s

/-- Read a resource from all origins that have it. A failure to read one fails the whole. -/
def resolveAll (t : FileTree) (r : Registry) (resource : String) (s : LookupState) :
    Except LoadError (List Found) × LookupState := resolveAllIn t resource r.order s

end Registry

end Overlay
