import Overlay.IoError
import Overlay.Path
import Overlay.Text.Utf8

/-!
# File trees

A file tree is a value: the nodes below the root, each under its place, and the working directory.
Paths are followed as an operating system follows them. Every step needs a directory to step from,
`..` leads to the directory above, and a link is replaced by its target; `realPath` is the place
that a path leads to, and `isFile`, `isDirectory` and `read` look at what stands there.
-/

namespace Overlay

/-- The names that lead from the root to a node, without dots and links. -/
abbrev Place := List String

/-- What can stand at a place. -/
inductive Node where
  /-- A regular file. -/
  | file (content : ByteArray)
  /-- A regular file whose content cannot be read. -/
  | unreadable
  /-- A device that is always empty. -/
  | device
  /-- A directory. -/
  | directory
  /-- A symbolic link with its target. -/
  | link (target : Path)

/-- Files, directories and links below the root, and the working directory. -/
structure FileTree where
  /-- The nodes below the root, each place at most once. -/
  nodes : List (Place × Node)
  /-- The directory that relative paths start from. -/
  workingDirectory : Place

namespace FileTree

/-- The node at a place. The root is a directory. -/
def nodeAt? (t : FileTree) (place : Place) : Option Node :=
  if place = [] then some .directory else (t.nodes.find? (·.1 == place)).map (·.2)

/-- Whether a directory stands at a place. -/
def directoryAt (t : FileTree) (place : Place) : Bool :=
  match t.nodeAt? place with
  | some .directory => true
  | _ => false

/-- The most links that are followed for one path. -/
def linkLimit : Nat := 40

/-- The most bytes of one name. -/
def nameLimit : Nat := 255

/-- The most bytes of a path that is looked at or read. -/
def pathLimit : Nat := 4095

/-- The steps of a path: the texts between its slashes, behind the slash of the root. -/
def steps (p : Path) : List String :=
  (Text.pieces (· == '/') (if p.isAbsolute then p.text.toList.drop 1 else p.text.toList)).map
    String.ofList

/-- Where a path starts, seen from a directory. -/
def startOf (p : Path) (base : Place) : Place := if p.isAbsolute then [] else base

/-- Follow steps from a place. A link hands the place it starts from and the steps that are left
to `follow`. -/
def walkWith (t : FileTree) (follow : Place → List String → Except IoError Place) :
    Place → List String → Except IoError Place
  | place, [] => .ok place
  | place, step :: rest =>
    if !t.directoryAt place then .error .notDirectory
    else if step = "" ∨ step = "." then walkWith t follow place rest
    else if step = ".." then walkWith t follow place.dropLast rest
    else if nameLimit < step.utf8ByteSize then .error .nameTooLong
    else
      match t.nodeAt? (place ++ [step]) with
      | none => .error .notFound
      | some (.link target) => follow (startOf target place) (steps target ++ rest)
      | some _ => walkWith t follow (place ++ [step]) rest

/-- Follow steps from a place through at most `links` links. -/
def walk (t : FileTree) : Nat → Place → List String → Except IoError Place
  | 0 => walkWith t fun _ _ => .error .linkLoop
  | links + 1 => walkWith t (walk t links)

/-- The place that a path leads to. -/
def resolve (t : FileTree) (p : Path) : Except IoError Place :=
  if p.text.toList.contains (Char.ofNat 0) then .error .nullInPath
  else if p.text = "" then .error .notFound
  else t.walk linkLimit (startOf p t.workingDirectory) (steps p)

/-- The path of a place. -/
def pathOf (place : Place) : Path := ⟨"/" ++ "/".intercalate place⟩

/-- The path of the place that a path leads to, which must exist. -/
def realPath (t : FileTree) (p : Path) : Except IoError Path := (t.resolve p).map pathOf

/-- The node that a path leads to. -/
def node (t : FileTree) (p : Path) : Except IoError Node :=
  if pathLimit < p.text.utf8ByteSize then .error .nameTooLong
  else
    match t.resolve p with
    | .error e => .error e
    | .ok place =>
      match t.nodeAt? place with
      | some n => .ok n
      | none => .error .notFound

/-- Whether a path leads to a directory. -/
def isDirectory (t : FileTree) (p : Path) : Bool :=
  match t.node p with
  | .ok .directory => true
  | _ => false

/-- Whether a path leads to a regular file. -/
def isFile (t : FileTree) (p : Path) : Bool :=
  match t.node p with
  | .ok (.file _) => true
  | .ok .unreadable => true
  | _ => false

/-- The bytes of the file that a path leads to. -/
def read (t : FileTree) (p : Path) : Except IoError ByteArray :=
  match t.node p with
  | .error e => .error e
  | .ok (.file content) => .ok content
  | .ok .device => .ok ByteArray.empty
  | .ok .directory => .error .isDirectory
  | .ok _ => .error .deviceFailed

/-- The text of the UTF-8 file that a path leads to. -/
def readText (t : FileTree) (p : Path) : Except IoError String :=
  match t.read p with
  | .error e => .error e
  | .ok content =>
    match Text.Utf8.decode? content with
    | some text => .ok text
    | none => .error .notText

/-- The name that a place has in a directory, if it stands directly in it. -/
def nameIn? (directory place : Place) : Option String :=
  match place.getLast? with
  | some name => if directory ++ [name] = place then some name else none
  | none => none

/-- The names in the directory that a path leads to. -/
def namesIn (t : FileTree) (p : Path) : List String :=
  match t.resolve p with
  | .ok place => t.nodes.filterMap fun n => nameIn? place n.1
  | .error _ => []

end FileTree

end Overlay
