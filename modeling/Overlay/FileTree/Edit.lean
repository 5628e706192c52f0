import Overlay.FileTree

/-!
# Changes of a file tree

Writing a file, making a directory, making a link and removing what stands at a path. Missing
directories above a new node are made.
-/

namespace Overlay.FileTree

/-- Put a node at a place, in place of what stands there. -/
def putAt (t : FileTree) (place : Place) (n : Node) : FileTree :=
  { t with nodes := t.nodes.filter (·.1 != place) ++ [(place, n)] }

/-- Take away a place and all places below it. -/
def dropAt (t : FileTree) (place : Place) : FileTree :=
  { t with nodes := t.nodes.filter fun n => !place.isPrefixOf n.1 }

/-- Make the directories that steps lead through and give the last one's place. Links on the way
are followed. -/
def makeSteps (t : FileTree) (place : Place) : List String → Except IoError (FileTree × Place)
  | [] => .ok (t, place)
  | step :: rest =>
    match t.walk linkLimit place [step, "."] with
    | .ok next => makeSteps t next rest
    | .error .notFound =>
      if (t.nodeAt? (place ++ [step])).isSome then .error .notFound
      else makeSteps (t.putAt (place ++ [step]) .directory) (place ++ [step]) rest
    | .error e => .error e

/-- Make the directory of a path with all directories above it. -/
def makeDirectory (t : FileTree) (p : Path) : Except IoError FileTree :=
  (t.makeSteps (startOf p t.workingDirectory) (steps p)).map (·.1)

/-- Make the directories above the last step of a path and give the place of that step, which is
not followed. -/
def makeParent (t : FileTree) (p : Path) : Except IoError (FileTree × Place) :=
  match p.fileName? with
  | none => .error .notFound
  | some name =>
    match t.makeSteps (startOf p t.workingDirectory) ((steps p).dropLast) with
    | .ok (t, place) => .ok (t, place ++ [name])
    | .error e => .error e

/-- Write a file. A link at the path is followed, also to a name that does not exist yet. -/
def writeThrough (n : Node) : Nat → FileTree → Path → Except IoError FileTree
  | links, t, p =>
    match t.makeParent p with
    | .error e => .error e
    | .ok (t, place) =>
      match t.nodeAt? place with
      | some .directory => .error .isDirectory
      | some (.link target) =>
        match links with
        | 0 => .error .linkLoop
        | links + 1 =>
          let target := if target.isAbsolute then target else (pathOf place.dropLast).join target.text
          writeThrough n links t target
      | _ => .ok (t.putAt place n)

/-- Write a file with the given content. -/
def write (t : FileTree) (p : Path) (content : ByteArray) : Except IoError FileTree :=
  writeThrough (.file content) linkLimit t p

/-- Make a symbolic link. -/
def makeLink (t : FileTree) (p target : Path) : Except IoError FileTree :=
  (t.makeParent p).map fun (t, place) => t.putAt place (.link target)

/-- Remove a file, a link or a whole directory. -/
def remove (t : FileTree) (p : Path) : Except IoError FileTree :=
  (t.makeParent p).map fun (t, place) => t.dropAt place

end Overlay.FileTree
