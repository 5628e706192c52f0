import Overlay.Path
import Overlay.Text.Utf8

/-!
# The environment

The system has the names and the values of environment variables as bytes, which need not be texts.
A single variable is found by the bytes of its name, whatever the others are. Going over all of them
as texts is cut short at one that is no text.
-/

namespace Overlay

/-- Environment variables: names with values, as the system has them. -/
abbrev Environment := List (ByteArray × ByteArray)

namespace Environment

/-- The environment of variables with names and values that are texts. -/
def ofTexts (vars : List (String × String)) : Environment :=
  vars.map fun v => (v.1.toUTF8, v.2.toUTF8)

/-- The variable of an entry, which parts the name from the value by an equals sign. A name has at
least one byte, so the first byte parts nothing; an entry that is not parted holds no variable. -/
def variableOf? : List UInt8 → Option (ByteArray × ByteArray)
  | [] => none
  | b :: entry =>
    match entry.dropWhile (· != 0x3D) with
    | [] => none
    | _ :: value => some (⟨(b :: entry.takeWhile (· != 0x3D)).toArray⟩, ⟨value.toArray⟩)

/-- The environment of a block of entries, with a null byte behind each. -/
def ofBlock (block : ByteArray) : Environment :=
  (Text.pieces (· == 0) block.toList).filterMap variableOf?

/-- The value of the first variable with a name. -/
def get? (env : Environment) (name : String) : Option ByteArray :=
  (env.find? (·.1 = name.toUTF8)).map (·.2)

/-- The path that a value is, as it is shown: what is no text in it stands as U+FFFD. -/
def pathOf (value : ByteArray) : Path := ⟨Text.Utf8.decodeLenient value⟩

/-- The name and the value of a variable, if both are texts. -/
def textsOf? (v : ByteArray × ByteArray) : Option (String × String) :=
  match Text.Utf8.decode? v.1, Text.Utf8.decode? v.2 with
  | some name, some value => some (name, value)
  | _, _ => none

end Environment

end Overlay
