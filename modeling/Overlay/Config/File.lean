import Overlay.Config
import Overlay.FileTree
import Overlay.Toml.Document

/-!
# Configuration files

A configuration file is a TOML document whose top-level keys are the keys of the settings. A key
that is no setting's is ignored; a setting with a value of the wrong type is refused.
-/

namespace Overlay.Config

/-- Why a configuration file could not be used. -/
inductive Fault where
  /-- The file could not be read. -/
  | unreadable (cause : IoError)
  /-- The text is no TOML document, or a setting has a value of the wrong type. -/
  | malformed
  deriving DecidableEq, Repr

/-- The string that a value is. -/
def textOf? : Toml.Value → Option String
  | .text s => some s
  | _ => none

/-- The strings that a value lists. -/
def textsOf? : Toml.Value → Option (List String)
  | .array items => items.mapM textOf?
  | _ => none

/-- The truth value that a value is. -/
def switchOf? : Toml.Value → Option Bool
  | .boolean b => some b
  | _ => none

/-- Give a setting the value of a document's key. -/
def setValue (c : Config) (f : Field) (v : Toml.Value) : Option Config :=
  match f with
  | .bootstrapPrefixes => (textsOf? v).map fun xs => { c with bootstrapPrefixes := xs }
  | .supportPrefixes => (textsOf? v).map fun xs => { c with supportPrefixes := xs }
  | .selfName => (textOf? v).map fun x => { c with selfName := x }
  | .resourceSuffix => (textOf? v).map fun x => { c with resourceSuffix := x }
  | .descriptorPath => (textOf? v).map fun x => { c with descriptorPath := x }
  | .signerSuffix => (textOf? v).map fun x => { c with signerSuffix := x }
  | .reservedResources => (textsOf? v).map fun xs => { c with reservedResources := xs }
  | .transformExclusions => (textsOf? v).map fun xs => { c with transformExclusions := xs }
  | .debugLookups => (switchOf? v).map fun b => { c with debugLookups := b }

/-- The settings of a document over the defaults. -/
def ofEntries (es : Toml.Entries) : Option Config :=
  es.foldlM (fun (c : Config) e =>
    match Field.ofKey? e.1 with
    | some f => c.setValue f e.2
    | none => some c) {}

/-- The settings of a written document over the defaults. -/
def ofText (text : String) : Except Fault Config :=
  match (Toml.parse text).bind ofEntries with
  | some c => .ok c
  | none => .error .malformed

/-- The settings of a configuration file over the defaults. -/
def fromFile (t : FileTree) (p : Path) : Except Fault Config :=
  match t.readText p with
  | .error e => .error (.unreadable e)
  | .ok text => ofText text

/-- The settings of an optional configuration file, then of the environment; none if the environment
cuts the run short. -/
def load (t : FileTree) (file : Option Path) (env : Environment) :
    Except Fault (Option Config) :=
  match file with
  | none => .ok (withEnvironment {} env)
  | some p => (fromFile t p).map (·.withEnvironment env)

end Overlay.Config
