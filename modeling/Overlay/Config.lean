import Overlay.Environment
import Overlay.Text.Blank

/-!
# Loader configuration

A configuration decides which names go to which loader, where a symbol and a descriptor are
stored, and which resources stay hidden. Every setting has a key; settings given as text are read
by `set`, which `withEnvironment` applies to the environment's variables.
-/

namespace Overlay

/-- The settings of a loader. -/
structure Config where
  /-- Prefixes of the names that only the bootstrap loader serves. -/
  bootstrapPrefixes : List String := ["std."]
  /-- Prefixes of the names of shared support code. -/
  supportPrefixes : List String := ["strata.shared."]
  /-- The loader's own symbol, which counts as support code. -/
  selfName : String := "strata.loader.LayeredLoader"
  /-- What follows a symbol's path in the name of its resource. -/
  resourceSuffix : String := ".sym"
  /-- Where an origin keeps its descriptor. -/
  descriptorPath : String := "META-INF/MANIFEST.MF"
  /-- What the names of signing entries end with. -/
  signerSuffix : String := ".sig"
  /-- Resource names that a module loader hides. -/
  reservedResources : List String := ["manifest.json"]
  /-- Prefixes of the names that the transformer never sees. -/
  transformExclusions : List String := []
  /-- Whether every failed look-up is noted. -/
  debugLookups : Bool := false
  deriving DecidableEq, Repr, Inhabited

namespace Config

/-- The settings, by name. -/
inductive Field where
  | bootstrapPrefixes
  | supportPrefixes
  | selfName
  | resourceSuffix
  | descriptorPath
  | signerSuffix
  | reservedResources
  | transformExclusions
  | debugLookups
  deriving DecidableEq, Repr

namespace Field

/-- Every setting. -/
def all : List Field :=
  [bootstrapPrefixes, supportPrefixes, selfName, resourceSuffix, descriptorPath, signerSuffix,
    reservedResources, transformExclusions, debugLookups]

/-- The key of a setting. -/
def key : Field → String
  | bootstrapPrefixes => "bootstrap-prefixes"
  | supportPrefixes => "support-prefixes"
  | selfName => "self-name"
  | resourceSuffix => "resource-suffix"
  | descriptorPath => "descriptor-path"
  | signerSuffix => "signer-suffix"
  | reservedResources => "reserved-resources"
  | transformExclusions => "transform-exclusions"
  | debugLookups => "debug-lookups"

/-- The setting with a key. -/
def ofKey? (s : String) : Option Field := all.find? (·.key == s)

theorem ofKey?_key (f : Field) : ofKey? f.key = some f := by cases f <;> decide

end Field

/-- The items of a list written with commas: trimmed, blank ones left out. -/
def items (value : String) : List String :=
  (((Text.pieces (· == ',') value.toList).map Text.trim).filter (· != [])).map String.ofList

/-- Whether a written switch is on. -/
def isOn (value : String) : Bool := value == "true" || value == "1"

/-- Give a setting the value written in a text. -/
def setField (c : Config) (f : Field) (value : String) : Config :=
  match f with
  | .bootstrapPrefixes => { c with bootstrapPrefixes := items value }
  | .supportPrefixes => { c with supportPrefixes := items value }
  | .selfName => { c with selfName := value }
  | .resourceSuffix => { c with resourceSuffix := value }
  | .descriptorPath => { c with descriptorPath := value }
  | .signerSuffix => { c with signerSuffix := value }
  | .reservedResources => { c with reservedResources := items value }
  | .transformExclusions => { c with transformExclusions := items value }
  | .debugLookups => { c with debugLookups := isOn value }

/-- Give the setting with a key the value written in a text; an unknown key changes nothing. -/
def set (c : Config) (key value : String) : Config :=
  match Field.ofKey? key with
  | some f => c.setField f value
  | none => c

/-- The variable that turns on `debugLookups` by being present. -/
def debugVariable : String := "STRATA_DEBUG_LOADER"

/-- What the names of the variables that override a setting start with. -/
def variablePrefix : String := "STRATA_LOADER_"

/-- The lower-case form of a character, as far as it is an ASCII letter: U+212A is a written `K`.
Any other character stays, and no key contains it. -/
def lowerChar (c : Char) : Char := if c.toNat == 0x212A then 'k' else c.toLower

/-- The key that a variable's name gives a value to. -/
def variableKey? (name : String) : Option String :=
  if variablePrefix.toList.isPrefixOf name.toList then
    some (String.ofList ((name.toList.drop variablePrefix.length).map fun c =>
      if c = '_' then '-' else lowerChar c))
  else none

/-- The variable that overrides a setting, in capitals. -/
def Field.variableName (f : Field) : String :=
  variablePrefix ++ String.ofList (f.key.toList.map fun c => if c = '-' then '_' else c.toUpper)

theorem variableKey?_variableName (f : Field) : variableKey? f.variableName = some f.key := by
  cases f <;> rfl

/-- Apply one variable of the environment, its name and its value being texts. -/
def withVariable (c : Config) (v : String × String) : Config :=
  match variableKey? v.1 with
  | some key => c.set key v.2
  | none => c

/-- Apply the environment: `debugVariable` first, then the overriding variables in turn. They are
gone over as texts, so there is no configuration if a variable is no text, whatever its name is: the
run is cut short there. -/
def withEnvironment (c : Config) (env : Environment) : Option Config :=
  let c := if (env.get? debugVariable).isSome then { c with debugLookups := true } else c
  env.foldlM (fun c v => (Environment.textsOf? v).map c.withVariable) c

/-- Whether a text starts with one of some prefixes. -/
def startsWithAny (prefixes : List String) (name : String) : Bool :=
  prefixes.any (·.toList.isPrefixOf name.toList)

/-- Whether only the bootstrap loader serves a name. -/
def isBootstrap (c : Config) (name : String) : Bool := startsWithAny c.bootstrapPrefixes name

/-- Whether a name belongs to the support code. -/
def isSupport (c : Config) (name : String) : Bool :=
  name == c.selfName || startsWithAny c.supportPrefixes name

/-- Whether the transformer may see a name. -/
def canTransform (c : Config) (name : String) : Bool :=
  !startsWithAny c.transformExclusions name

/-- A text with its ASCII letters in lower case. -/
def foldCase (s : String) : List Char := s.toList.map Char.toLower

/-- Whether a module loader hides a resource. ASCII letters match in either case. -/
def isReserved (c : Config) (resource : String) : Bool :=
  c.reservedResources.any (foldCase · == foldCase resource)

end Config

end Overlay
