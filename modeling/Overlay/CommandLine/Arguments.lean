import Overlay.Path

/-!
# Arguments

What the words on the command line ask for. Options come first; the first word that is no option
of the program starts the host's own arguments, which are taken as they stand. `read` goes through
the words from left to right, and the first word that asks for help or the version, or cannot be
accepted, decides.
-/

namespace Overlay.CommandLine

/-- An option that takes a value. -/
inductive Setting where
  /-- The host's archive. -/
  | primary
  /-- The loader's support code. -/
  | support
  /-- The directory of auxiliary archives. -/
  | extensions
  /-- The search path of the fallback loader. -/
  | classpath
  /-- The configuration file. -/
  | config
  /-- The symbol that the host starts with. -/
  | entry
  deriving DecidableEq, Repr

/-- An option without a value. -/
inductive Switch where
  /-- Read all descriptors before the host starts. -/
  | prewarm
  /-- Log in detail. -/
  | verbose
  /-- Explain the options. -/
  | help
  /-- Name the program and its version. -/
  | version
  deriving DecidableEq, Repr

/-- An option of the program. -/
inductive Key where
  /-- One that takes a value. -/
  | setting (s : Setting)
  /-- One without a value. -/
  | switch (s : Switch)
  deriving DecidableEq, Repr

/-- The name of a setting. -/
def Setting.name : Setting → String
  | primary => "primary"
  | support => "support"
  | extensions => "extensions"
  | classpath => "classpath"
  | config => "config"
  | entry => "entry"

/-- The name of a switch. -/
def Switch.name : Switch → String
  | prewarm => "prewarm"
  | verbose => "verbose"
  | help => "help"
  | version => "version"

/-- The name of an option. -/
def Key.name : Key → String
  | setting s => s.name
  | switch s => s.name

namespace Key

/-- All options. -/
def all : List Key :=
  [Setting.primary, .support, .extensions, .classpath, .config, .entry].map setting ++
    [Switch.prewarm, .verbose, .help, .version].map switch

/-- The option with a name. -/
def ofName? (name : String) : Option Key := all.find? (·.name == name)

theorem ofName?_name (k : Key) : ofName? k.name = some k := by
  cases k with
  | setting s => cases s <;> decide
  | switch s => cases s <;> decide

/-- The switch with a one-letter name. -/
def ofLetter? : Char → Option Switch
  | 'h' => some .help
  | 'V' => some .version
  | _ => none

end Key

/-- What a single word on the command line is. -/
inductive Word where
  /-- The word `--`. -/
  | separator
  /-- An option, with what stands behind an equals sign. -/
  | option (key : Key) (value : Option String)
  /-- Anything else. -/
  | plain
  deriving DecidableEq, Repr

namespace Word

/-- What a word is that goes on with `body` behind two dashes. -/
def ofLong (body : List Char) : Word :=
  match Key.ofName? (String.ofList (body.takeWhile (· != '='))) with
  | none => plain
  | some key =>
    match body.dropWhile (· != '=') with
    | [] => option key none
    | _ :: value => option key (some (String.ofList value))

/-- What a word is that goes on with `letters` behind one dash. Letters in a row are options only
if all of them are; the first one decides then. -/
def ofShort (letters : List Char) : Word :=
  match letters.mapM Key.ofLetter? with
  | some (s :: _) => option (.switch s) none
  | _ => plain

/-- What a word is. -/
def ofText (text : String) : Word :=
  match text.toList with
  | ['-', '-'] => separator
  | '-' :: '-' :: body => ofLong body
  | '-' :: letters => ofShort letters
  | _ => plain

end Word

/-- Why the words on the command line cannot be accepted. -/
inductive UsageError where
  /-- A setting has no value. -/
  | missingValue (s : Setting)
  /-- The value of a setting is or lists an empty path. -/
  | emptyPath (s : Setting)
  /-- A switch has a value. -/
  | needlessValue (s : Switch)
  /-- An option that counts once is repeated. -/
  | repeated (key : Key)
  deriving DecidableEq, Repr

/-- The wording of an error. -/
def UsageError.message : UsageError → String
  | missingValue s => "--" ++ s.name ++ " needs a value"
  | emptyPath s => "--" ++ s.name ++ " needs a path that is not empty"
  | needlessValue s => "--" ++ s.name ++ " takes no value"
  | repeated key => "--" ++ key.name ++ " may be given only once"

/-- What the command line says about a host. -/
structure Options where
  /-- The host's archive. -/
  primary : Option Path := none
  /-- The loader's support code. -/
  support : Option Path := none
  /-- The directory of auxiliary archives. -/
  extensions : Option Path := none
  /-- The search path of the fallback loader. -/
  classpath : List Path := []
  /-- The configuration file. -/
  config : Option Path := none
  /-- The symbol that the host starts with. -/
  entry : Option String := none
  /-- Whether all descriptors are read before the host starts. -/
  prewarm : Bool := false
  /-- Whether the log is detailed. -/
  verbose : Bool := false
  /-- The host's own arguments. -/
  hostArgs : List String := []
  deriving DecidableEq, Repr

/-- What the command line asks for. -/
inductive Request where
  /-- Start a host. -/
  | start (options : Options)
  /-- Explain the options. -/
  | help
  /-- Name the program and its version. -/
  | version
  deriving DecidableEq, Repr

namespace Options

/-- The directory of auxiliary archives if none is given. -/
def defaultExtensions : Path := ⟨"earlyplugins"⟩

/-- The directory of auxiliary archives. -/
def extensionDirectory (o : Options) : Path := o.extensions.getD defaultExtensions

/-- The path that the value of a setting is. -/
def pathOf (s : Setting) (value : String) : Except UsageError Path :=
  if value = "" then .error (.emptyPath s) else .ok ⟨value⟩

/-- The value of a setting that counts once. -/
def once {α : Type} (s : Setting) (old : Option α) (new : Except UsageError α) :
    Except UsageError (Option α) :=
  if old.isSome then .error (.repeated (.setting s)) else new.map some

/-- Give a setting a value. Search paths add up, their paths standing between commas. -/
def give (o : Options) (s : Setting) (value : String) : Except UsageError Options :=
  match s with
  | .primary => (once s o.primary (pathOf s value)).map fun p => { o with primary := p }
  | .support => (once s o.support (pathOf s value)).map fun p => { o with support := p }
  | .extensions => (once s o.extensions (pathOf s value)).map fun p => { o with extensions := p }
  | .config => (once s o.config (pathOf s value)).map fun p => { o with config := p }
  | .entry => (once s o.entry (.ok value)).map fun name => { o with entry := name }
  | .classpath =>
    (((Text.pieces (· == ',') value.toList).map String.ofList).mapM (pathOf s)).map fun ps =>
      { o with classpath := o.classpath ++ ps }

end Options

/-- What the words behind some options ask for. -/
def readAfter : Options → List String → Except UsageError Request
  | o, [] => .ok (.start o)
  | o, word :: rest =>
    match Word.ofText word with
    | .plain => .ok (.start { o with hostArgs := word :: rest })
    | .separator => .ok (.start { o with hostArgs := rest })
    | .option (.switch s) (some _) => .error (.needlessValue s)
    | .option (.switch .help) none => .ok .help
    | .option (.switch .version) none => .ok .version
    | .option (.switch .prewarm) none =>
      if o.prewarm then .error (.repeated (.switch .prewarm))
      else readAfter { o with prewarm := true } rest
    | .option (.switch .verbose) none =>
      if o.verbose then .error (.repeated (.switch .verbose))
      else readAfter { o with verbose := true } rest
    | .option (.setting s) (some value) =>
      match o.give s value with
      | .error e => .error e
      | .ok o => readAfter o rest
    | .option (.setting s) none =>
      match rest with
      | [] => .error (.missingValue s)
      | value :: rest =>
        if Word.ofText value = .plain then
          match o.give s value with
          | .error e => .error e
          | .ok o => readAfter o rest
        else .error (.missingValue s)

/-- What the words on the command line ask for. -/
def read (words : List String) : Except UsageError Request := readAfter {} words

end Overlay.CommandLine
