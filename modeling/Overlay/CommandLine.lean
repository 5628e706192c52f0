import Overlay.CommandLine.Report

/-!
# The command line

A run of the program: from the words on the command line and the program's surroundings to the
lines it writes and its exit code.
-/

namespace Overlay.CommandLine

/-- What a run of the program can see besides its arguments. -/
structure Surroundings where
  /-- The files. -/
  files : FileTree
  /-- The environment variables. -/
  environment : Environment
  /-- The directory that holds the program. -/
  programDirectory : Option Path

/-- What a run of the program leaves. -/
structure Outcome where
  /-- The exit code: 0 for success, 1 for an error, 2 for words that cannot be accepted, 101 for a
  run that is cut short. -/
  code : Nat
  /-- The lines on the standard output. -/
  output : List String
  /-- The lines on the standard error output. -/
  complaint : List String
  deriving DecidableEq, Repr

/-- The variable that names the user's directory for configuration files. -/
def configVariable : String := "XDG_CONFIG_HOME"

/-- The variable that names the user's directory. -/
def homeVariable : String := "HOME"

/-- The user's directory for configuration files: the variable's, which must be absolute, else one
in the user's directory. -/
def configDirectory (env : Environment) : Option Path :=
  match ((env.get? configVariable).map Environment.pathOf).filter Path.isAbsolute with
  | some directory => some directory
  | none =>
    (((env.get? homeVariable).map Environment.pathOf).filter (·.text != "")).map
      (·.join ".config")

/-- The configuration file: the given one, else the user's, if there is one. -/
def configFile (w : Surroundings) (given : Option Path) : Option Path :=
  given.orElse fun _ =>
    ((configDirectory w.environment).map fun d => (d.join "strata").join "loader.toml").filter
      w.files.isFile

/-- The configuration of a run; none if the environment cuts the run short. -/
def configuration (w : Surroundings) (o : Options) : Except StartError (Option Config) :=
  let file := configFile w o.config
  match Config.load w.files file w.environment with
  | .ok c => .ok c
  | .error fault => .error (.loader (.config (file.getD ⟨""⟩) fault))

/-- What a host of some options is made of. -/
def planOf (w : Surroundings) (o : Options) (primary : Path) : StartPlan where
  primary := primary
  support := o.support.orElse fun _ => w.programDirectory
  extensions := Startup.collectExtensions w.files o.extensionDirectory
  classpath := o.classpath

/-- Load the symbol that the host starts with. -/
def loadEntry (t : FileTree) (c : Config) (entry : Option String) (primary : Path)
    (s : HostPipeline) : Except StartError (Symbol × HostPipeline) :=
  match Startup.installPassthrough s with
  | (.error e, _) => .error e
  | (.ok (), s) =>
    match Startup.entrySymbol t entry primary s with
    | (.error e, _) => .error e
    | (.ok name, s) =>
      match s.load (hostBlueprint c) t name with
      | (.error e, _) => .error (.loader e)
      | (.ok symbol, s) => .ok (symbol, s)

/-- Start a host: register its origins, read their descriptors, then load its entry symbol. -/
def startHost (w : Surroundings) (o : Options) (c : Config) (primary : Path) :
    Except StartError (Symbol × HostPipeline) :=
  match Startup.assemble w.files (planOf w o primary) c with
  | .error e => .error e
  | .ok s =>
    let s := if o.prewarm then (Startup.prewarm w.files s).2 else s
    loadEntry w.files c o.entry primary (Startup.transformConfigs w.files s).2

/-- A run that fails after some lines. -/
def Outcome.failed (output : List String) (e : StartError) : Outcome := ⟨1, output, Report.failure e⟩

/-- A run that is cut short. What is written about that is left out. -/
def Outcome.aborted : Outcome := ⟨101, [], []⟩

/-- Start a host and report on it. -/
def start (w : Surroundings) (o : Options) : Outcome :=
  match configuration w o with
  | .error e => .failed [] e
  | .ok none => .aborted
  | .ok (some c) =>
    match Startup.locatePrimary w.files o.primary w.environment o.hostArgs with
    | .error e => .failed [] e
    | .ok primary =>
      match startHost w o c primary with
      | .error e => .failed [Report.usingPrimary primary] e
      | .ok (symbol, s) =>
        ⟨0, Report.usingPrimary primary ::
          Report.summary symbol s.definedNamespaces s.registry.size
            (Startup.stripArgs o.hostArgs primary), []⟩

/-- A run of the program with the words on the command line. -/
def run (w : Surroundings) (words : List String) : Outcome :=
  match read words with
  | .error e => ⟨2, [], Report.refusal e⟩
  | .ok .help => ⟨0, Report.help, []⟩
  | .ok .version => ⟨0, [Report.version], []⟩
  | .ok (.start o) => start w o

end Overlay.CommandLine
