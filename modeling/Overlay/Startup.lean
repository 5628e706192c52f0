import Overlay.Loader.SearchPath
import Overlay.Pipeline.Load

/-!
# Startup

From the files of a host to a pipeline: finding the primary archive and the extensions, registering
all origins of a plan, and reading from the origins' descriptors what the host starts with.
-/

namespace Overlay

/-- Why a host cannot be started. -/
inductive StartError where
  /-- The configuration cannot be used, a transformer is installed, or the entry symbol cannot be
  loaded. -/
  | loader (cause : LoadError)
  /-- Nothing names a primary archive. -/
  | noPrimary
  /-- The primary archive is not a file. -/
  | primaryMissing (path : Path)
  /-- The search path of the fallback loader cannot be built. -/
  | searchPath (cause : LoadError)
  /-- The primary archive cannot be registered. -/
  | primaryRefused (path : Path) (cause : LoadError)
  /-- The support code cannot be registered. -/
  | supportRefused (path : Path) (cause : LoadError)
  /-- The primary archive's path leads nowhere. -/
  | unresolved (path : Path) (cause : IoError)
  /-- The primary archive does not say which symbol the host starts with. -/
  | noEntry (path : Path)
  deriving DecidableEq, Repr

/-- What a host is made of. -/
structure StartPlan where
  /-- The host's archive. -/
  primary : Path
  /-- The loader's support code. -/
  support : Option Path
  /-- The auxiliary archives. -/
  extensions : List Path
  /-- The search path of the fallback loader. -/
  classpath : List Path
  deriving DecidableEq, Repr

/-- A pipeline over a search path, without a bootstrap loader. -/
abbrev HostPipeline := Pipeline SearchPath Unit

/-- What a host's pipeline is built from. -/
def hostBlueprint (c : Config) : Blueprint SearchPath Unit :=
  ⟨c, SearchPath.loader, BootstrapLoader.none⟩

namespace Startup

/-- The variable that names the primary archive. -/
def primaryVariable : String := "STRATA_PRIMARY"

/-- The descriptor key that names the symbol the host starts with. -/
def entryKey : String := "Entry-Symbol"

/-- The descriptor key that lists transform configurations. -/
def transformConfigsKey : String := "Transform-Configs"

end Startup

namespace StartError

/-- The wording of an error, without its causes. -/
def message : StartError → String
  | loader cause => cause.message
  | noPrimary => "No primary archive given; pass --primary or set " ++ Startup.primaryVariable
  | primaryMissing path => "Primary archive " ++ path.text ++ " does not exist"
  | searchPath _ => "Building the fallback search path"
  | primaryRefused path _ => "Registering primary archive " ++ path.text
  | supportRefused path _ => "Registering support code " ++ path.text
  | unresolved path _ => "Resolving " ++ path.text
  | noEntry path => path.text ++ " declares no " ++ Startup.entryKey ++ "; pass --entry"

/-- The messages of what caused an error, nearest first. -/
def causes : StartError → List String
  | loader cause => cause.causes
  | searchPath cause => cause.message :: cause.causes
  | primaryRefused _ cause => cause.message :: cause.causes
  | supportRefused _ cause => cause.message :: cause.causes
  | unresolved _ cause => [cause.message]
  | _ => []

end StartError

namespace Startup

/-- What the names of archives end with. -/
def archiveSuffixes : List String := [".tar", ".tgz", ".tar.gz"]

/-- Whether a path has the name of an archive, in upper or lower case. -/
def isArchive (p : Path) : Bool :=
  let name := Config.foldCase (p.fileName?.getD "")
  archiveSuffixes.any fun suffix => suffix.toList.isSuffixOf name

/-- The path that names the primary archive: the given one, else the variable's, else the first
host argument with the name of an archive. -/
def primaryCandidate (explicit : Option Path) (env : Environment) (args : List String) :
    Option Path :=
  explicit.orElse fun _ =>
    ((env.get? primaryVariable).map Environment.pathOf).orElse fun _ =>
      (args.map Path.mk).find? isArchive

/-- Find the primary archive, which must be a file. -/
def locatePrimary (t : FileTree) (explicit : Option Path) (env : Environment)
    (args : List String) : Except StartError Path :=
  match primaryCandidate explicit env args with
  | none => .error .noPrimary
  | some p => if t.isFile p then .ok p else .error (.primaryMissing p)

/-- The host arguments without those that name the primary archive. -/
def stripArgs (args : List String) (primary : Path) : List String :=
  args.filter fun arg => !(Path.mk arg).same primary

/-- The archives in a directory, in the order of paths; none if there is no such directory. -/
def collectExtensions (t : FileTree) (directory : Path) : List Path :=
  if t.isDirectory directory then
    (((t.namesIn directory).map directory.join).filter fun p => t.isFile p && isArchive p).mergeSort
      Path.le
  else []

/-- Register the extensions; one whose path leads nowhere is left out with a notice. -/
def registerExtensions (t : FileTree) : List Path → HostPipeline → HostPipeline
  | [], s => s
  | p :: ps, s =>
    match s.registerOrigin t p (some .early) with
    | (.ok _, s) => registerExtensions t ps s
    | (.error e, s) => registerExtensions t ps (s.note (.extensionSkipped p e))

/-- Register the support code, if there is any. -/
def registerSupport (t : FileTree) (support : Option Path) (s : HostPipeline) :
    Except StartError HostPipeline :=
  match support with
  | none => .ok s
  | some p =>
    match s.registerOrigin t p (some .support) with
    | (.ok _, s) => .ok s
    | (.error e, _) => .error (.supportRefused p e)

/-- Build the pipeline of a plan: the primary archive, the support code and the extensions are
registered in this order. -/
def assemble (t : FileTree) (plan : StartPlan) (c : Config) : Except StartError HostPipeline :=
  match SearchPath.ofPaths t plan.classpath c.resourceSuffix with
  | .error e => .error (.searchPath e)
  | .ok fallback =>
    match (Pipeline.ofBlueprint (hostBlueprint c) fallback ()).registerOrigin t plan.primary
        (some .primary) with
    | (.error e, _) => .error (.primaryRefused plan.primary e)
    | (.ok _, s) => (registerSupport t plan.support s).map (registerExtensions t plan.extensions)

section

variable {φ β : Type}

/-- Read the descriptors of some origins and count those that are not empty. -/
def prewarmOrigins (t : FileTree) : List Origin → Pipeline φ β → Nat × Pipeline φ β
  | [], s => (0, s)
  | o :: os, s =>
    let (d, s) := s.descriptorFor t o.location
    let (n, s) := prewarmOrigins t os s
    (if d.isEmpty then n else n + 1, s)

/-- Read the descriptors of all origins and count those that are not empty. -/
def prewarm (t : FileTree) (s : Pipeline φ β) : Nat × Pipeline φ β :=
  prewarmOrigins t s.registry.order s

/-- The names in a list of transform configurations: what stands between commas and spaces. -/
def configNames (value : String) : List String :=
  ((Text.pieces (fun c => c == ',' || c == ' ') value.toList).filter (· != [])).map String.ofList

/-- A transform configuration with the location of the origin that declares it. -/
abbrev Declared := String × Path

/-- Add the configurations that an origin declares to those declared so far; one that is declared
already is left out with a notice. -/
def declare (o : Origin) : List String → List Declared → Pipeline φ β →
    List Declared × Pipeline φ β
  | [], ds, s => (ds, s)
  | name :: names, ds, s =>
    if ds.any (·.1 == name) then declare o names ds (s.note (.configRepeated name o.location))
    else declare o names (ds ++ [(name, o.location)]) s

/-- The transform configurations of some origins, behind those declared so far. -/
def transformConfigsIn (t : FileTree) : List Origin → List Declared → Pipeline φ β →
    List Declared × Pipeline φ β
  | [], ds, s => (ds, s)
  | o :: os, ds, s =>
    let (d, s) := s.descriptorFor t o.location
    match d.get? transformConfigsKey with
    | none => transformConfigsIn t os ds s
    | some value =>
      let (ds, s) := declare o (configNames value) ds s
      transformConfigsIn t os ds s

/-- The transform configurations that the origins declare, each with the first origin that does. -/
def transformConfigs (t : FileTree) (s : Pipeline φ β) : List Declared × Pipeline φ β :=
  transformConfigsIn t s.registry.order [] s

/-- Install the transformer that changes nothing. -/
def installPassthrough (s : Pipeline φ β) : Except StartError Unit × Pipeline φ β :=
  match s.install Transformer.identity with
  | (.ok (), s) => (.ok (), s)
  | (.error e, s) => (.error (.loader e), s)

/-- The symbol that the host starts with: the given one, else the one that the primary archive's
descriptor names. -/
def entrySymbol (t : FileTree) (explicit : Option String) (primary : Path) (s : Pipeline φ β) :
    Except StartError String × Pipeline φ β :=
  match explicit with
  | some name => (.ok name, s)
  | none =>
    match t.realPath primary with
    | .error e => (.error (.unresolved primary e), s)
    | .ok location =>
      let (d, s) := s.descriptorFor t location
      match d.get? entryKey with
      | some name => (.ok name, s)
      | none => (.error (.noEntry primary), s)

end

end Startup

end Overlay
