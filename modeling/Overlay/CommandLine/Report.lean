import Overlay.CommandLine.Arguments
import Overlay.Startup
import Overlay.Text.Style

/-!
# Reports

The lines that a run writes: which primary archive it uses, a summary of the loaded symbol, the
account of an error with its causes, the help and the version.
-/

namespace Overlay.CommandLine.Report

open Text (Style)

/-- A heading in front of a text. -/
def headed (heading text : String) : String :=
  Style.bold.apply (Style.white.apply heading) ++ " " ++ text

/-- The width of the labels of a summary. -/
def labelWidth : Nat := 14

/-- A label in front of a text. Labels are filled up to a common width. -/
def labelled (label text : String) : String :=
  "  " ++ Style.dim.apply (label.pushn ' ' (labelWidth - label.length)) ++ " " ++ text

/-- The line that names the primary archive. -/
def usingPrimary (primary : Path) : String := headed "Using primary archive:" primary.text

/-- The lines about a loaded symbol, the namespaces that have definitions, the number of registered
origins and the host's arguments. What is absent has no line, except for the namespaces. -/
def summary (symbol : Symbol) (namespaces : List String) (origins : Nat)
    (hostArgs : List String) : List String :=
  ["", headed "Entry:" (Style.brightCyan.apply symbol.name),
    labelled "defined by" symbol.definedBy.text,
    labelled "size" (toString symbol.bytes.size ++ " bytes")] ++
  symbol.codeSource.toList.map (fun source => labelled "code source" source.text) ++
  (if symbol.descriptor.signers = [] then []
    else [labelled "signed by" (Style.green.apply (", ".intercalate symbol.descriptor.signers))]) ++
  [labelled "namespaces" (", ".intercalate namespaces),
    labelled "origins" (Style.yellow.apply (toString origins))] ++
  (if hostArgs = [] then [] else [labelled "host args" (" ".intercalate hostArgs)])

/-- A text whose lines but the first are set in. -/
def indented (depth : Nat) (text : String) : String :=
  ("\n".pushn ' ' depth).intercalate
    ((Text.pieces (· == '\n') text.toList).map String.ofList)

/-- The causes of an error in a list, numbered from `n`. -/
def numbered (n : Nat) : List String → List String
  | [] => []
  | cause :: causes =>
    ("".pushn ' ' (5 - (toString n).length) ++ toString n ++ ": " ++ indented 7 cause) ::
      numbered (n + 1) causes

/-- The lines about the causes of an error. A single cause has no number. -/
def causeLines : List String → List String
  | [] => []
  | [cause] => ["", "Caused by:", "    " ++ indented 4 cause]
  | causes => "" :: "Caused by:" :: numbered 0 causes

/-- The account of an error. -/
def failure (e : StartError) : List String := ("Error: " ++ e.message) :: causeLines e.causes

/-- The name of the program and its version. -/
def version : String := "strata 0.1.0"

/-- The account of words that cannot be accepted. -/
def refusal (e : UsageError) : List String := ["error: " ++ e.message, "", "See --help."]

/-- The explanation of the options. -/
def help : List String :=
  ["Layered symbol loader for host processes", "",
    "Usage: strata [OPTIONS] [ARGS]...", "",
    "Arguments:",
    "  [ARGS]...  Arguments passed to the host", "",
    "Options:",
    "      --primary <PRIMARY>        Primary archive of the host",
    "      --support <SUPPORT>        Loader support code (directory or archive)",
    "      --extensions <EXTENSIONS>  Directory of auxiliary archives [default: " ++
      Options.defaultExtensions.text ++ "]",
    "      --classpath <CLASSPATH>    Search path of the fallback loader",
    "      --config <CONFIG>          Loader configuration file",
    "      --entry <ENTRY>            Entry symbol; defaults to the primary archive's " ++
      Startup.entryKey,
    "      --prewarm                  Read every origin's descriptor up front",
    "      --verbose                  Enable verbose logging",
    "  -h, --help                     Print help",
    "  -V, --version                  Print version"]

end Overlay.CommandLine.Report
