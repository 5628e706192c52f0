import Overlay.CommandLine
import Overlay.FileTree.Unpack

/-!
# The program

The outermost layer: it reads the environment and the files, hands them to `CommandLine.run` and
writes what that leaves. The files are those of a tar archive, gzipped or not, on the standard
input; they stand below the root, which is also the working directory.
-/

namespace Overlay.Program

/-- All bytes that a stream still has, behind those read so far. -/
partial def drain (input : IO.FS.Stream) (bytes : ByteArray) : IO ByteArray := do
  let more ← input.read 65536
  if more.isEmpty then return bytes else drain input (bytes ++ more)

/-- The environment that the program was started with. -/
def environment : IO Environment := do
  return Environment.ofBlock (← IO.FS.readBinFile "/proc/self/environ")

/-- The files that the words on the command line need: only a host's start needs any. -/
def files (words : List String) : IO (Except IoError FileTree) := do
  match CommandLine.read words with
  | .ok (.start _) => return FileTree.unpack (← drain (← IO.getStdin) ByteArray.empty)
  | _ => return .ok FileTree.empty

/-- Write what a run leaves and give its exit code. -/
def finish (o : CommandLine.Outcome) : IO UInt32 := do
  o.output.forM IO.println
  o.complaint.forM IO.eprintln
  return o.code.toUInt32

end Overlay.Program

/-- Run the program on the files of the archive on the standard input. -/
def main (args : List String) : IO UInt32 := do
  match ← Overlay.Program.files args with
  | .error e =>
    IO.eprintln ("Error: standard input: " ++ e.message)
    return 1
  | .ok t =>
    Overlay.Program.finish
      (Overlay.CommandLine.run ⟨t, ← Overlay.Program.environment, none⟩ args)
