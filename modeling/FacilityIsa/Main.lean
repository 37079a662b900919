import FacilityIsa.CommandLine.Reply

/-!
# The command line program

Reads the arguments and the program file, and prints the reply.
-/

namespace FacilityIsa
namespace CommandLine

def usage : String :=
  "Usage: facility-isa [--log-level LEVEL] (run [OPTIONS] PROGRAM | list | disasm PROGRAM)"

/-- The error of a system call, which may come with a negated code and a text in
lower case. -/
def systemError (description : String) (code : UInt32) : ReadError :=
  .system description.capitalize code.toInt32.toInt.natAbs

/-- Reads a file, with the error of the system if it cannot be read. -/
def readBytes (path : String) : IO (Except ReadError ByteArray) := do
  try
    return .ok (← IO.FS.readBinFile path)
  catch
    | .noFileOrDirectory _ code description => return .error (systemError description code)
    | .permissionDenied _ code description => return .error (systemError description code)
    | .inappropriateType _ code description => return .error (systemError description code)
    | other => return .error (systemError (toString other) 0)

end CommandLine
end FacilityIsa

open FacilityIsa FacilityIsa.CommandLine in
/-- Prints the reply to a command line and exits with its code. -/
def main (words : List String) : IO UInt32 := do
  match Arguments.parse? words with
  | none =>
    IO.eprintln usage
    return 2
  | some arguments =>
    let contents ← match arguments.command.program? with
      | some path => readBytes path
      | none => pure (.ok ByteArray.empty)
    let seed ← IO.rand 0 (Nat.pow 2 64 - 1)
    let reply := respond (fun _ => contents) (BitVec.ofNat 64 seed) arguments.command
    for line in reply.output do
      IO.println line
    for line in reply.errors do
      IO.eprintln line
    return UInt32.ofNat reply.code
