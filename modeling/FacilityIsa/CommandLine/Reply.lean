import FacilityIsa.CommandLine.Arguments
import FacilityIsa.Draws.Seeded
import FacilityIsa.Engine.Run

/-!
# Replies

What a command prints and the code it exits with, as a function of its
arguments and of the files it can read. Cores do not share anything, so their
lines are given core by core.
-/

namespace FacilityIsa
namespace CommandLine

/-- Why the text of a file could not be had. -/
inductive ReadError where
  | system (description : String) (code : Nat)
  | notUtf8
  deriving DecidableEq

def ReadError.missing : ReadError :=
  .system "No such file or directory" 2

def ReadError.message : ReadError → String
  | .system description code => description ++ " (os error " ++ toString code ++ ")"
  | .notUtf8 => "stream did not contain valid UTF-8"

/-- The contents of files by path. -/
abbrev Files := String → Except ReadError ByteArray

def readText (files : Files) (path : String) : Except ReadError String := do
  match String.fromUTF8? (← files path) with
  | some text => .ok text
  | none => .error .notUtf8

/-- Why a command failed, and what caused that. -/
structure Failure where
  what : String
  cause : Option String := none

def Failure.report (failure : Failure) : List String :=
  let cause := match failure.cause with
    | some cause => ["", "Caused by:", "    " ++ cause]
    | none => []
  ("Error: " ++ failure.what).splitOn "\n" ++ cause

/-- The printed lines, the lines about a failure, and the exit code. -/
structure Reply where
  output : List String
  errors : List String
  code : Nat
  deriving DecidableEq

namespace Reply

def success (output : List String) : Reply :=
  ⟨output, [], 0⟩

def failure (output : List String) (failure : Failure) : Reply :=
  ⟨output, failure.report, 1⟩

end Reply

/-- The words of the program in a file. -/
def readProgram (files : Files) (path : String) : Except Failure (List Word) :=
  match readText files path with
  | .error error => .error ⟨"failed to read program " ++ path, some error.message⟩
  | .ok text =>
    match ProgramText.parse text with
    | .error error => .error ⟨"failed to parse program " ++ path, some error.message⟩
    | .ok words => .ok words

/-! ## Listing and disassembling -/

def catalogLine (instruction : Instruction) : String :=
  let spec := instruction.spec
  Text.leftColumn 22 spec.sample ++ " " ++ Text.leftColumn 8 spec.format.label ++ " " ++
    Text.leftColumn 40 spec.pattern ++ " " ++ spec.description

def collisionNote (collision : Collision) : String :=
  "note: `" ++ collision.second.mnemonic ++ "` shares its encoding with `" ++
    collision.first.mnemonic ++ "` and is never dispatched"

/-- The instructions of a catalog and the notes about their collisions. -/
def catalogLines (catalog : Catalog) : List String :=
  catalog.entries.map catalogLine ++ catalog.collisions.map collisionNote

def disassemblyLine (address : Address) (word : Word) : String :=
  let text := match Catalog.full.decode word with
    | .ok decoded => decoded.text
    | .error error => "<" ++ error.message ++ ">"
  address.toHex ++ "  " ++ word.toHex ++ "  " ++ text

/-- The words of a program as assembly text, placed from an address on. -/
def disassembly (address : Address) : List Word → List String
  | [] => []
  | word :: words => disassemblyLine address word :: disassembly (Word.next address) words

/-! ## Running -/

/-- What one core printed, and why it stopped. -/
structure CoreReport where
  lines : List String
  stop : StopReason

def registerLines (core : Nat) (registers : RegisterFile) : List String :=
  let line (name value : String) :=
    "core " ++ toString core ++ ": " ++ Text.rightColumn 5 name ++ " = " ++ value
  registers.nonZero.map (fun (register, value) =>
    line register.name (value.toDecimal ++ " (" ++ value.toHex ++ ")")) ++
    [line "pc" registers.pc.toHex]

/-- Runs a program on one core. Lines that instructions emit are marked with the
core if there are several. -/
def runCore (options : RunOptions) (seed : BitVec 64) (words : List Word) (core : Nat) :
    Except Failure CoreReport :=
  let label := "core " ++ toString core
  let engine := Engine.new options.machineConfig (Seeded.ofSeed (seed + BitVec.ofNat 64 core))
    ({} : Transcript)
  match engine.load words with
  | ⟨.error error, _⟩ =>
    .error ⟨label ++ ": program does not fit the text segment", some error.message⟩
  | ⟨.ok _, engine⟩ =>
    let (summary, engine) := engine.run options.maxSteps
    let mark := if 1 < options.cores then "[" ++ label ++ "] " else ""
    let emitted := engine.context.output.lines.toList.map (mark ++ ·)
    let registers :=
      if options.showRegisters then registerLines core engine.machine.registers else []
    let outcome := label ++ ": " ++ toString summary.steps ++ " steps, " ++ summary.stop.message
    .ok ⟨emitted ++ registers ++ [outcome], summary.stop⟩

def runReply (options : RunOptions) (seed : BitVec 64) (words : List Word) : Reply :=
  match (List.range options.cores).mapM (runCore options seed words) with
  | .error failure => .failure [] failure
  | .ok reports =>
    let output := reports.flatMap (·.lines)
    let faulted := reports.countP (·.stop.isFault)
    if faulted = 0 then .success output
    else .failure output ⟨toString faulted ++ " of " ++ toString options.cores ++
      " core(s) faulted", none⟩

/-- Answers a command. The seed is used where the arguments give none. -/
def respond (files : Files) (seed : BitVec 64) : Command → Reply
  | .list => .success (catalogLines Catalog.full)
  | .disassemble program =>
    match readProgram files program with
    | .error failure => .failure [] failure
    | .ok words => .success (disassembly (default : MachineConfig).textBase words)
  | .run options =>
    match readProgram files options.program with
    | .error failure => .failure [] failure
    | .ok words => runReply options (options.seed.getD seed) words

end CommandLine
end FacilityIsa
