import FacilityIsa.CommandLine.Grammar
import FacilityIsa.Machine.Config
import FacilityIsa.ProgramText

/-!
# Arguments

What a command line asks for. There are three commands: `run` executes a
program on a number of cores, `list` shows the catalog and `disasm` shows a
program as assembly text. The level of diagnostics may be given before the
command, after it, or both, and then the latter counts.
-/

namespace FacilityIsa
namespace CommandLine

inductive LogLevel where
  | off
  | error
  | warn
  | info
  | debug
  | trace
  deriving DecidableEq, Repr

namespace LogLevel

/-- The levels by number. -/
def all : List LogLevel :=
  [off, error, warn, info, debug, trace]

def name : LogLevel → String
  | off => "off"
  | error => "error"
  | warn => "warn"
  | info => "info"
  | debug => "debug"
  | trace => "trace"

/-- Reads a level by number, or by name in letters of either case. The empty
text stands for errors only. -/
def ofText? (text : String) : Option LogLevel :=
  match Text.numeral? 10 all.length text.toList with
  | some number => all[number]?
  | none =>
    if text = "" then some error
    else all.find? fun level => level.name.toList = text.toList.map Char.toLower

end LogLevel

structure RunOptions where
  program : String
  /-- Core number `n` draws from this seed plus `n`. -/
  seed : Option (BitVec 64)
  maxSteps : Nat
  cores : Nat
  globalPointer : Word
  showRegisters : Bool
  deriving DecidableEq

/-- The machine that each core starts from. -/
def RunOptions.machineConfig (options : RunOptions) : MachineConfig :=
  { (default : MachineConfig) with globalPointer := options.globalPointer }

inductive Command where
  | run (options : RunOptions)
  | list
  | disassemble (program : String)
  deriving DecidableEq

/-- The file that holds the program of a command. -/
def Command.program? : Command → Option String
  | .run options => some options.program
  | .list => none
  | .disassemble program => some program

structure Arguments where
  logLevel : LogLevel
  command : Command
  deriving DecidableEq

namespace Arguments

def topGrammar : Grammar where
  options := ["log-level"]
  hasCommands := true

def runGrammar : Grammar where
  options := ["log-level", "seed", "max-steps", "cores", "gp"]
  switches := [('r', "registers")]

/-- For the commands whose only option is the level of diagnostics. -/
def plainGrammar : Grammar where
  options := ["log-level"]

/-- Reads a decimal numeral below a limit. -/
def decimal? (limit : Nat) (text : String) : Option Nat :=
  Text.numeral? 10 limit text.toList

/-- Reads a word in decimal, or in hexadecimal after `0x`. -/
def word? (text : String) : Option Word :=
  let digits := ProgramText.withoutRadixMark text.toList
  let base := if digits = text.toList then 10 else 16
  (Text.numeral? base (Nat.pow 2 32) digits).map (BitVec.ofNat 32)

/-- Reads a number of cores, from 1 to 64. -/
def cores? (text : String) : Option Nat :=
  (decimal? 65 text).filter (0 < ·)

def runOptions? (items : List Item) : Option RunOptions := do
  let program ← onlyOperand? items
  let seed ← option? items "seed" (decimal? (Nat.pow 2 64))
  let maxSteps ← option? items "max-steps" (decimal? (Nat.pow 2 64))
  let cores ← option? items "cores" cores?
  let globalPointer ← option? items "gp" word?
  let showRegisters ← switch? items "registers"
  some
    { program, showRegisters
      seed := seed.map (BitVec.ofNat 64)
      maxSteps := maxSteps.getD 1000000
      cores := cores.getD 1
      globalPointer := globalPointer.getD 0x10008000 }

/-- Reads the words after the name of a command, with the items they hold. -/
def command? (name : String) (words : List String) : Option (Command × List Item) :=
  match name with
  | "run" => do
    let (items, _) ← runGrammar.read? words
    some (.run (← runOptions? items), items)
  | "list" => do
    let (items, _) ← plainGrammar.read? words
    if operandsOf items = [] then some (.list, items) else none
  | "disasm" => do
    let (items, _) ← plainGrammar.read? words
    some (.disassemble (← onlyOperand? items), items)
  | _ => none

/-- Reads a command line without the name of the program. -/
def parse? (words : List String) : Option Arguments := do
  let (leading, left) ← topGrammar.read? words
  let name :: words := left | none
  let (command, items) ← command? name words
  let outer ← option? leading "log-level" LogLevel.ofText?
  let inner ← option? items "log-level" LogLevel.ofText?
  some ⟨(inner.or outer).getD .warn, command⟩

end Arguments
end CommandLine
end FacilityIsa
