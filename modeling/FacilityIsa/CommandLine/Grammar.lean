/-!
# Reading command lines

Words of a command line are options, switches and operands. An option is
written `--name value` or `--name=value`, a switch `--name` or by its letter,
and the letters of several switches may follow one dash. A value that is a word
of its own may not start with a dash, unless it is a dash alone. After `--`
every word is an operand. What a grammar does not list is refused.
-/

namespace FacilityIsa
namespace CommandLine

/-- The shape of one word. -/
inductive Token where
  | separator
  | long (name : String) (value : Option String)
  | letters (letters : List Char)
  | plain (text : String)
  deriving DecidableEq

def Token.ofText (text : String) : Token :=
  match text.toList with
  | ['-', '-'] => .separator
  | '-' :: '-' :: rest =>
    let name := String.ofList (rest.takeWhile (· ≠ '='))
    match rest.dropWhile (· ≠ '=') with
    | [] => .long name none
    | _ :: value => .long name (some (String.ofList value))
  | '-' :: letter :: rest => .letters (letter :: rest)
  | _ => .plain text

/-- What a word, or an option with its value, says. -/
inductive Item where
  | option (name value : String)
  | switch (name : String)
  | operand (text : String)
  deriving DecidableEq

/-- What a command understands. -/
structure Grammar where
  /-- Names of the options, all of which take a value. -/
  options : List String
  /-- Letters and names of the switches. -/
  switches : List (Char × String) := []
  /-- The first operand names a command with a grammar of its own. -/
  hasCommands : Bool := false

namespace Grammar

variable (grammar : Grammar)

def switchOfLetter? (letter : Char) : Option Item :=
  (grammar.switches.find? (·.1 = letter)).map fun switch => .switch switch.2

def switchOfName? (name : String) : Option Item :=
  (grammar.switches.find? (·.2 = name)).map fun switch => .switch switch.2

/-- Reads words up to the operand that names a command, if there are commands,
and to the end otherwise. Answers with the items read and the words left. -/
def read? : List String → Option (List Item × List String)
  | [] => some ([], [])
  | text :: rest =>
    match Token.ofText text with
    | .separator =>
      if grammar.hasCommands then none else some (rest.map .operand, [])
    | .plain _ =>
      if grammar.hasCommands then some ([], text :: rest)
      else do
        let (items, left) ← read? rest
        some (.operand text :: items, left)
    | .letters letters => do
      let switches ← letters.mapM grammar.switchOfLetter?
      let (items, left) ← read? rest
      some (switches ++ items, left)
    | .long name (some value) =>
      if name ∈ grammar.options then do
        let (items, left) ← read? rest
        some (.option name value :: items, left)
      else none
    | .long name none =>
      if name ∈ grammar.options then
        match rest with
        | [] => none
        | value :: rest =>
          match Token.ofText value with
          | .plain _ => do
            let (items, left) ← read? rest
            some (.option name value :: items, left)
          | _ => none
      else do
        let switch ← grammar.switchOfName? name
        let (items, left) ← read? rest
        some (switch :: items, left)

end Grammar

/-- The values given for an option, in order. -/
def valuesOf (name : String) (items : List Item) : List String :=
  items.filterMap fun
    | .option other value => if other = name then some value else none
    | _ => none

/-- Reads the value of an option that may be given once. -/
def option? {α : Type} (items : List Item) (name : String) (read? : String → Option α) :
    Option (Option α) :=
  match valuesOf name items with
  | [] => some none
  | [value] => (read? value).map some
  | _ => none

/-- Whether a switch that may be given once is given. -/
def switch? (items : List Item) (name : String) : Option Bool :=
  match items.count (.switch name) with
  | 0 => some false
  | 1 => some true
  | _ => none

def operandsOf (items : List Item) : List String :=
  items.filterMap fun
    | .operand text => some text
    | _ => none

/-- The only operand, which may not be empty. -/
def onlyOperand? (items : List Item) : Option String :=
  match operandsOf items with
  | [text] => if text = "" then none else some text
  | _ => none

end CommandLine
end FacilityIsa
