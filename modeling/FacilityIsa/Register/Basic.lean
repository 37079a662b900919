import FacilityIsa.Text.Blank
import FacilityIsa.Text.Numeral
import FacilityIsa.Text.Padding

/-!
# Registers

A register is one of 32, given by five bits of an instruction; a wider number
names the register of its low five bits. Each register has a conventional name
such as `$t1`. A name is read back between blanks, either in this form or as a
dollar sign and the decimal index.
-/

namespace FacilityIsa

/-- The index of a general-purpose register. -/
abbrev Register := BitVec 5

namespace Register

def zero : Register := 0

/-- Where suppression reports its success. -/
def v0 : Register := 2

def globalPointer : Register := 28

def stackPointer : Register := 29

def returnAddress : Register := 31

/-- The register that the low five bits of a number name. -/
def ofNat (index : Nat) : Register :=
  BitVec.ofNat 5 index

/-- All registers by index. -/
def all : List Register :=
  (List.range 32).map ofNat

theorem mem_all (register : Register) : register ∈ all := by
  have h := register.isLt
  simp only [all, List.mem_map, List.mem_range, ofNat]
  exact ⟨register.toNat, h, by simp⟩

def names : Vector String 32 :=
  #v["$zero", "$at", "$v0", "$v1", "$a0", "$a1", "$a2", "$a3",
     "$t0", "$t1", "$t2", "$t3", "$t4", "$t5", "$t6", "$t7",
     "$s0", "$s1", "$s2", "$s3", "$s4", "$s5", "$s6", "$s7",
     "$t8", "$t9", "$k0", "$k1", "$gp", "$sp", "$fp", "$ra"]

/-- The conventional name, `$t1` for register 9. -/
def name (register : Register) : String :=
  names[register.toNat]

/-- The name with the index, `$t1($9)`. -/
def nameAndIndex (register : Register) : String :=
  register.name ++ "($" ++ toString register.toNat ++ ")"

/-- The name in a column. -/
def padded (padding : Text.Padding) (register : Register) : String :=
  padding.apply register.name

/-- The register of an index written in decimal after a dollar sign. -/
def ofDollarIndex? : List Char → Option Register
  | '$' :: digits => (Text.numeral? 10 32 digits).map ofNat
  | _ => none

/-- Reads a register name between blanks. -/
def ofName? (text : String) : Option Register :=
  let text := Text.trim text.toList
  (all.find? fun register => register.name.toList = text).or (ofDollarIndex? text)

end Register
end FacilityIsa
