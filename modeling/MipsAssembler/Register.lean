import MipsAssembler.ByteString.Blank
import MipsAssembler.ByteString.LowerCase
import MipsAssembler.ByteString.Quoted

/-!
# Registers

The general purpose registers, their names and their two spellings in source text: by name (`$t0`)
or by number (`$8`). A register code is a byte; the codes from 32 on name no register of the machine
and are written `$?n`.
-/

namespace MipsAssembler

open ByteString

/-- A general purpose register, by its code. -/
structure Register where
  code : UInt8
  deriving DecidableEq, Repr

namespace Register

/-- The register that always holds zero. -/
def zero : Register := ⟨0⟩

/-- The register that holds the return address of a call. -/
def returnAddress : Register := ⟨31⟩

/-- The names of the registers of the machine, in the order of their codes. -/
def names : List ByteString :=
  ["$zero", "$at", "$v0", "$v1", "$a0", "$a1", "$a2", "$a3",
   "$t0", "$t1", "$t2", "$t3", "$t4", "$t5", "$t6", "$t7",
   "$s0", "$s1", "$s2", "$s3", "$s4", "$s5", "$s6", "$s7",
   "$t8", "$t9", "$k0", "$k1", "$gp", "$sp", "$fp", "$ra"]

/-- The name of a register. -/
def name (r : Register) : ByteString := names.getD r.code.toNat ("$?" ++ natural r.code.toNat)

/-- What can be wrong with the text of a register. -/
inductive Error where
  | unmarked (text : ByteString)
  | unknown (text : ByteString)
  | outOfRange (text : ByteString)
  deriving DecidableEq, Repr

/-- The wording of an error. -/
def Error.message : Error → ByteString
  | unmarked text => "registers are marked with a preceding '$', got " ++ quote text
  | unknown text => quote text ++ " is not a valid register"
  | outOfRange text =>
    "invalid register " ++ quote text ++ ", registers are between $0 and $31"

/-- The register with a given name, in lower case. `$s8` is a second name of `$fp`. -/
def ofName? (text : ByteString) : Option Register :=
  if text = ofString "$s8" then some ⟨30⟩
  else (names.idxOf? text).map fun i => ⟨UInt8.ofNat i⟩

/-- The register with a given number. -/
def ofNumber? (n : Int) : Option Register :=
  if 0 ≤ n ∧ n ≤ 31 then some ⟨UInt8.ofNat n.toNat⟩ else none

/-- Reads a register in either spelling; blanks around it and the case of letters do not matter. -/
def parse (s : ByteString) : Except Error Register :=
  let text := lower (trim s)
  match text with
  | mark :: rest =>
    if mark = ascii '$' ∧ rest ≠ [] then
      match ofName? text with
      | some r => .ok r
      | none =>
        match readDecimal? rest with
        | none => .error (.unknown text)
        | some n =>
          match ofNumber? n with
          | some r => .ok r
          | none => .error (.outOfRange text)
    else .error (.unmarked text)
  | [] => .error (.unmarked text)

end Register

end MipsAssembler
