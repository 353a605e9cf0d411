import MipsAssembler.Proofs.Disassembly
import MipsAssembler.Proofs.Linking

/-!
# The text of a jump

A jump holds a field of 26 bits. It is written as the contents of the field and read as a distance
in words, of which the highest bit of the field is the sign. The two agree on the lower half of the
field only: the text of a jump backward is refused, because the number in it is too large for a
distance (`Program.parse_render_jump`). What such a jump would have to be written as is the distance
itself, as branches are (`parse_distance`).
-/

namespace MipsAssembler

open ByteString Outcome

namespace Instruction

/-- A jump with a text for its target. -/
def jumpText (op : JumpOp) (text : ByteString) : ByteString :=
  written op.name [text]

section JumpText

variable {op : JumpOp} {text : ByteString}

/-- A numeral in the only slot of a jump is read as a distance, of which the field is kept. -/
theorem parse_jumpText (hop : op.operation?.isSome) (htext : IsNumeral text) :
    parse (jumpText op text) =
      (readLiteral (-0x2000000) 0x1FFFFFF text).map fun v =>
        jump op (UInt32.ofInt v % 0x4000000) := by
  have htarget : readTarget text = (readLiteral (-0x2000000) 0x1FFFFFF text).map fun v =>
      Operand.number (UInt32.ofInt v % 0x4000000) := by
    rw [readTarget, readOperand, htext.isSymbol_eq_false]
    cases readLiteral (-0x2000000) 0x1FFFFFF text <;> rfl
  have hslots : readSlots op.name [.target] [text] =
      (readTarget text).map fun v => { operand := v } := by
    simp [readSlots, readSlot]
  rw [jumpText, parse_written_jump hop (by simpa using htext.isWord), parseJump]
  change Except.map _ (readSlots op.name [.target] [text]) = _
  rw [hslots, htarget]
  cases readLiteral (-0x2000000) 0x1FFFFFF text <;> rfl

theorem parse_program_jumpText (hop : op.operation?.isSome) (htext : IsNumeral text) {v : Int}
    (hread : readInteger? text = some v) :
    Program.parse (jumpText op text) =
      if v < -0x2000000 ∨ 0x1FFFFFF < v then
        .error [{ line := 1, contents := jumpText op text
                  error := .outside text (-0x2000000) 0x1FFFFFF }]
      else .ok (.single (jump op (UInt32.ofInt v % 0x4000000))) := by
  have hm : IsMnemonic op.name := (JumpOp.mnemonic_found hop).1
  have hparse := parse_jumpText hop htext
  rw [readLiteral_numeral htext hread] at hparse
  have hplain : IsPlain (jumpText op text) :=
    isPlain_written hm.isWord (by simpa using htext.isWord)
  obtain ⟨hne, hstart⟩ : jumpText op text ≠ [] ∧ (jumpText op text).head? ≠ some (ascii '.') :=
    written_start hm
  split at hparse
  · rename_i houtside
    rw [if_pos houtside]
    exact Program.parse_plain_error hplain hne hstart hparse
  · rename_i hinside
    rw [if_neg hinside]
    exact Program.parse_plain hplain hne hstart hparse

theorem ofInt_signExtend {target : UInt32} (h : target.toNat < 0x4000000) :
    (-0x2000000 ≤ signExtend 26 target.toNat ∧ signExtend 26 target.toNat ≤ 0x1FFFFFF) ∧
      UInt32.ofInt (signExtend 26 target.toNat) % 0x4000000 = target := by
  have hmod : signExtend 26 target.toNat % 0x4000000 = target.toNat := by
    rw [signExtend]
    split <;> omega
  refine ⟨?_, ?_⟩
  · rw [signExtend]
    split <;> omega
  · have hwidth : (0x4000000 : UInt32).toNat = 0x4000000 := rfl
    rw [← UInt32.toNat_inj, UInt32.toNat_mod, UInt32.ofInt, UInt32.toNat_ofNat', hwidth]
    omega

theorem parse_distance (hop : op.operation?.isSome) {target : UInt32}
    (h : target.toNat < 0x4000000) :
    Program.parse (jumpText op (decimal (signExtend 26 target.toNat))) =
      .ok (.single (jump op target)) := by
  obtain ⟨⟨hlow, hhigh⟩, hfield⟩ := ofInt_signExtend h
  have hread := readInteger?_decimal (v := signExtend 26 target.toNat) (by omega) (by omega)
  rw [parse_program_jumpText hop (isNumeral_decimal _) hread, if_neg (by omega), hfield]

end JumpText

end Instruction

/-- **The text of a jump.** The text of a jump is a source with this jump exactly if the field is in
the lower half, which holds the distances forward; else the field is refused as too large a
distance. The same jump is read if the distance is written for the field, whichever half it is
in. -/
theorem Program.parse_render_jump {op : JumpOp} (hop : op.operation?.isSome) {target : UInt32}
    (ht : target.toNat < 0x4000000) :
    (Program.parse (Instruction.jump op target).render = .ok (.single (.jump op target)) ↔
        target.toNat < 0x2000000) ∧
      (0x2000000 ≤ target.toNat →
        Program.parse (Instruction.jump op target).render =
          .error [{ line := 1, contents := (Instruction.jump op target).render
                    error := .outside ("0x" ++ hex 7 target.toNat) (-0x2000000) 0x1FFFFFF }]) ∧
      Program.parse (Instruction.jumpText op (decimal (signExtend 26 target.toNat))) =
        .ok (.single (.jump op target)) := by
  have hrender : (Instruction.jump op target).render =
      Instruction.jumpText op ("0x" ++ hex 7 target.toNat) := rfl
  have hparse := Instruction.parse_program_jumpText hop (isNumeral_hex 7 target.toNat)
    (readInteger?_hex 7 (by omega))
  have hrefused : 0x2000000 ≤ target.toNat → Program.parse (Instruction.jump op target).render =
      .error [{ line := 1, contents := (Instruction.jump op target).render
                error := .outside ("0x" ++ hex 7 target.toNat) (-0x2000000) 0x1FFFFFF }] := by
    intro hupper
    rw [hrender, hparse, if_pos (by omega)]
  refine ⟨⟨fun hok => ?_, fun hlower => ?_⟩, hrefused, Instruction.parse_distance hop ht⟩
  · by_contra hupper
    rw [hrefused (by omega)] at hok
    cases hok
  · have hfield : UInt32.ofInt (target.toNat : Int) % 0x4000000 = target := by
      rw [word_ofInt_toNat, ← UInt32.toNat_inj, UInt32.toNat_mod]
      exact Nat.mod_eq_of_lt ht
    rw [hrender, hparse, if_neg (by omega), hfield]

theorem Program.parse_render_jump_farthest :
    Program.parse (Instruction.jump ⟨3⟩ 0x1FFFFFF).render = .ok (.single (.jump ⟨3⟩ 0x1FFFFFF)) ∧
      Program.parse (Instruction.jump ⟨3⟩ 0x2000000).render =
        .error [{ line := 1, contents := ofString "jal 0x2000000"
                  error := .outside (ofString "0x2000000") (-0x2000000) 0x1FFFFFF }] ∧
      Program.parse (ofString "jal -33554432") = .ok (.single (.jump ⟨3⟩ 0x2000000)) := by
  have hforward := @Program.parse_render_jump ⟨3⟩ rfl 0x1FFFFFF (by decide)
  have hbackward := @Program.parse_render_jump ⟨3⟩ rfl 0x2000000 (by decide)
  have hrender : (Instruction.jump ⟨3⟩ 0x2000000).render = ofString "jal 0x2000000" ∧
      ("0x" ++ hex 7 (0x2000000 : UInt32).toNat : ByteString) = ofString "0x2000000" ∧
      Instruction.jumpText ⟨3⟩ (decimal (signExtend 26 (0x2000000 : UInt32).toNat)) =
        ofString "jal -33554432" := by decide +kernel
  refine ⟨hforward.1.2 (by decide), ?_, hrender.2.2 ▸ hbackward.2.2⟩
  rw [hbackward.2.1 (by decide), hrender.1, hrender.2.1]

/-- A jump to itself is read from its distance, and is what its machine word stands for, but its
text is no source. -/
theorem Program.parse_render_jump_backward :
    Program.parse (ofString "j -1") = .ok (.single (.jump ⟨2⟩ 0x3FFFFFF)) ∧
      Instruction.decode 0x0BFFFFFF = .ok (.jump ⟨2⟩ 0x3FFFFFF) ∧
      (Instruction.jump ⟨2⟩ 0x3FFFFFF).render = ofString "j 0x3FFFFFF" ∧
      ∀ p, Program.parse (ofString "j 0x3FFFFFF") ≠ .ok p := by
  refine ⟨eq_ok_of_toOption (by decide +kernel), eq_ok_of_toOption (by decide +kernel),
    by decide +kernel, fun p hp => ?_⟩
  have hnone : (Program.parse (ofString "j 0x3FFFFFF")).toOption = none := by decide +kernel
  rw [hp] at hnone
  cases hnone

end MipsAssembler
