import Mathlib
import FormulaCode.Emission

namespace FormulaCode

lemma toNat_variable (v : Variable) : (UInt8.ofNat v.val).toNat = v.val := by
  rw [UInt8.toNat_ofNat']
  omega

namespace Emission

lemma bytes_ofInstruction (i : Instruction) : (ofInstruction i).bytes = i.bytes := by
  cases i <;> rfl

lemma isWhole_ofInstruction (i : Instruction) : (ofInstruction i).isWhole = true := by
  cases i with
  | constant c => cases c <;> rfl
  | unary f => cases f <;> rfl
  | binary f => cases f <;> rfl
  | _ => rfl

lemma depthAfter_ofInstruction {i : Instruction} (h : i ≠ .endExpr) (d : Int) :
    depthAfter d (.ofInstruction i) = d + i.opcode.stackEffect := by
  cases i with
  | fetch v => rfl
  | literal x => rfl
  | constant c => cases c <;> rfl
  | unary f => cases f <;> rfl
  | binary f => cases f <;> rfl
  | branchIf => rfl
  | branchElse => rfl
  | branchEnd => rfl
  | endExpr => exact absurd rfl h

lemma codeBytes_instructions (is : List Instruction) :
    codeBytes (is.map ofInstruction) = is.flatMap Instruction.bytes := by
  rw [codeBytes, List.flatMap_map]
  exact List.flatMap_congr fun i _ => bytes_ofInstruction i

end Emission

namespace Program

lemma bytes_eq_codeBytes (p : Program) :
    p.bytes = codeBytes (p.body.map .ofInstruction) ++ [Opcode.stop.byte] := by
  rw [Emission.codeBytes_instructions, bytes]

lemma decode_cons (i : Instruction) (offset : Nat) (rest : List UInt8) :
    decode offset (i.bytes ++ rest) = (decode (offset + i.size) rest).map (i :: ·) := by
  have hb := Opcode.ofByte?_byte i.opcode
  cases i with
  | fetch v =>
    have hv := toNat_variable v
    simp only [Instruction.opcode] at hb
    simp [Instruction.bytes, Instruction.opcode, Instruction.operand, Operand.bytes, decode, hb, hv,
      Instruction.size, Opcode.operandSize]
  | literal x =>
    obtain ⟨a, b, c, d, e, f, g, h, hx⟩ : ∃ a b c d e f g h, x.bytes = [a, b, c, d, e, f, g, h] :=
      ⟨_, _, _, _, _, _, _, _, rfl⟩
    have hd := x.ofBytes_bytes
    rw [hx] at hd
    simp only [Instruction.opcode] at hb
    simp [Instruction.bytes, Instruction.opcode, Instruction.operand, Operand.bytes, decode, hb, hx,
      Instruction.size, Opcode.operandSize, hd]
  | _ =>
    simp only [Instruction.opcode] at hb
    simp [Instruction.bytes, Instruction.opcode, Instruction.operand, Operand.bytes, decode, hb,
      Instruction.size, Opcode.operandSize]

lemma decode_instructions (is : List Instruction) (offset : Nat) (rest : List UInt8) :
    decode offset (is.flatMap Instruction.bytes ++ rest) =
      (decode (offset + (is.flatMap Instruction.bytes).length) rest).map (is ++ ·) := by
  induction is generalizing offset with
  | nil => cases h : decode offset rest <;> simp [h, Except.map]
  | cons i is ih =>
    rw [List.flatMap_cons, List.append_assoc, decode_cons, ih, List.length_append, Instruction.length_bytes,
      Nat.add_assoc]
    cases decode (offset + (i.size + (is.flatMap Instruction.bytes).length)) rest <;> rfl

lemma decode_bytes (is : List Instruction) (offset : Nat) :
    decode offset (is.flatMap Instruction.bytes ++ [Opcode.stop.byte]) = .ok is := by
  rw [decode_instructions]
  exact congrArg Except.ok is.append_nil

lemma head_bytes_ne (is : List Instruction) :
    (is.flatMap Instruction.bytes ++ [Opcode.stop.byte]).head? ≠ some badExpressionByte := by
  have hb : ∀ op : Opcode, op.byte ≠ badExpressionByte := by
    intro op h
    have := Opcode.ofByte?_byte op
    rw [h] at this
    cases this
  cases is with
  | nil => decide
  | cons i is => exact fun h => hb i.opcode (Option.some.inj h)

lemma ofEmissions_instructions (is : List Instruction) :
    ofEmissions (is.map .ofInstruction) = .ok ⟨is⟩ := by
  rw [ofEmissions, Emission.codeBytes_instructions, ofBytes, if_neg (head_bytes_ne is), decode_bytes]
  rfl

end Program

end FormulaCode
