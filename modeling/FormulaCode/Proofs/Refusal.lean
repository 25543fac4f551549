import FormulaCode.Proofs.Decoding

/-! Bytes are refused at the first place where they cannot be read on. They lack an end that would make a
program of them, or no end does, and then every longer row of bytes is refused alike. -/

namespace FormulaCode

namespace ProgramError

def isUnfinished : ProgramError → Bool
  | .missingTerminator | .truncatedOperand _ => true
  | _ => false

end ProgramError

namespace Program

variable {offset : Nat} {bs rest : List UInt8} {is : List Instruction} {error : ProgramError}

lemma error_of_map {α β : Type} {f : α → β} {x : Except ProgramError α} (h : x.map f = .error error) :
    x = .error error := by
  cases x with
  | error e => exact congrArg Except.error (Except.error.inj h)
  | ok a => cases h

lemma decode_eq_error_iff : decode offset bs = .error error ↔ ∃ (is : List Instruction) (rest : List UInt8),
    bs = is.flatMap Instruction.bytes ++ rest ∧
      Refuses (offset + (is.flatMap Instruction.bytes).length) rest error := by
  constructor
  · intro h
    induction hn : bs.length using Nat.strong_induction_on generalizing offset bs with
    | h n ih =>
      rcases reads_or_refuses offset bs with rfl | ⟨i, rest, rfl⟩ | ⟨error', hr⟩
      · cases h
      · -- what is wrong stands behind the instruction, in fewer bytes
        rw [decode_cons] at h
        have hlt : rest.length < n := by
          rw [← hn, List.length_append, Instruction.length_bytes, Instruction.size]
          omega
        obtain ⟨is, later, rfl, hr⟩ := ih _ hlt (error_of_map h) rfl
        refine ⟨i :: is, later, by rw [List.flatMap_cons, List.append_assoc], ?_⟩
        rwa [List.flatMap_cons, List.length_append, Instruction.length_bytes, ← Nat.add_assoc]
      · rw [decode_of_refuses hr] at h
        cases h
        exact ⟨[], bs, rfl, hr⟩
  · rintro ⟨is, rest, rfl, hr⟩
    rw [decode_instructions, decode_of_refuses hr]
    rfl

lemma Refuses.append (h : Refuses offset bs error) (hf : error.isUnfinished = false) (more : List UInt8) :
    Refuses offset (bs ++ more) error := by
  cases h with
  | missing => cases hf
  | truncated => cases hf
  | opcode h => exact .opcode h
  | index h => exact .index h
  | trailing => exact .trailing

lemma exists_instruction_of_truncated {op : Opcode} {operand : List UInt8}
    (h : operand.length < op.operandSize) :
    ∃ (more : List UInt8) (i : Instruction), op.byte :: operand ++ more = i.bytes := by
  cases op with
  | fetch =>
    obtain rfl : operand = [] := List.length_eq_zero_iff.1 (Nat.lt_one_iff.1 h)
    exact ⟨[0], .fetch 0, rfl⟩
  | literal =>
    -- any bytes are the bits of some number, so zeros do
    have hl : (operand ++ List.replicate (8 - operand.length) 0).length = 8 := by
      rw [List.length_append, List.length_replicate]
      exact Nat.add_sub_cancel' h.le
    exact ⟨_, _, (Instruction.bytes_literal hl).symm⟩
  | _ => exact absurd h (Nat.not_lt_zero _)

lemma Refuses.exists_finish (h : Refuses offset bs error) (hu : error.isUnfinished = true) :
    ∃ (more : List UInt8) (is : List Instruction),
      bs ++ more = is.flatMap Instruction.bytes ++ [Opcode.stop.byte] := by
  cases h with
  | missing => exact ⟨[Opcode.stop.byte], [], rfl⟩
  | truncated h =>
    obtain ⟨more, i, hi⟩ := exists_instruction_of_truncated h
    exact ⟨more ++ [Opcode.stop.byte], [i], by rw [← List.append_assoc, hi]; simp⟩
  | opcode => cases hu
  | index => cases hu
  | trailing => cases hu

lemma Refuses.ne_nil (h : Refuses offset bs error) (hf : error.isUnfinished = false) : bs ≠ [] := by
  rintro rfl
  cases h
  cases hf

lemma ofBytes_eq_error_iff : ofBytes bs = .error error ↔
    (bs.head? = some badExpressionByte ∧ error = .badExpression) ∨
      (bs.head? ≠ some badExpressionByte ∧ ∃ (is : List Instruction) (rest : List UInt8),
        bs = is.flatMap Instruction.bytes ++ rest ∧
          Refuses (is.flatMap Instruction.bytes).length rest error) := by
  rw [ofBytes]
  split
  case isTrue hhead => simp [hhead, eq_comm]
  case isFalse hhead =>
    have hd : decode 0 bs = .error error ↔ _ := decode_eq_error_iff
    simp only [Nat.zero_add] at hd
    simp only [hhead, false_and, ne_eq, not_false_eq_true, true_and, false_or, ← hd]
    exact ⟨error_of_map, fun h => by rw [h]; rfl⟩

lemma ofBytes_append (h : ofBytes bs = .error error) (hf : error.isUnfinished = false) (more : List UInt8) :
    ofBytes (bs ++ more) = .error error := by
  rcases ofBytes_eq_error_iff.1 h with ⟨hhead, rfl⟩ | ⟨hhead, is, rest, rfl, hr⟩
  · exact ofBytes_eq_error_iff.2 (.inl ⟨by rw [List.head?_append, hhead]; rfl, rfl⟩)
  · refine ofBytes_eq_error_iff.2 (.inr ⟨?_, is, rest ++ more, List.append_assoc .., hr.append hf more⟩)
    rwa [List.head?_append_of_ne_nil _ (List.append_ne_nil_of_right_ne_nil _ (hr.ne_nil hf))]

lemma exists_finish (h : ofBytes bs = .error error) (hu : error.isUnfinished = true) :
    ∃ (more : List UInt8) (p : Program), ofBytes (bs ++ more) = .ok p := by
  rcases ofBytes_eq_error_iff.1 h with ⟨-, rfl⟩ | ⟨-, is, rest, rfl, hr⟩
  · cases hu
  · obtain ⟨more, js, hfinish⟩ := hr.exists_finish hu
    refine ⟨more, ⟨is ++ js⟩, ofBytes_eq_ok_iff.2 ?_⟩
    rw [bytes, List.flatMap_append, List.append_assoc, hfinish, List.append_assoc]

/-- Some bytes stand at an offset, and those before it are read as whole instructions with no end mark among
them. -/
def StandsAt (bs : List UInt8) (offset : Nat) (here : List UInt8) : Prop :=
  ∃ (before : List UInt8) (is : List Instruction), bs = before ++ here ∧ before.length = offset ∧
    ofBytes (before ++ [Opcode.stop.byte]) = .ok ⟨is⟩ ∧ ∀ i ∈ is, i.opcode ≠ .stop

/-- The fault that an error tells stands in the bytes where the error has it. -/
def IsFault (bs : List UInt8) : ProgramError → Prop
  | .badExpression => bs.head? = some badExpressionByte
  | .missingTerminator => StandsAt bs bs.length []
  | .invalidOpcode offset b => Opcode.ofByte? b = none ∧ ∃ rest, StandsAt bs offset (b :: rest)
  | .truncatedOperand offset => ∃ (op : Opcode) (operand : List UInt8),
    operand.length < op.operandSize ∧ StandsAt bs offset (op.byte :: operand)
  | .invalidVariable offset v => ¬ v.toNat < 26 ∧ ∃ rest, StandsAt bs offset (Opcode.fetch.byte :: v :: rest)
  | .trailingBytes offset => ∃ (n : Nat) (b : UInt8) (rest : List UInt8),
    offset = n + 1 ∧ StandsAt bs n (Opcode.stop.byte :: b :: rest)

lemma standsAt_instructions (is : List Instruction) (here : List UInt8) :
    StandsAt (is.flatMap Instruction.bytes ++ here) (is.flatMap Instruction.bytes).length here :=
  ⟨_, is, rfl, rfl, ofBytes_eq_ok_iff.2 rfl, fun i _ => by cases i <;> simp [Instruction.opcode]⟩

lemma isFault_of_ofBytes (h : ofBytes bs = .error error) : IsFault bs error := by
  rcases ofBytes_eq_error_iff.1 h with ⟨hhead, rfl⟩ | ⟨-, is, rest, rfl, hr⟩
  · exact hhead
  · have hs := standsAt_instructions is rest
    cases hr with
    | missing => simpa [IsFault] using hs
    | opcode hb => exact ⟨hb, _, hs⟩
    | truncated hl => exact ⟨_, _, hl, hs⟩
    | index hv => exact ⟨hv, _, hs⟩
    | trailing => exact ⟨_, _, _, rfl, hs⟩

/-- Refused bytes have the fault that the error tells, behind whole instructions. With the error that they
end too early, and no other, they can be made a program by more bytes, and any other error stays whatever
bytes follow. -/
theorem ofBytes_refusal (h : ofBytes bs = .error error) :
    (error.isUnfinished = true ↔ ∃ (more : List UInt8) (p : Program), ofBytes (bs ++ more) = .ok p) ∧
      (error.isUnfinished = false → ∀ more : List UInt8, ofBytes (bs ++ more) = .error error) ∧
      IsFault bs error := by
  refine ⟨⟨exists_finish h, ?_⟩, ofBytes_append h, isFault_of_ofBytes h⟩
  rintro ⟨more, p, hp⟩
  by_contra hf
  rw [ofBytes_append h (Bool.eq_false_of_not_eq_true hf) more] at hp
  cases hp

theorem ofBytes_refusal_cut :
    ofBytes [Opcode.fetch.byte, 25, Opcode.literal.byte, 1, 2] = .error (.truncatedOperand 2) ∧
      (∃ (more : List UInt8) (p : Program),
        ofBytes ([Opcode.fetch.byte, 25, Opcode.literal.byte, 1, 2] ++ more) = .ok p) ∧
      ofBytes [Opcode.fetch.byte, 25, Opcode.stop.byte, Opcode.stop.byte] = .error (.trailingBytes 3) ∧
      ∀ more : List UInt8, ofBytes ([Opcode.fetch.byte, 25, Opcode.stop.byte, Opcode.stop.byte] ++ more) =
        .error (.trailingBytes 3) :=
  ⟨rfl, (ofBytes_refusal rfl).1.1 rfl, rfl, (ofBytes_refusal rfl).2.1 rfl⟩

end Program

end FormulaCode
