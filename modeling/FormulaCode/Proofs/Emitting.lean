import FormulaCode.Proofs.Decoding
import FormulaCode.Proofs.Outcome

namespace FormulaCode

/-- The bytes of one whole instruction: an operation other than the end mark, as many bytes of operand as
it takes, and no index beyond the last variable. -/
def IsEncoding (bs : List UInt8) : Prop :=
  ∃ (op : Opcode) (operand : List UInt8), bs = op.byte :: operand ∧ op ≠ .stop ∧
    operand.length = op.operandSize ∧ (op = .fetch → ∀ i ∈ operand, i.toNat ≤ 25)

lemma Instruction.isEncoding_bytes (i : Instruction) : IsEncoding i.bytes := by
  refine ⟨i.opcode, i.operand.bytes, rfl, ?_, ?_, ?_⟩
  · cases i <;> exact nofun
  · have hl := i.length_bytes
    rw [bytes, List.length_cons, size] at hl
    omega
  · intro hop
    cases i with
    | fetch v =>
      have hv := toNat_variable v
      intro b hb
      rw [List.mem_singleton.1 hb]
      omega
    | _ => cases hop

lemma Emission.isEncoding_bytes {e : Emission} (h : e.isProper = true) : IsEncoding e.bytes := by
  obtain ⟨i, rfl⟩ := exists_of_isProper h
  rw [bytes_ofInstruction]
  exact i.isEncoding_bytes

lemma Sound.isProper {n : Nat} {d : Int} {events : List Event} (h : Sound n d events) :
    ∀ e ∈ emissionsOf events, e.isProper = true := by
  induction events generalizing d with
  | nil => exact nofun
  | cons x events ih =>
    cases x with
    | emit e =>
      obtain ⟨⟨i, rfl⟩, -, h⟩ := h
      exact List.forall_mem_cons.2 ⟨Emission.isProper_ofInstruction i, ih h⟩
    | breach b => exact ih h.2
    | _ => exact ih h

section Marked

variable {es : List Emission}

lemma failedBytes_of_ne_nil (h : es ≠ []) :
    failedBytes es = (codeBytes es).set 0 badExpressionByte := by
  obtain ⟨e, es, rfl⟩ := List.exists_cons_of_ne_nil h
  cases e <;> rfl

lemma length_failedBytes_le (es : List Emission) :
    (failedBytes es).length ≤ (codeBytes es).length + 1 := by
  rw [failedBytes, List.length_cons, List.length_drop]
  exact Nat.succ_le_succ (Nat.sub_le _ 1)

lemma ofBytes_failedBytes (es : List Emission) :
    Program.ofBytes (failedBytes es) = .error .badExpression :=
  if_pos rfl

end Marked

namespace Compilation

variable {o : Options} {expression : String}

lemma isProper_emitted {events : List Event} (h : events <+: (ofExpression o expression).events) :
    ∀ e ∈ emissionsOf events, e.isProper = true := by
  obtain ⟨later, hl⟩ := h
  have hs := sound_events o (known_lexemes expression)
  rw [← hl, sound_append] at hs
  exact hs.1.isProper

lemma exists_program (o : Options) (expression : String) :
    ∃ p, (ofExpression o expression).program = .ok p ∧
      (ofExpression o expression).emissions = p.body.map .ofInstruction := by
  obtain ⟨is, his⟩ := Emission.exists_instructions
    (isProper_emitted (List.prefix_refl (ofExpression o expression).events))
  exact ⟨⟨is⟩, program_of_emissions his, his⟩

lemma length_emitted_lt {events : List Event} (h : events <+: (ofExpression o expression).events) :
    (codeBytes (emissionsOf events)).length < capacityBound (Text.byteLength expression.toList) := by
  obtain ⟨later, hl⟩ := h
  have hlt := length_codeBytes_lt o expression
  have he : (ofExpression o expression).emissions = emissionsOf events ++ emissionsOf later := by
    rw [← emissionsOf_append, hl]
    rfl
  rw [he, length_codeBytes_append] at hlt
  exact (Nat.le_add_right _ _).trans_lt hlt

end Compilation

lemma counterRange_of_compile {o : Options} {expression : String} {b : Breach}
    (h : compile o expression = .breach b) :
    b = .counterRange ∧ 2 ^ 31 ≤ Text.byteLength expression.toList := by
  obtain ⟨p, hp, -⟩ := Compilation.exists_program o expression
  rw [compile, Compilation.outcome, hp] at h
  split at h
  · rename_i hb
    cases h
    exact Compilation.counterRange_of_mem_breaches (by rw [hb]; exact List.mem_cons_self)
  · cases h
  · cases h
  · rename_i hp
    cases hp

/-- At every point of a compilation the emitted bytes are those of whole instructions, one after the other.
A program is read from these bytes and shows the emitted code. A failure has them with the first one
replaced, and is refused as a program. Nothing else comes out of a text of less than `2 ^ 31` bytes. -/
theorem compile_emits_whole (o : Options) (expression : String) :
    (∀ events, events <+: (Compilation.ofExpression o expression).events →
      ∃ parts : List (List UInt8), codeBytes (emissionsOf events) = parts.flatten ∧
        ∀ bs ∈ parts, IsEncoding bs) ∧
      (∀ p, compile o expression = .program p →
        p.bytes = codeBytes (Compilation.ofExpression o expression).emissions ++ [Opcode.stop.byte] ∧
          Program.ofBytes p.bytes = .ok p ∧ p.Shows (Compilation.ofExpression o expression).emissions) ∧
      (∀ f, compile o expression = .failure f →
        f.emitted = (if (Compilation.ofExpression o expression).emissions = [] then [badExpressionByte]
            else (codeBytes (Compilation.ofExpression o expression).emissions).set 0 badExpressionByte) ∧
          Program.ofBytes f.emitted = .error .badExpression) ∧
      ∀ b, compile o expression = .breach b →
        b = .counterRange ∧ 2 ^ 31 ≤ Text.byteLength expression.toList := by
  refine ⟨fun events h => ?_, fun p h => ?_, fun f h => ?_, fun b => counterRange_of_compile⟩
  · refine ⟨(emissionsOf events).map Emission.bytes, rfl, fun bs hbs => ?_⟩
    obtain ⟨e, he, rfl⟩ := List.mem_map.1 hbs
    exact Emission.isEncoding_bytes (Compilation.isProper_emitted h e he)
  · obtain ⟨-, -, hp⟩ := compile_eq_program_iff.1 h
    obtain ⟨q, hq, he⟩ := Compilation.exists_program o expression
    cases hp.symm.trans hq
    rw [he]
    exact ⟨p.bytes_eq_codeBytes, Program.ofBytes_eq_ok_iff.2 rfl, p.shows_instructions⟩
  · obtain ⟨-, -, hf⟩ := compile_eq_failure_iff.1 h
    rw [hf]
    refine ⟨?_, ofBytes_failedBytes _⟩
    split
    · rename_i he
      rw [he]
      rfl
    · rename_i he
      exact failedBytes_of_ne_nil he

theorem compile_emits_whole_cut : compile {} "A*MAX(1;B" =
      .failure ⟨⟨.unbalancedParen, 7⟩, [0x00, 0, Opcode.literal.byte, 0, 0, 0, 0, 0, 0, 0xF0, 0x3F]⟩ ∧
    Program.ofBytes [0x00, 0, Opcode.literal.byte, 0, 0, 0, 0, 0, 0, 0xF0, 0x3F] =
      .error .badExpression ∧
    compile {} "A;" = .program ⟨[.fetch 0, .endExpr]⟩ ∧
    Program.ofBytes (Program.bytes ⟨[.fetch 0, .endExpr]⟩) = .ok ⟨[.fetch 0, .endExpr]⟩ := by
  have hf : compile {} "A*MAX(1;B" = .failure ⟨⟨.unbalancedParen, 7⟩,
      [0x00, 0, Opcode.literal.byte, 0, 0, 0, 0, 0, 0, 0xF0, 0x3F]⟩ := by
    decide +kernel
  have hp : compile {} "A;" = .program ⟨[.fetch 0, .endExpr]⟩ := by decide +kernel
  exact ⟨hf, ((compile_emits_whole {} "A*MAX(1;B").2.2.1 _ hf).2, hp,
    ((compile_emits_whole {} "A;").2.1 _ hp).2.1⟩

/-- The emitted bytes, the end mark included, never take more than the capacity for the expression, so
that neither a program nor what a failure has of one does, and the compiler's own check on it holds. -/
theorem compile_within_capacity (o : Options) (expression : String) :
    (∀ events, events <+: (Compilation.ofExpression o expression).events →
      (codeBytes (emissionsOf events) ++ [Opcode.stop.byte]).length ≤
        capacityBound (Text.byteLength expression.toList)) ∧
      (∀ p, compile o expression = .program p →
        p.bytes.length ≤ capacityBound (Text.byteLength expression.toList)) ∧
      (∀ f, compile o expression = .failure f →
        f.emitted.length ≤ capacityBound (Text.byteLength expression.toList)) ∧
      compile o expression ≠ .breach .capacityExceeded := by
  have hl := Compilation.length_codeBytes_lt o expression
  refine ⟨fun events h => ?_, fun p h => ?_, fun f h => ?_, fun h => ?_⟩
  · rw [List.length_append]
    exact Compilation.length_emitted_lt h
  · obtain ⟨-, -, hp⟩ := compile_eq_program_iff.1 h
    rw [← Program.ofBytes_eq_ok_iff.1 hp, List.length_append]
    exact hl
  · obtain ⟨-, -, hf⟩ := compile_eq_failure_iff.1 h
    rw [hf]
    exact (length_failedBytes_le _).trans hl
  · cases (counterRange_of_compile h).1

theorem compile_within_capacity_numeral :
    (∃ p, compile {} "1" = .program p ∧ p.bytes.length = 10 ∧
      p.bytes.length ≤ capacityBound (Text.byteLength "1".toList)) ∧
    (∃ f, compile {} "1é" = .failure f ∧ f.emitted.length = 9 ∧
      f.emitted.length ≤ capacityBound (Text.byteLength "1é".toList)) ∧
    capacityBound (Text.byteLength "1".toList) = 10 := by
  have hp : compile {} "1" = .program ⟨[.literal ⟨0x3FF0000000000000⟩]⟩ := by decide +kernel
  have hf : compile {} "1é" = .failure ⟨⟨.unknownToken, 1⟩,
      [0x00, 0, 0, 0, 0, 0, 0, 0xF0, 0x3F]⟩ := by decide +kernel
  exact ⟨⟨_, hp, rfl, (compile_within_capacity {} "1").2.1 _ hp⟩,
    ⟨_, hf, rfl, (compile_within_capacity {} "1é").2.2.1 _ hf⟩, by decide⟩

end FormulaCode
