import FormulaCode.Proofs.Accepted
import FormulaCode.Proofs.Capacity

namespace FormulaCode

def breachesOf (events : List Event) : List Breach :=
  events.filterMap fun
    | .breach b => some b
    | _ => none

lemma mem_breachesOf {b : Breach} {events : List Event} : b ∈ breachesOf events ↔ .breach b ∈ events := by
  rw [breachesOf, List.mem_filterMap]
  constructor
  · rintro ⟨x, hx, hb⟩
    cases x with
    | breach c =>
      cases hb
      exact hx
    | _ => cases hb
  · exact fun h => ⟨_, h, rfl⟩

namespace Compilation

variable {expression : String}

lemma known_lexemes (expression : String) :
    ∀ x ∈ (Lexeme.ofExpression expression).1, x.symbol.Known :=
  fun x hx => (spoken_lexemes .strict expression x hx).known

lemma program_of_emissions {c : Compilation} {is : List Instruction}
    (h : c.emissions = is.map .ofInstruction) : c.program = .ok ⟨is⟩ := by
  rw [program, h, Program.ofEmissions_instructions]

lemma expression_ofExpression (o : Options) (expression : String) :
    (ofExpression o expression).expression = expression := by
  rw [ofExpression]
  split
  split
  · rfl
  · rfl
  · dsimp only
    split <;> rfl

lemma finalBreaches_eq_nil (o : Options) (expression : String) :
    (ofExpression o expression).finalBreaches = [] := by
  cases hr : (ofExpression o expression).result with
  | error e => simp [finalBreaches, hr]
  | ok u =>
    obtain ⟨-, es, ha, he⟩ := accepted_of_result hr
    have hl := length_codeBytes_lt o expression
    rw [finalBreaches, hr, program_of_emissions he, expression_ofExpression]
    refine if_pos ?_
    rw [Program.size, Program.bytes_eq_codeBytes, List.length_append, ← he]
    exact hl

lemma breaches_eq (o : Options) (expression : String) : (ofExpression o expression).breaches =
    breachesOf (ofExpression o expression).events ++ (ofExpression o expression).tally.breaches := by
  rw [breaches, Element.checkTable_table, finalBreaches_eq_nil, List.nil_append, List.append_nil]
  rfl

lemma counterRange_of_mem_breaches {o : Options} {b : Breach}
    (h : b ∈ (ofExpression o expression).breaches) :
    b = .counterRange ∧ 2 ^ 31 ≤ Text.byteLength expression.toList := by
  have hs := sound_events o (known_lexemes expression)
  have hl := Lexeme.length_ofExpression_le expression
  rw [breaches_eq] at h
  rcases List.mem_append.1 h with h | h
  · exact (hs.counterRange_of_mem (mem_breachesOf.1 h)).imp_right fun hn => hn.trans hl
  · rcases hs.counterRange_of_mem_tally {} h with h | h
    · cases h
    · exact h.imp_right fun hn => hn.trans hl

lemma breaches_eq_nil (o : Options) (h : Text.byteLength expression.toList < 2 ^ 31) :
    (ofExpression o expression).breaches = [] :=
  List.eq_nil_iff_forall_not_mem.2 fun _ hb => absurd (counterRange_of_mem_breaches hb).2 (by omega)

end Compilation

section Compile

variable {o : Options} {expression : String}

lemma compile_eq_program_iff {p : Program} : compile o expression = .program p ↔
    (Compilation.ofExpression o expression).breaches = [] ∧
      (Compilation.ofExpression o expression).result = .ok () ∧
        (Compilation.ofExpression o expression).program = .ok p := by
  constructor
  · intro h
    rw [compile, Compilation.outcome.eq_def] at h
    split at h
    · cases h
    · cases h
    · rename_i hb hr hp
      cases h
      exact ⟨hb, hr, hp⟩
    · cases h
  · rintro ⟨hb, hr, hp⟩
    rw [compile, Compilation.outcome, hb, hr, hp]

lemma compile_eq_failure_iff {f : Failure} : compile o expression = .failure f ↔
    (Compilation.ofExpression o expression).breaches = [] ∧
      (Compilation.ofExpression o expression).result = .error f.error ∧
        f.emitted = failedBytes (Compilation.ofExpression o expression).emissions := by
  constructor
  · intro h
    rw [compile, Compilation.outcome.eq_def] at h
    split at h
    · cases h
    · rename_i hb hr
      cases h
      exact ⟨hb, hr, rfl⟩
    · cases h
    · cases h
  · rintro ⟨hb, hr, hf⟩
    rw [compile, Compilation.outcome, hb, hr, ← hf]

lemma compile_of_accepted {es : List (Option (Phrase o.literalPolicy))} {p : Nat}
    (hb : Text.byteLength expression.toList < 2 ^ 31)
    (hd : Text.byteLength expression.toList ≤ o.maxStackDepth)
    (hp : (Lexeme.ofExpression expression).2 = .finish p)
    (h : Accepted o.literalPolicy ((Lexeme.ofExpression expression).1.map Lexeme.symbol) es) :
    compile o expression = .program ⟨joined (codesOf es)⟩ := by
  obtain ⟨hr, he⟩ := Compilation.result_of_accepted hp h
    ((Lexeme.length_ofExpression_le expression).trans hd)
  exact compile_eq_program_iff.2
    ⟨Compilation.breaches_eq_nil o hb, hr, Compilation.program_of_emissions he⟩

lemma accepted_of_compile {program : Program} (h : compile o expression = .program program) :
    (∃ p, (Lexeme.ofExpression expression).2 = .finish p) ∧
      ∃ es, Accepted o.literalPolicy ((Lexeme.ofExpression expression).1.map Lexeme.symbol) es ∧
        program = ⟨joined (codesOf es)⟩ := by
  obtain ⟨-, hr, hp⟩ := compile_eq_program_iff.1 h
  obtain ⟨hf, es, ha, he⟩ := Compilation.accepted_of_result hr
  rw [Compilation.program_of_emissions he] at hp
  cases hp
  exact ⟨hf, es, ha, rfl⟩

end Compile

end FormulaCode
