import FormulaCode.Proofs.Sequence
import FormulaCode.Proofs.Spelling

/-! A violation inside a text stays what it is when the text goes on behind a blank. Only the check at the
end of a text depends on where the text ends. -/

namespace FormulaCode

lemma isBoundary_of_isBlank {w : Char} (h : Text.isBlank w = true) : IsBoundary w := by
  have helement (e : Element) (he : e ∈ Element.table) : w ∉ e.pattern.toList.drop 1 := by
    intro hm
    have hany := Element.isBlank_pattern e he
    rw [List.any_eq_false] at hany
    exact hany w (List.mem_of_mem_drop hm) h
  simp only [Text.isBlank, Bool.or_eq_true, beq_iff_eq] at h
  rcases h with (((rfl | rfl) | rfl) | rfl) | rfl <;>
    exact ⟨by decide, by decide, by decide, by decide, helement⟩

lemma Text.toUpper_of_isBlank {w : Char} (h : isBlank w = true) : w.toUpper = w := by
  simp only [isBlank, Bool.or_eq_true, beq_iff_eq] at h
  rcases h with (((rfl | rfl) | rfl) | rfl) | rfl <;> decide

namespace Lexeme

variable {expression : String} {p : Nat}

lemma Occurs.position_lt {text : List Char} {x : Lexeme} (h : x.Occurs text) :
    x.token.position < Text.byteLength text := by
  obtain ⟨before, here, rfl, hp, hs, -⟩ := h
  have hlen := length_le hs
  have hpos := length_pos hs
  have hle := Text.length_le_byteLength here
  rw [Text.byteLength_append, hp]
  omega

lemma position_lt_of_mem {x : Lexeme} (h : x ∈ (ofExpression expression).1) :
    x.token.position < Text.byteLength expression.toList := by
  rw [← Text.byteLength_upper]
  exact (occurs_of_mem_ofExpression h).position_lt

lemma split_of_unknown {text : List Char} (position : Nat) (rest before : List Char)
    (ht : text = before ++ rest) (hp : position = Text.byteLength before)
    (h : (all position rest).2 = .unknown p) :
    ∃ before c after, text = before ++ c :: after ∧ p = Text.byteLength before ∧ Text.isBlank c = false ∧
      Token.start? p (c :: after) = none := by
  fun_induction all position rest generalizing before with
  | case1 => cases h
  | case2 position rest q hf =>
    cases h
    obtain ⟨hne, hq, hs⟩ := Token.start?_of_find_unknown hf
    obtain ⟨c, after, hc⟩ := List.exists_cons_of_ne_nil hne
    have hsolid := List.head?_dropWhile_not Text.isBlank rest
    rw [hc] at hs hsolid
    refine ⟨before ++ rest.takeWhile Text.isBlank, c, after, ?_, ?_, by simpa using hsolid, hs⟩
    · rw [← hc, List.append_assoc, List.takeWhile_append_dropWhile, ht]
    · rw [hq, Text.byteLength_append, byteLength_blanks, hp]
  | case3 position rest t here hf y xs stop hall ih =>
    obtain ⟨ht', hpos, hs⟩ := split_of_find ht hp hf
    obtain ⟨hafter, hnext⟩ := split_after ht' hpos hs
    exact ih _ hafter hnext (by rw [hall]; exact h)

lemma exists_of_unknown (h : (ofExpression expression).2 = .unknown p) :
    ∃ before c after, Text.upper expression.toList = before ++ c :: after ∧ p = Text.byteLength before ∧
      Text.isBlank c = false ∧ Token.start? p (c :: after) = none :=
  split_of_unknown 0 _ [] rfl rfl h

lemma position_lt_of_unknown (h : (ofExpression expression).2 = .unknown p) :
    p < Text.byteLength expression.toList := by
  obtain ⟨before, c, after, ht, rfl, -⟩ := exists_of_unknown h
  have hc := c.utf8Size_pos
  rw [← Text.byteLength_upper expression.toList, ht, Text.byteLength_append, Text.byteLength_cons]
  omega

lemma position_eq_of_finish (h : (ofExpression expression).2 = .finish p) :
    p = Text.byteLength expression.toList := by
  rw [← Text.byteLength_upper]
  exact position_finish 0 _ [] rfl rfl h

lemma ofExpression_blank {w : Char} (hw : Text.isBlank w = true) (u v : String) :
    ofExpression (u ++ String.singleton w ++ v) =
      match ofExpression u with
      | (xs, .unknown p) => (xs, .unknown p)
      | (xs, .finish p) =>
        (xs ++ (all p (w :: Text.upper v.toList)).1, (all p (w :: Text.upper v.toList)).2) := by
  have hu : Text.upper (u ++ String.singleton w ++ v).toList =
      Text.upper u.toList ++ w :: Text.upper v.toList := by
    simp [Text.upper, Text.toUpper_of_isBlank hw]
  rw [ofExpression, hu, all_append (isBoundary_of_isBlank hw)]
  rfl

end Lexeme

section Extend

variable {o : Options} {u : String} {e : CompileError}

/-- All lexemes of the text are read, and the check at the end of the text finds the violation. -/
def FailsAtEnd (o : Options) (expression : String) (k : ErrorKind) : Prop :=
  (∃ p, (Lexeme.ofExpression expression).2 = .finish p) ∧
    ∃ s, (State.run o {} (Lexeme.ofExpression expression).1).2 = .ok s ∧ s.finish.result = .error k

namespace Compilation

lemma position_of_run_error (h : (State.run o {} (Lexeme.ofExpression u).1).2 = .error e) :
    e.position < Text.byteLength u.toList := by
  obtain ⟨before, x, after, -, -, -, hx, -, -, hp, -⟩ := State.exists_raises_of_run h
  rw [hp]
  exact Lexeme.position_lt_of_mem (hx ▸ List.mem_append_right _ List.mem_cons_self)

lemma ofExpression_extend (h : (ofExpression o u).result = .error e)
    (hp : e.position < Text.byteLength u.toList) {w : Char} (hw : Text.isBlank w = true) (v : String) :
    (ofExpression o (u ++ String.singleton w ++ v)).events = (ofExpression o u).events ∧
      (ofExpression o (u ++ String.singleton w ++ v)).result = .error e := by
  have hj := Lexeme.ofExpression_blank hw u v
  cases hl : Lexeme.ofExpression u with
  | mk xs stop =>
    rw [hl] at hj
    rw [ofExpression_eq_complete hl] at h ⊢
    rw [ofExpression_eq_complete hj]
    cases stop with
    | unknown p => exact ⟨rfl, h⟩
    | finish p =>
      cases hr : State.run o {} xs with
      | mk events result =>
        cases result with
        | error k =>
          rw [State.complete_of_error hr] at h ⊢
          rw [State.complete_of_error (State.run_append_of_error hr _)]
          exact ⟨rfl, h⟩
        | ok s =>
          -- The violation comes from the end of the text, which is where it is not.
          have hlen : p = Text.byteLength u.toList := Lexeme.position_eq_of_finish (by rw [hl])
          rw [State.complete_of_ok hr, State.halt] at h
          cases hf : s.finish.result with
          | ok t =>
            rw [hf] at h
            cases h
          | error k =>
            rw [hf] at h
            cases h
            exact absurd hp (hlen ▸ lt_irrefl p)

lemma position_eq_iff (h : (ofExpression o u).result = .error e) :
    e.position = Text.byteLength u.toList ↔ FailsAtEnd o u e.kind := by
  cases hl : Lexeme.ofExpression u with
  | mk xs stop =>
    have hstop : (Lexeme.ofExpression u).2 = stop := by rw [hl]
    rw [ofExpression_eq_complete hl] at h
    rw [FailsAtEnd, hl]
    cases hr : State.run o {} xs with
    | mk events result =>
      cases result with
      | error k =>
        rw [State.complete_of_error hr] at h
        cases h
        have hlt := position_of_run_error (o := o) (u := u) (e := e) (by rw [hl, hr])
        refine ⟨fun heq => absurd heq hlt.ne, ?_⟩
        rintro ⟨-, s, hs, -⟩
        cases hs
      | ok s =>
        rw [State.complete_of_ok hr] at h
        cases stop with
        | unknown p =>
          cases h
          refine ⟨fun heq => absurd heq (Lexeme.position_lt_of_unknown hstop).ne, ?_⟩
          rintro ⟨⟨q, hq⟩, -⟩
          cases hq
        | finish p =>
          rw [State.halt] at h
          cases hf : s.finish.result with
          | ok t =>
            rw [hf] at h
            cases h
          | error k =>
            rw [hf] at h
            cases h
            exact ⟨fun _ => ⟨⟨p, rfl⟩, s, rfl, hf⟩, fun _ => Lexeme.position_eq_of_finish hstop⟩

end Compilation

/-- A violation that is found before the end of a text is found there, after the same code, whatever follows
the text behind a blank. The violations found at the end are those that the check at the end finds. -/
theorem compile_extended {f : Failure} (h : compile o u = .failure f) :
    (f.error.position < Text.byteLength u.toList → ∀ w v, Text.isBlank w = true →
        compile o (u ++ String.singleton w ++ v) = .failure f) ∧
      (f.error.position = Text.byteLength u.toList ↔ FailsAtEnd o u f.error.kind) := by
  obtain ⟨hb, hr, hf⟩ := compile_eq_failure_iff.1 h
  refine ⟨fun hp w v hw => ?_, Compilation.position_eq_iff hr⟩
  obtain ⟨he, hr'⟩ := Compilation.ofExpression_extend hr hp hw v
  refine compile_eq_failure_iff.2 ⟨?_, hr', ?_⟩
  · rw [Compilation.breaches_eq_nil_iff] at hb ⊢
    rwa [he]
  · rw [hf, Compilation.emissions, Compilation.emissions, he]

theorem compile_extended_exponent :
    compile {} "a*1.5e" = .failure ⟨⟨.badLiteral, 2⟩, [0x00, 0]⟩ ∧
      compile {} ("a*1.5e" ++ String.singleton '\t' ++ "+3,é") = .failure ⟨⟨.badLiteral, 2⟩, [0x00, 0]⟩ := by
  have h : compile {} "a*1.5e" = .failure ⟨⟨.badLiteral, 2⟩, [0x00, 0]⟩ := by decide +kernel
  exact ⟨h, (compile_extended h).1 (by decide) '\t' "+3,é" (by decide)⟩

end Extend

end FormulaCode
