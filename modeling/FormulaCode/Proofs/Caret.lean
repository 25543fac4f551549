import FormulaCode.Proofs.Diagnostics
import FormulaCode.Proofs.Extension

namespace FormulaCode

namespace Text

variable {cs before after : List Char}

lemma byteLength_eq_utf8ByteSize (s : String) : byteLength s.toList = s.utf8ByteSize := by
  have h (cs : List Char) : byteLength cs = String.utf8Len cs := by
    induction cs with
    | nil => rfl
    | cons c cs ih => rw [byteLength_cons, ih, String.utf8Len_cons, Nat.add_comm]
  rw [h, ← String.utf8ByteSize_ofList, String.ofList_toList]

lemma isValid_byteLength {s : String} (h : s.toList = before ++ after) :
    (⟨byteLength before⟩ : String.Pos.Raw).IsValid s := by
  refine String.Pos.Raw.isValid_iff_exists_append.2 ⟨String.ofList before, String.ofList after, ?_, ?_⟩
  · rw [← String.ofList_append, ← h, String.ofList_toList]
  · rw [String.rawEndPos, ← byteLength_eq_utf8ByteSize, String.toList_ofList]

lemma exists_of_upper_eq_append (h : upper cs = before ++ after) :
    ∃ xs ys, cs = xs ++ ys ∧ byteLength xs = byteLength before ∧ upper ys = after := by
  obtain ⟨xs, ys, rfl, rfl, rfl⟩ := List.map_eq_append_iff.1 h
  exact ⟨xs, ys, rfl, (byteLength_upper xs).symm, rfl⟩

end Text

namespace Lexeme

variable {expression : String} {x : Lexeme} {p : Nat}

/-- What follows an offset of an expression starts with a lexeme, or with a character that is no blank and
starts none. -/
def StartsAt (expression : String) (position : Nat) (after : List Char) : Prop :=
  (∃ x ∈ (ofExpression expression).1, Token.start? position (Text.upper after) = some x.token) ∨
    (ofExpression expression).2 = .unknown position ∧ Token.start? position (Text.upper after) = none ∧
      ∃ c rest, after = c :: rest ∧ Text.isBlank c = false

lemma startsAt_of_mem (h : x ∈ (ofExpression expression).1) :
    ∃ before after, expression.toList = before ++ after ∧ x.token.position = Text.byteLength before ∧
      StartsAt expression x.token.position after := by
  obtain ⟨front, here, ht, hp, hs, -⟩ := occurs_of_mem_ofExpression h
  obtain ⟨before, after, hsplit, hlen, rfl⟩ := Text.exists_of_upper_eq_append ht
  exact ⟨before, after, hsplit, hp.trans hlen.symm, .inl ⟨x, h, hs⟩⟩

lemma startsAt_of_unknown (h : (ofExpression expression).2 = .unknown p) :
    ∃ before after, expression.toList = before ++ after ∧ p = Text.byteLength before ∧
      StartsAt expression p after := by
  obtain ⟨front, d, here, ht, hp, hb, hs⟩ := exists_of_unknown h
  obtain ⟨before, after, hsplit, hlen, hupper⟩ := Text.exists_of_upper_eq_append ht
  obtain ⟨c, rest, rfl, rfl, rfl⟩ := List.map_eq_cons_iff.1 hupper
  have hc : Text.isBlank c = false := by
    by_contra hc
    rw [Bool.not_eq_false] at hc
    rw [Text.toUpper_of_isBlank hc, hc] at hb
    cases hb
  exact ⟨before, c :: rest, hsplit, hp.trans hlen.symm, .inr ⟨h, hs, c, rest, rfl, hc⟩⟩

end Lexeme

namespace Compilation

variable {o : Options} {expression : String} {e : CompileError}

lemma Ends.split {es : List Emission} (h : Ends o (Lexeme.ofExpression expression) (.error e) es) :
    ∃ before after, expression.toList = before ++ after ∧ e.position = Text.byteLength before ∧
      (e.position = Text.byteLength expression.toList ∨ Lexeme.StartsAt expression e.position after) := by
  cases hl : Lexeme.ofExpression expression with
  | mk xs stop =>
    have hstop : (Lexeme.ofExpression expression).2 = stop := by rw [hl]
    rw [hl] at h
    cases h with
    | @refused front later x =>
      have hx : x ∈ (Lexeme.ofExpression expression).1 := by
        rw [hl]
        exact List.mem_append_right front List.mem_cons_self
      obtain ⟨before, after, hsplit, hp, hs⟩ := Lexeme.startsAt_of_mem hx
      exact ⟨before, after, hsplit, hp, .inr hs⟩
    | unknown hr =>
      obtain ⟨before, after, hsplit, hp, hs⟩ := Lexeme.startsAt_of_unknown hstop
      exact ⟨before, after, hsplit, hp, .inr hs⟩
    | unfinished hr hf =>
      have hp := Lexeme.position_eq_of_finish hstop
      exact ⟨expression.toList, [], (List.append_nil _).symm, hp, .inl hp⟩

end Compilation

lemma CompileError.caret_of_split {e : CompileError} {expression : String} {before after : List Char}
    (h : expression.toList = before ++ after) (hp : e.position = Text.byteLength before) :
    Text.charsBefore? (min e.position (Text.byteLength expression.toList)) expression.toList =
        some before.length ∧
      e.caret expression = expression ++ "\n" ++ String.ofList (List.replicate before.length ' ') ++ "^ " ++
        e.kind.message := by
  have hle : min e.position (Text.byteLength expression.toList) = Text.byteLength before := by
    rw [hp, h, Text.byteLength_append]
    exact Nat.min_eq_left (Nat.le_add_right _ _)
  have hcount : Text.charsBefore? (min e.position (Text.byteLength expression.toList)) expression.toList =
      some before.length := by
    rw [hle, h, Text.charsBefore?_append]
  refine ⟨hcount, ?_⟩
  rw [caret, column, hcount]
  rfl

/-- A failure is reported at a boundary of characters of the expression. Before the end of the text, a lexeme
starts there or a character that starts none; at the end are the failures that the check at the end finds. The
caret stands behind as many blanks as there are characters before the offset. -/
theorem compile_failure_caret (o : Options) (expression : String) (f : Failure)
    (h : compile o expression = .failure f) :
    f.error.position ≤ expression.utf8ByteSize ∧
      (⟨f.error.position⟩ : String.Pos.Raw).IsValid expression ∧
      (f.error.position = expression.utf8ByteSize ↔ FailsAtEnd o expression f.error.kind) ∧
      ∃ before after, expression.toList = before ++ after ∧ f.error.position = Text.byteLength before ∧
        (f.error.position < expression.utf8ByteSize → Lexeme.StartsAt expression f.error.position after) ∧
        Text.charsBefore? (min f.error.position (Text.byteLength expression.toList)) expression.toList =
          some before.length ∧
        f.error.caret expression = expression ++ "\n" ++ String.ofList (List.replicate before.length ' ') ++
          "^ " ++ f.error.kind.message := by
  rw [← Text.byteLength_eq_utf8ByteSize]
  obtain ⟨-, hr, -⟩ := compile_eq_failure_iff.1 h
  obtain ⟨before, after, hsplit, hp, hplace⟩ := (Compilation.ends_of_failure h).split
  have hle : f.error.position ≤ Text.byteLength expression.toList := by
    rw [hp, hsplit, Text.byteLength_append]
    exact Nat.le_add_right _ _
  exact ⟨hle, hp ▸ Text.isValid_byteLength hsplit, Compilation.position_eq_iff hr, before, after, hsplit, hp,
    fun hlt => hplace.resolve_left hlt.ne, CompileError.caret_of_split hsplit hp⟩

theorem compile_failure_caret_blanks :
    (∃ f, compile {} "(a+é)" = .failure f ∧
      f.error.caret "(a+é)" = "(a+é)\n   ^ unknown operator or operand") ∧
      ∃ f, compile {} "2+ \t" = .failure f ∧ f.error.position = 4 ∧ FailsAtEnd {} "2+ \t" f.error.kind := by
  have hunknown : compile {} "(a+é)" = .failure ⟨⟨.unknownToken, 3⟩, [0, 0]⟩ := by decide +kernel
  have hend : compile {} "2+ \t" = .failure ⟨⟨.missingOperand, 4⟩, [0, 0, 0, 0, 0, 0, 0, 0, 64]⟩ := by
    decide +kernel
  obtain ⟨-, -, -, before, _, -, -, -, hcount, hcaret⟩ := compile_failure_caret {} "(a+é)" _ hunknown
  have hthree : before.length = 3 := Option.some.inj (hcount.symm.trans (by decide))
  refine ⟨⟨_, hunknown, ?_⟩, _, hend, rfl, (compile_failure_caret {} "2+ \t" _ hend).2.2.1.1 (by decide)⟩
  rw [hcaret, hthree]
  decide

end FormulaCode
