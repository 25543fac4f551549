import FormulaCode.Proofs.Outcome
import FormulaCode.Proofs.Tracking

/-! Violations are told from the lexemes alone: the one that is reported can be seen at its place, and none
can be seen before it. -/

namespace FormulaCode

def Symbol.IsOutOfSequence (last : Option Symbol) : Symbol → Prop
  | .operand _ | .numeral _ | .unary _ => last.any endsOperand = true
  | .binary _ | .separator | .closeParen | .question | .colon => last.any endsOperand = false
  | .minus => False
  | .terminator => ∃ y, last = some y ∧ y.endsOperand = false

/-- What stands at an offset: a lexeme, where the end of the text stands for `;`, or a character that
starts none. -/
inductive Place
  | symbol (x : Symbol)
  | unknown

namespace Place

def ofStop : Lexeme.Stop → Place
  | .finish _ => .symbol .terminator
  | .unknown _ => .unknown

def all (lexemes : List Lexeme × Lexeme.Stop) : List (Nat × Place) :=
  lexemes.1.map (fun x => (x.token.position, .symbol x.symbol)) ++ [(lexemes.2.position, ofStop lexemes.2)]

def symbolsBefore (lexemes : List Lexeme × Lexeme.Stop) (p : Nat) : List Symbol :=
  (lexemes.1.filter fun x => x.token.position < p).map Lexeme.symbol

/-- What the lexemes of the current expression and the place behind them show if there is a violation. -/
def Justifies (o : Options) (xs : List Symbol) : Place → ErrorKind → Prop
  | .unknown, k => k = .unknownToken
  | .symbol _, .unknownToken => False
  | .symbol x, .missingOperand => x.IsOutOfSequence xs.getLast?
  | .symbol x, .extraCloseParen => x = .closeParen ∧ Symbol.nesting xs = 0
  | .symbol x, .unbalancedParen =>
    x = .separator ∧ Symbol.nesting xs = 0 ∨ x = .terminator ∧ 0 < Symbol.nesting xs
  | .symbol x, .unbalancedConditional =>
    x = .colon ∧ xs.count .colon = xs.count .question ∨
      x = .terminator ∧ Symbol.nesting xs = 0 ∧ xs.count .colon < xs.count .question
  | .symbol x, .badLiteral => ∃ n, x = .numeral n ∧ n.valueUnder o.literalPolicy = none
  | .symbol x, .expressionTooComplex => x.waits = true ∧ o.maxStackDepth ≤ xs.countP Symbol.waits
  | .symbol x, .argumentCount =>
    (x = .separator ∨ x = .closeParen) ∧ 0 < Symbol.nesting xs ∨
      x = .terminator ∧ Symbol.nesting xs = 0 ∧ xs.count .colon = xs.count .question

end Place

def SeenAt (o : Options) (lexemes : List Lexeme × Lexeme.Stop) (p : Nat) (k : ErrorKind) : Prop :=
  ∃ here, (p, here) ∈ Place.all lexemes ∧
    here.Justifies o (Symbol.current (Place.symbolsBefore lexemes p)) k

namespace State

variable {o : Options} {s t : State} {x : Symbol} {xs : List Symbol} {k : ErrorKind} {es : List Emission}

def Passes (o : Options) (s : State) : Symbol → Prop
  | .numeral n => n.valueUnder o.literalPolicy ≠ none
  | .separator | .closeParen => s.pending.dropWhile Element.isOperator ≠ []
  | .colon => s.openConditionals ≠ 0
  | .terminator => s.Complete
  | _ => True

lemma Takes.passes (h : s.Takes o x es (.ok t)) : x.isMisplaced s.operandNeeded = false ∧ s.Passes o x := by
  cases h with
  | operand hn | question hn => exact ⟨by rw [hn]; rfl, trivial⟩
  | numeral hn hv => exact ⟨by rw [hn]; rfl, by simp [Passes, hv]⟩
  | binary hn hj | unary hn hj =>
    rw [hn]
    rcases hj with rfl | ⟨rfl, -⟩ <;> exact ⟨rfl, trivial⟩
  | separator hn hp => exact ⟨by rw [hn]; rfl, hp⟩
  | closeParen hn hp => exact ⟨by rw [hn]; rfl, by simp [Passes, hp]⟩
  | colon hn hc => exact ⟨by rw [hn]; rfl, hc⟩
  | terminator h => exact ⟨rfl, h⟩

section Seen

variable (hs : s.Tracks xs)

include hs

lemma Tracks.nesting_eq_zero_iff :
    Symbol.nesting xs = 0 ↔ s.pending.dropWhile Element.isOperator = [] := by
  rw [hs.nesting, Int.natCast_eq_zero, opened_eq_zero_iff]

lemma Tracks.nesting_pos_iff :
    0 < Symbol.nesting xs ↔ s.pending.dropWhile Element.isOperator ≠ [] := by
  rw [hs.nesting, Int.natCast_pos, Nat.pos_iff_ne_zero, Ne, opened_eq_zero_iff]

lemma Tracks.isOutOfSequence_iff (h : x ≠ .terminator) :
    x.IsOutOfSequence xs.getLast? ↔ x.isMisplaced s.operandNeeded = true := by
  rw [hs.operand]
  cases x with
  | minus => exact iff_of_false id Bool.false_ne_true
  | terminator => exact absurd rfl h
  | operand | numeral | unary => rw [Symbol.isMisplaced, Bool.not_not, Symbol.IsOutOfSequence]
  | _ => rw [Symbol.isMisplaced, Bool.not_eq_true', Symbol.IsOutOfSequence]

lemma Tracks.terminator_isOutOfSequence_iff :
    Symbol.terminator.IsOutOfSequence xs.getLast? ↔ s.operandNeeded = true ∧ s.fresh = false := by
  rw [hs.operand, hs.fresh]
  rcases List.eq_nil_or_concat' xs with rfl | ⟨ys, y, rfl⟩
  · simp [Symbol.IsOutOfSequence]
  · simp [Symbol.IsOutOfSequence]

lemma Unfinished.justifies (h : s.Unfinished es k) : (Place.symbol .terminator).Justifies o xs k := by
  have hcount := hs.conditionals
  cases h with
  | operand hn hf => exact hs.terminator_isOutOfSequence_iff.2 ⟨hn, hf⟩
  | paren hn hp => exact .inr ⟨rfl, hs.nesting_pos_iff.2 hp⟩
  | conditional hn hp hc => exact .inr ⟨rfl, hs.nesting_eq_zero_iff.2 hp, by omega⟩
  | count hn hp hc hd => exact .inr ⟨rfl, hs.nesting_eq_zero_iff.2 hp, by omega⟩

lemma Takes.justifies (h : s.Takes o x es (.error k)) : (Place.symbol x).Justifies o xs k := by
  have hlimit (c : Element → Bool) (hl : o.maxStackDepth ≤ (s.pending.dropWhile c).length) :
      o.maxStackDepth ≤ xs.countP Symbol.waits :=
    hl.trans ((List.length_dropWhile_le ..).trans hs.waiting)
  cases h with
  | misplaced h =>
    refine (hs.isOutOfSequence_iff ?_).2 h
    rintro rfl
    cases h
  | refused hn hv => exact ⟨_, rfl, hv⟩
  | full hx hl =>
    refine ⟨?_, hlimit _ hl⟩
    rcases hx with ⟨-, rfl | ⟨rfl, -⟩⟩ | ⟨-, rfl | ⟨rfl, -⟩⟩ <;> rfl
  | unopened hn hx hp =>
    have h0 : Symbol.nesting xs = 0 := by
      rcases hp with hp | hl
      · exact hs.nesting_eq_zero_iff.2 hp
      · rw [hs.nesting, ← hs.lists, hl]
        rfl
    rcases hx with ⟨rfl, rfl⟩ | ⟨rfl, rfl⟩
    · exact .inl ⟨rfl, h0⟩
    · exact ⟨rfl, h0⟩
  | miscounted hn hx hp => exact .inl ⟨hx, hs.nesting_pos_iff.2 hp⟩
  | unasked hn hc =>
    have hcount := hs.conditionals
    exact .inl ⟨rfl, by omega⟩
  | unended hn hc hl => exact ⟨rfl, hlimit _ hl⟩
  | unfinished h => exact h.justifies hs

lemma Takes.not_isOutOfSequence (h : s.Takes o x es (.ok t)) : ¬ x.IsOutOfSequence xs.getLast? := by
  obtain ⟨hm, hp⟩ := h.passes
  by_cases hx : x = .terminator
  · subst hx
    rw [hs.terminator_isOutOfSequence_iff]
    rintro ⟨hn, hf⟩
    rcases hp.operand with h | h
    · exact Bool.false_ne_true (h.symm.trans hn)
    · exact Bool.false_ne_true (hf.symm.trans h)
  · rw [hs.isOutOfSequence_iff hx, hm]
    exact Bool.false_ne_true

lemma Takes.not_justifies (h : s.Takes o x es (.ok t)) (ha : k ≠ .argumentCount)
    (hd : k ≠ .expressionTooComplex) : ¬ (Place.symbol x).Justifies o xs k := by
  have hcount := hs.conditionals
  have hp := h.passes.2
  intro hj
  cases k with
  | missingOperand => exact h.not_isOutOfSequence hs hj
  | unknownToken => exact hj
  | argumentCount => exact ha rfl
  | expressionTooComplex => exact hd rfl
  | extraCloseParen =>
    obtain ⟨rfl, h0⟩ := hj
    exact hp (hs.nesting_eq_zero_iff.1 h0)
  | unbalancedParen =>
    rcases hj with ⟨rfl, h0⟩ | ⟨rfl, h0⟩
    · exact hp (hs.nesting_eq_zero_iff.1 h0)
    · exact hs.nesting_pos_iff.1 h0 hp.pending
  | unbalancedConditional =>
    rcases hj with ⟨rfl, heq⟩ | ⟨rfl, -, hlt⟩
    · have hc : s.openConditionals ≠ 0 := hp
      omega
    · have hc := hp.conditionals
      omega
  | badLiteral =>
    obtain ⟨n, rfl, hv⟩ := hj
    exact hp hv

end Seen

end State

namespace Place

variable {before after : List Lexeme} {stop : Lexeme.Stop} {x : Lexeme} {p q : Nat} {here : Place}

lemma offsets_split (h : (Lexeme.offsets (before ++ after, stop)).Pairwise (· < ·))
    (hp : (Lexeme.offsets (after, stop)).head? = some p) :
    (∀ y ∈ before, y.token.position < p) ∧ ∀ q ∈ Lexeme.offsets (after, stop), p ≤ q := by
  have hsplit : Lexeme.offsets (before ++ after, stop) =
      before.map (fun x => x.token.position) ++ Lexeme.offsets (after, stop) := by
    simp [Lexeme.offsets]
  obtain ⟨tail, htail⟩ := List.head?_eq_some_iff.1 hp
  rw [hsplit, List.pairwise_append, htail, List.pairwise_cons] at h
  obtain ⟨-, ⟨hle, -⟩, hlt⟩ := h
  refine ⟨fun y hy => hlt _ (List.mem_map_of_mem hy) p List.mem_cons_self, ?_⟩
  rw [htail]
  exact List.forall_mem_cons.2 ⟨le_rfl, fun q hq => (hle q hq).le⟩

lemma symbolsBefore_append (h : (Lexeme.offsets (before ++ after, stop)).Pairwise (· < ·))
    (hp : (Lexeme.offsets (after, stop)).head? = some p) :
    symbolsBefore (before ++ after, stop) p = before.map Lexeme.symbol := by
  obtain ⟨hb, hle⟩ := offsets_split h hp
  have ha (y : Lexeme) (hy : y ∈ after) : p ≤ y.token.position :=
    hle _ (List.mem_append_left _ (List.mem_map_of_mem hy))
  rw [symbolsBefore, List.filter_append, List.filter_eq_self.2 (by simpa using hb),
    List.filter_eq_nil_iff.2 (by simpa using ha), List.append_nil]

lemma exists_of_mem_all (h : (q, here) ∈ all (before ++ after, stop)) (hq : q < p)
    (ha : ∀ r ∈ Lexeme.offsets (after, stop), p ≤ r) :
    ∃ y ∈ before, y.token.position = q ∧ here = .symbol y.symbol := by
  have hlater (hr : q ∈ Lexeme.offsets (after, stop)) : False := Nat.not_le.2 hq (ha q hr)
  simp only [all, List.map_append, List.mem_append, List.mem_map, Prod.mk.injEq, List.mem_singleton] at h
  rcases h with (⟨y, hy, rfl, rfl⟩ | ⟨y, hy, rfl, -⟩) | ⟨rfl, -⟩
  · exact ⟨y, hy, rfl, rfl⟩
  · exact (hlater (List.mem_append_left _ (List.mem_map_of_mem hy))).elim
  · exact (hlater (List.mem_append_right _ List.mem_cons_self)).elim

end Place

namespace Compilation

open State

variable {o : Options} {lexemes : List Lexeme × Lexeme.Stop} {before after : List Lexeme}
  {stop : Lexeme.Stop} {t : State} {es : List Emission} {p : Nat} {e : CompileError}

lemma tracks_of_reaches (hr : Reaches o {} (before.map Lexeme.symbol) t es)
    (hx : ∀ x ∈ before ++ after, x.symbol.Regular) :
    t.Tracks (Symbol.current (before.map Lexeme.symbol)) :=
  hr.tracks (List.forall_mem_map.2 fun x h => hx x (List.mem_append_left _ h))

lemma not_seenAt (hr : Reaches o {} (before.map Lexeme.symbol) t es)
    (hx : ∀ x ∈ before ++ after, x.symbol.Regular)
    (hoff : (Lexeme.offsets (before ++ after, stop)).Pairwise (· < ·))
    (hp : (Lexeme.offsets (after, stop)).head? = some p) {q : Nat} (hq : q < p) {k : ErrorKind}
    (ha : k ≠ .argumentCount) (hd : k ≠ .expressionTooComplex) :
    ¬ SeenAt o (before ++ after, stop) q k := by
  rintro ⟨here, hmem, hj⟩
  obtain ⟨y, hy, rfl, rfl⟩ := Place.exists_of_mem_all hmem hq (Place.offsets_split hoff hp).2
  obtain ⟨earlier, later, rfl⟩ := List.append_of_mem hy
  rw [List.append_assoc] at hoff hj hx
  rw [Place.symbolsBefore_append hoff rfl] at hj
  rw [List.map_append, List.map_cons] at hr
  obtain ⟨s, fs, gs, hs, hrest⟩ := hr.exists_split
  cases hrest with
  | cons hstep _ => exact (takes_of_gives hstep).not_justifies (tracks_of_reaches hs hx) ha hd hj

lemma seenAt_of_justifies {here : Place} {k : ErrorKind}
    (hj : here.Justifies o (Symbol.current (before.map Lexeme.symbol)) k)
    (hoff : (Lexeme.offsets (before ++ after, stop)).Pairwise (· < ·))
    (hp : (Lexeme.offsets (after, stop)).head? = some p)
    (hmem : (p, here) ∈ Place.all (before ++ after, stop)) : SeenAt o (before ++ after, stop) p k :=
  ⟨here, hmem, by rwa [Place.symbolsBefore_append hoff hp]⟩

lemma Ends.seenAt (h : Ends o lexemes (.error e) es) (hx : ∀ x ∈ lexemes.1, x.symbol.Regular)
    (hoff : (Lexeme.offsets lexemes).Pairwise (· < ·)) :
    SeenAt o lexemes e.position e.kind ∧ ∀ q < e.position, ∀ k, k ≠ .argumentCount →
      k ≠ .expressionTooComplex → ¬ SeenAt o lexemes q k := by
  cases h with
  | refused hr hraise =>
    have hj := (takes_of_raises hraise).justifies (tracks_of_reaches hr hx)
    refine ⟨seenAt_of_justifies hj hoff rfl ?_, fun q hq k => not_seenAt hr hx hoff rfl hq⟩
    exact List.mem_append_left _ (List.mem_map.2 ⟨_, by simp, rfl⟩)
  | @unknown xs p t _ hr =>
    rw [← List.append_nil xs] at hoff hx ⊢
    have hj : Place.unknown.Justifies o (Symbol.current (xs.map Lexeme.symbol)) .unknownToken := rfl
    refine ⟨seenAt_of_justifies hj hoff rfl ?_, fun q hq k => not_seenAt hr hx hoff rfl hq⟩
    exact List.mem_append_right _ List.mem_cons_self
  | @unfinished xs p _ _ _ _ hr hraise =>
    rw [← List.append_nil xs] at hoff hx ⊢
    have hj := (Unfinished.of_raises hraise).justifies (tracks_of_reaches hr hx) (o := o)
    refine ⟨seenAt_of_justifies hj hoff rfl ?_, fun q hq k => not_seenAt hr hx hoff rfl hq⟩
    exact List.mem_append_right _ List.mem_cons_self

lemma ends_of_failure {expression : String} {f : Failure} (h : compile o expression = .failure f) :
    Ends o (Lexeme.ofExpression expression) (.error f.error) (ofExpression o expression).emissions := by
  obtain ⟨-, hr, -⟩ := compile_eq_failure_iff.1 h
  rw [← hr]
  exact ends_ofExpression o expression

end Compilation

/-- A violation that is reported can be seen at its offset, from the lexemes of the current expression
alone, and none can be seen before it. -/
theorem compile_failure_seenAt (o : Options) (expression : String) (f : Failure)
    (h : compile o expression = .failure f) :
    SeenAt o (Lexeme.ofExpression expression) f.error.position f.error.kind ∧
      ∀ q < f.error.position, ∀ k, k ≠ .argumentCount → k ≠ .expressionTooComplex →
        ¬ SeenAt o (Lexeme.ofExpression expression) q k := by
  have hends := Compilation.ends_of_failure h
  exact hends.seenAt (fun x => Lexeme.regular_of_mem) (Lexeme.pairwise_offsets expression)

theorem compile_failure_seenAt_extra :
    compile {} "A;B+C)*D" = .failure ⟨⟨.extraCloseParen, 5⟩, [0, 0, 126, 1, 1, 1, 2, 16]⟩ ∧
      SeenAt {} (Lexeme.ofExpression "A;B+C)*D") 5 .extraCloseParen ∧
      ¬ SeenAt {} (Lexeme.ofExpression "A;B+C)*D") 1 .missingOperand := by
  have h : compile {} "A;B+C)*D" =
      .failure ⟨⟨.extraCloseParen, 5⟩, [0, 0, 126, 1, 1, 1, 2, 16]⟩ := by
    decide +kernel
  obtain ⟨hseen, hfirst⟩ := compile_failure_seenAt {} "A;B+C)*D" _ h
  exact ⟨h, hseen, hfirst 1 (by decide) .missingOperand (by decide) (by decide)⟩

end FormulaCode
