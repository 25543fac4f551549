import FormulaCode.Proofs.Diagnostics
import FormulaCode.Proofs.Sequence

namespace FormulaCode

variable {o o' : Options} {expression : String} {lexemes : List Lexeme × Lexeme.Stop} {p : Nat}

section Relaxed

lemma Shadows.quiet {events events' : List Event} (h : Shadows events events') (hq : Quiet events') :
    Quiet events where
  told b hb := hq.told b (h.breaches b hb)
  inRange := by
    obtain ⟨later, hl⟩ := h.emissions
    have hr := hq.inRange
    rw [← hl, inRange_append] at hr
    exact hr.1

lemma State.relaxes_complete (h : o.Relaxes o') (s : State) (xs : List Lexeme) (stop : Lexeme.Stop) :
    s.complete o' xs stop = s.complete o xs stop ∨
      (∃ e, (s.complete o xs stop).2 = .error e ∧ e.kind.IsStrictness) ∧
        Shadows (s.complete o xs stop).1 (s.complete o' xs stop).1 := by
  rcases relaxes_run h s xs with hr | ⟨⟨e, he, hk⟩, hs⟩
  · left
    rw [complete, complete, hr]
  · right
    rw [complete_of_error (Prod.ext rfl he)]
    refine ⟨⟨e, rfl, hk⟩, ?_⟩
    cases hr : s.run o' xs with
    | mk events result =>
      rw [hr] at hs
      cases result with
      | error e' =>
        rw [complete_of_error hr]
        exact hs
      | ok t =>
        rw [complete_of_ok hr]
        exact hs.append_right _

lemma Compilation.relaxes_ofExpression (h : o.Relaxes o') (expression : String) :
    ofExpression o' expression = ofExpression o expression ∨
      (∃ e, (ofExpression o expression).result = .error e ∧ e.kind.IsStrictness) ∧
        Shadows (ofExpression o expression).events (ofExpression o' expression).events := by
  cases hl : Lexeme.ofExpression expression with
  | mk xs stop =>
    rw [ofExpression_eq_complete hl, ofExpression_eq_complete hl]
    rcases State.relaxes_complete h {} xs stop with hc | hc
    · left
      rw [hc]
    · exact .inr hc

lemma compile_of_breaches (h : (Compilation.ofExpression o expression).breaches ≠ []) :
    compile o expression = .breach .counterRange := by
  obtain ⟨b, bs, hb⟩ := List.exists_cons_of_ne_nil h
  have hmem : b ∈ (Compilation.ofExpression o expression).breaches := by
    rw [hb]
    exact List.mem_cons_self
  rw [compile, Compilation.outcome, hb, ← (Compilation.counterRange_of_mem_breaches hmem).1]

lemma compile_of_relaxes (h : o.Relaxes o')
    (hs : ∀ f, compile o expression = .failure f → ¬ f.error.kind.IsStrictness) :
    compile o' expression = compile o expression := by
  rcases Compilation.relaxes_ofExpression h expression with hc | ⟨⟨e, he, hk⟩, hshadows⟩
  · rw [compile, compile, hc]
  -- a text that is cut short can only have failed a check before, which fails in the longer run too
  · have hb : (Compilation.ofExpression o expression).breaches ≠ [] := fun hb =>
      hs ⟨e, _⟩ (compile_eq_failure_iff.2 ⟨hb, he, rfl⟩) hk
    have hb' : (Compilation.ofExpression o' expression).breaches ≠ [] := by
      rw [Ne, Compilation.breaches_eq_nil_iff] at hb ⊢
      exact mt hshadows.quiet hb
    rw [compile_of_breaches hb, compile_of_breaches hb']

end Relaxed

section Wide

lemma not_seenAt_badLiteral (h : o.literalPolicy = .zeroOnError) : ¬ SeenAt o lexemes p .badLiteral := by
  rintro ⟨here, -, hj⟩
  cases here with
  | unknown => cases hj
  | symbol x =>
    obtain ⟨n, -, hv⟩ := hj
    rw [h] at hv
    exact n.valueUnder_zeroOnError hv

lemma lt_length_of_seenAt (h : SeenAt o lexemes p .expressionTooComplex) :
    o.maxStackDepth < lexemes.1.length := by
  obtain ⟨here, hmem, hj⟩ := h
  cases here with
  | unknown => cases hj
  | symbol x =>
    obtain ⟨hw, hle⟩ := hj
    rcases List.mem_append.1 hmem with hmem | hmem
    · obtain ⟨y, hy, hyp⟩ := List.mem_map.1 hmem
      cases hyp
      calc o.maxStackDepth
          ≤ (Symbol.current (Place.symbolsBefore lexemes y.token.position)).countP Symbol.waits := hle
        _ ≤ (Symbol.current (Place.symbolsBefore lexemes y.token.position)).length := List.countP_le_length
        _ ≤ (Place.symbolsBefore lexemes y.token.position).length := (List.rtakeWhile_suffix ..).length_le
        _ < lexemes.1.length := by
          rw [Place.symbolsBefore, List.length_map, List.length_filter_lt_length_iff_exists]
          exact ⟨y, hy, by simp⟩
    · -- at the end of the text nothing is left to wait
      cases hstop : lexemes.2 with
      | unknown q => simp [hstop, Place.ofStop] at hmem
      | finish q =>
        have hx : x = .terminator := by
          simpa [hstop, Place.ofStop] using (Prod.mk.inj (List.mem_singleton.1 hmem)).2
        rw [hx] at hw
        cases hw

lemma seenAt_of_compile {f : Failure} (h : compile o expression = .failure f) :
    SeenAt o (Lexeme.ofExpression expression) f.error.position f.error.kind := by
  have hends := Compilation.ends_of_failure h
  exact (hends.seenAt (fun x => Lexeme.regular_of_mem) (Lexeme.pairwise_offsets expression)).1

end Wide

/-- Unless a text fails because of its options, wider options bring the same out of it. With numerals taken
for zero none is refused, and as many waiting operators as the text has bytes are never too many. -/
theorem compile_relaxed (o : Options) (expression : String) :
    (∀ o' : Options, o.maxStackDepth ≤ o'.maxStackDepth →
      o'.literalPolicy = o.literalPolicy ∨ o'.literalPolicy = .zeroOnError →
      (∀ f, compile o expression = .failure f →
        f.error.kind ≠ .expressionTooComplex ∧ f.error.kind ≠ .badLiteral) →
      compile o' expression = compile o expression) ∧
    (o.literalPolicy = .zeroOnError → ∀ f, compile o expression = .failure f →
      f.error.kind ≠ .badLiteral) ∧
    (Text.byteLength expression.toList ≤ o.maxStackDepth → ∀ f, compile o expression = .failure f →
      f.error.kind ≠ .expressionTooComplex) := by
  refine ⟨fun o' hd hp hs => ?_, fun hp f hf hk => ?_, fun hd f hf hk => ?_⟩
  · exact compile_of_relaxes ⟨hd, hp⟩ fun f hf => not_or.2 (hs f hf)
  · exact not_seenAt_badLiteral hp (hk ▸ seenAt_of_compile hf)
  · have hlt := lt_length_of_seenAt (hk ▸ seenAt_of_compile hf)
    exact Nat.not_le.2 hlt ((Lexeme.length_ofExpression_le expression).trans hd)

theorem compile_relaxed_conditional :
    let f : Failure := ⟨⟨.unbalancedParen, 9⟩, [0, 0, 96, 2, 0, 0, 0, 0, 0, 0, 248, 63, 97, 1, 1, 98]⟩
    compile ⟨3, .strict⟩ "-(A?1.5:B" = .failure f ∧ compile ⟨9, .zeroOnError⟩ "-(A?1.5:B" = .failure f ∧
      f.error.kind ≠ .badLiteral ∧ f.error.kind ≠ .expressionTooComplex := by
  intro f
  have h : compile ⟨3, .strict⟩ "-(A?1.5:B" = .failure f := by decide +kernel
  have hwide : compile ⟨9, .zeroOnError⟩ "-(A?1.5:B" = .failure f := by
    rw [← h]
    refine (compile_relaxed ⟨3, .strict⟩ "-(A?1.5:B").1 ⟨9, .zeroOnError⟩ (by decide) (.inr rfl) ?_
    intro g hg
    cases h.symm.trans hg
    decide
  obtain ⟨-, hliteral, hdepth⟩ := compile_relaxed ⟨9, .zeroOnError⟩ "-(A?1.5:B"
  exact ⟨h, hwide, hliteral rfl f hwide, hdepth (by decide) f hwide⟩

end FormulaCode
