import FormulaCode.Proofs.Outcome

namespace FormulaCode

variable {o : Options} {expression : String}

def State.Bounded (k : Nat) (s : State) : Prop :=
  |s.depth| ≤ k ∧ ∀ l ∈ s.lists, |l.base| ≤ k ∧ 0 ≤ l.separated ∧ l.separated ≤ k

lemma State.Within.bounded {k : Nat} {s : State} (h : s.Within k) : s.Bounded k := by
  have hn := h.debt_nonneg
  have hl := h.le_depth
  refine ⟨abs_le.2 ⟨by omega, h.depth_le⟩, fun l hm => ?_⟩
  obtain ⟨hb, hs, hk, hsum⟩ := h.lists l hm
  exact ⟨abs_le.2 ⟨hb, by omega⟩, hs, hk⟩

lemma bounded_run {xs : List Lexeme} {s : State}
    (hx : xs <+: (Lexeme.ofExpression expression).1) (hs : (State.run o {} xs).2 = .ok s) :
    s.Bounded xs.length := by
  have hm := State.meets_run o State.within_start xs
    fun x hm => Compilation.known_lexemes expression x (hx.subset hm)
  simpa using (hm.2 s hs).1.bounded

lemma State.openConditionals_of_colon {s s' : State} (h : (s.step o .colon).result = .ok s') :
    s.openConditionals = s'.openConditionals + 1 := by
  obtain ⟨es, ht⟩ : ∃ es, s.Takes o .colon es (.ok s') := ⟨_, takes_of_gives ⟨h, rfl⟩⟩
  cases ht with
  | binary hn hj => rcases hj with hj | ⟨hj, -⟩ <;> cases hj
  | unary hn hp => rcases hp with hp | ⟨hp, -⟩ <;> cases hp
  | colon hn hc hl => exact (Nat.succ_pred_eq_of_ne_zero hc).symm

lemma outcome_of_breaches (h : (Compilation.ofExpression o expression).breaches = []) :
    (∃ p, compile o expression = .program p) ∨ ∃ f, compile o expression = .failure f := by
  rw [compile, Compilation.outcome, h]
  cases hr : (Compilation.ofExpression o expression).result with
  | error e => exact .inr ⟨_, rfl⟩
  | ok u =>
    obtain ⟨-, es, -, he⟩ := Compilation.accepted_of_result hr
    rw [Compilation.program_of_emissions he]
    exact .inl ⟨_, rfl⟩

lemma reservation?_eq (h : Text.byteLength expression.toList < 2 ^ 31) :
    reservation? (Text.byteLength expression.toList) =
      some (capacityBound (Text.byteLength expression.toList)) := by
  refine if_pos ?_
  rw [capacityBound, Nat.pow_eq]
  omega

/-- Compiling ends with a program or a failure. No check of the compiler on itself fails, the capacity to
reserve fits a word, the counters stay as small as the number of lexemes, no conditional closes that is not
open, and every slice starts and ends between characters. -/
theorem compile_total (o : Options) (expression : String)
    (h : Text.byteLength expression.toList < 2 ^ 31) :
    ((∃ p, compile o expression = .program p) ∨ ∃ f, compile o expression = .failure f) ∧
      (Compilation.ofExpression o expression).breaches = [] ∧
      reservation? (Text.byteLength expression.toList) =
        some (capacityBound (Text.byteLength expression.toList)) ∧
      (∀ xs s, xs <+: (Lexeme.ofExpression expression).1 → (State.run o {} xs).2 = .ok s →
        s.Bounded xs.length) ∧
      (∀ s s' : State, (s.step o .colon).result = .ok s' →
        s.openConditionals = s'.openConditionals + 1) ∧
      (∀ x ∈ (Lexeme.ofExpression expression).1,
        Text.slice? (Text.upper expression.toList) x.token.position x.token.length =
            some x.token.text ∧
          ∀ n, x.symbol = .numeral n →
            Numeral.scanAt? (Text.upper expression.toList) x.token.position = some n ∧
              Text.slice? (Text.upper expression.toList) x.token.position n.text.length =
                some n.text) ∧
      (Text.dropBytes? (Lexeme.ofExpression expression).2.position
        (Text.upper expression.toList)).isSome = true := by
  have hb := Compilation.breaches_eq_nil o h
  refine ⟨outcome_of_breaches hb, hb, reservation?_eq h, fun xs s => bounded_run,
    fun s s' => State.openConditionals_of_colon, fun x hx => ?_,
    Lexeme.dropBytes?_stop_ofExpression expression⟩
  have ho := Lexeme.occurs_of_mem_ofExpression hx
  exact ⟨ho.slice_token, fun n => ho.scan_numeral⟩

theorem compile_total_unfinished :
    Text.byteLength "max(a?-(1.5e,b,c),d é".toList < 2 ^ 31 ∧
      ((∃ p, compile ⟨80, .zeroOnError⟩ "max(a?-(1.5e,b,c),d é" = .program p) ∨
        ∃ f, compile ⟨80, .zeroOnError⟩ "max(a?-(1.5e,b,c),d é" = .failure f) ∧
      (Compilation.ofExpression ⟨80, .zeroOnError⟩ "max(a?-(1.5e,b,c),d é").breaches = [] := by
  have h := compile_total ⟨80, .zeroOnError⟩ "max(a?-(1.5e,b,c),d é" (by decide)
  exact ⟨by decide, h.1, h.2.1⟩

end FormulaCode
