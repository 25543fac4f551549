import FormulaCode.Proofs.Accounting

/-! Which programs of the compiler keep the value stack in order: not all, but those for texts of formulas
do. -/

namespace FormulaCode

lemma Series.secure_code {policy : LiteralPolicy} (es : Series policy) : Secure true es.code 0 :=
  es.exact_code.secure

section Compile

variable {o : Options} {expression : String} {p : Program}

lemma matched_of_compile (h : compile o expression = .program p) : Matched p.body := by
  obtain ⟨-, es, ha, rfl⟩ := accepted_of_compile h
  exact ha.matched

/-- Every jump in a program of the compiler has somewhere to go. The program keeps the value stack in order,
for either outcome of each condition, if and only if one pass over its code finds the same height on all
ways to each place, and then no run of it lacks a value. The programs for texts of formulas are among
these. -/
theorem stackSafe_of_isLevel (h : compile o expression = .program p) :
    (∀ passed code, p.body = passed ++ .branchIf :: code →
        (skipTo .branchElse 0 code).isSome = true) ∧
      (∀ passed code, p.body = passed ++ .branchElse :: code →
        (skipTo .branchEnd 0 code).isSome = true) ∧
      (p.isLevel = true ↔ Secure true p.body 0) ∧
      (p.isLevel = true → ∀ values, p.StackSafe values) ∧
      ∀ es : Series o.literalPolicy, es ≠ [] → Spells expression es.yield → p.isLevel = true := by
  have hm := matched_of_compile h
  have hiff := Program.isLevel_iff hm
  refine ⟨fun passed code hp => ?_, fun passed code hp => ?_, hiff, fun hl => ?_, fun es hne hs => ?_⟩
  · rw [hp] at hm
    exact hm.isSome_branchIf
  · rw [hp] at hm
    exact hm.isSome_branchElse
  · exact Program.stackSafe_of_secure (hiff.1 hl)
  · rw [hiff, body_of_spells h hne hs]
    exact es.secure_code

theorem stackSafe_of_isLevel_parenthesis : ∃ p, compile {} "(A?B):C;MAX(A,B?C:D)" = .program p ∧
    ∀ values, p.StackSafe values := by
  have hp : compile {} "(A?B):C;MAX(A,B?C:D)" = .program ⟨[.fetch 0, .branchIf, .fetch 1, .branchElse,
      .fetch 2, .branchEnd, .endExpr, .fetch 0, .fetch 1, .branchIf, .fetch 2, .branchElse, .fetch 3,
      .branchEnd, .binary .max]⟩ := by
    decide +kernel
  exact ⟨_, hp, (stackSafe_of_isLevel hp).2.2.2.1 (by decide)⟩

theorem compile_not_stackSafe : ∃ p, compile {} "A?MAX(B,C:D)" = .program p ∧ ¬ p.StackSafe [] := by
  refine ⟨⟨[.fetch 0, .branchIf, .fetch 1, .fetch 2, .branchElse, .fetch 3, .branchEnd, .binary .max]⟩,
    by decide +kernel, fun h => ?_⟩
  have hstep : Relation.ReflTransGen (fun m n : Machine => m.step [] = .run n)
      { code := [.fetch 0, .branchIf, .fetch 1, .fetch 2, .branchElse, .fetch 3, .branchEnd, .binary .max] }
      { code := [.binary .max], stack := [0.0] } := by
    refine .head (b := ⟨_, [0.0], 0.0⟩) rfl (.head (b := ⟨[.fetch 3, .branchEnd, .binary .max], [], 0.0⟩) ?_
      (.head (b := ⟨_, [0.0], 0.0⟩) rfl (.single rfl)))
    rfl
  exact (h _ hstep).1 rfl

end Compile

end FormulaCode
