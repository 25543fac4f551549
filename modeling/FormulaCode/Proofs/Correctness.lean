import FormulaCode.Proofs.Evaluation
import FormulaCode.Proofs.Trees

namespace FormulaCode

/-- The text has the given lexemes and nothing else but blanks. -/
def Spells (text : String) (symbols : List Symbol) : Prop :=
  (Lexeme.ofExpression text).1.map Lexeme.symbol = symbols ∧
    ∃ p, (Lexeme.ofExpression text).2 = .finish p

lemma compile_series {o : Options} {text : String} {es : Series o.literalPolicy} (hne : es ≠ [])
    (ht : Spells text es.yield) (hb : Text.byteLength text.toList < 2 ^ 31)
    (hd : Text.byteLength text.toList ≤ o.maxStackDepth) :
    compile o text = .program ⟨es.code⟩ := by
  obtain ⟨hs, p, hp⟩ := ht
  have ha := es.accepted hne
  rw [← hs] at ha
  rw [compile_of_accepted hb hd hp ha, es.code_phrases]

lemma body_of_spells {o : Options} {text : String} {p : Program} (h : compile o text = .program p)
    {es : Series o.literalPolicy} (hne : es ≠ []) (hs : Spells text es.yield) : p.body = es.code := by
  obtain ⟨-, fs, ha, rfl⟩ := accepted_of_compile h
  rw [hs.1] at ha
  obtain rfl := ha.unique (es.accepted hne)
  exact es.code_phrases

lemma Formula.evaluate_code {policy : LiteralPolicy} {p : Nat} (e : Formula policy p)
    (values : List Float) : Program.evaluate ⟨e.code⟩ values = e.eval values := by
  have hrun : (Machine.mk (e.code ++ []) [] 0.0).run values = _ := run_code e [] [] 0.0
  have hend (x : Float) : (Machine.mk [] [x] 0.0).run values = .ok x := by
    rw [Machine.run_eq]
    rfl
  rw [List.append_nil] at hrun
  rw [Program.evaluate, hrun]
  simp only [hend]
  exact bind_pure (e.eval values)

/-- The program for the text of a formula has the value of the formula, and faults where the formula has
none. -/
theorem evaluate_compile_eq_eval {o : Options} {p : Nat} (e : Formula o.literalPolicy p) {text : String}
    (ht : Spells text e.yield) (hb : Text.byteLength text.toList < 2 ^ 31)
    (hd : Text.byteLength text.toList ≤ o.maxStackDepth) :
    ∃ program, compile o text = .program program ∧
      ∀ values, program.evaluate values = e.eval values := by
  let es : Series o.literalPolicy := [some ⟨p, e⟩]
  have hy : es.yield = e.yield := by simp [es, Series.yield, List.intercalate]
  have hc : es.code = e.code := by simp [es, Series.code, joined, List.intercalate]
  refine ⟨⟨e.code⟩, ?_, e.evaluate_code⟩
  rw [← hc]
  exact compile_series (List.cons_ne_nil _ _) (hy ▸ ht) hb hd

def Formula.nested : Formula (Options.literalPolicy {}) 0 :=
  let half : Atom .strict := .numeral ⟨['0'], some ['5'], none⟩ ⟨0x3FE0000000000000⟩ (by decide +kernel)
  let two : Atom .strict := .numeral ⟨['2'], none, none⟩ ⟨0x4000000000000000⟩ (by decide +kernel)
  let sine := .apply ⟨.function "SIN" (.unary .sin), .sin, by decide, rfl, rfl⟩ (.paren (.atom (.letter 2)))
  let power : BinaryForm := ⟨.operator "^" 6 .pow, .pow, by decide, rfl, rfl⟩
  let times : BinaryForm := ⟨.operator "*" 5 .mul, .mul, by decide, rfl, rfl⟩
  let greater : BinaryForm := ⟨.operator ">" 3 .gt, .gt, by decide, rfl, rfl⟩
  let larger : PairForm := ⟨.function "MAX" (.binary .max), .max, by decide, rfl, rfl⟩
  let square := .binary power sine (.atom two) (by decide) (by decide)
  let twice := .binary times (.atom two) square (by decide) (by decide)
  .conditional
    (.binary greater (.atom (.letter 0)) (.atom half) (by decide) (by decide))
    (.conditional
      (.binary .subtract (.atom (.letter 1)) twice (by decide) (by decide))
      (.call larger (.atom (.letter 1)) (.atom (.constant .pi)))
      (.apply .negate (.atom (.letter 3))) (by decide))
    (.atom (.letter 4)) (by decide)

theorem evaluate_compile_nested : Spells "A>0.5?B-2*SIN(C)^2?MAX(B,PI):-D:E" Formula.nested.yield ∧
    ∃ program, compile {} "A>0.5?B-2*SIN(C)^2?MAX(B,PI):-D:E" = .program program ∧
      ∀ values, program.evaluate values = Formula.nested.eval values := by
  have ht : Spells "A>0.5?B-2*SIN(C)^2?MAX(B,PI):-D:E" Formula.nested.yield :=
    ⟨by decide +kernel, 33, by decide +kernel⟩
  exact ⟨ht, evaluate_compile_eq_eval Formula.nested ht (by decide) (by decide)⟩

end FormulaCode
