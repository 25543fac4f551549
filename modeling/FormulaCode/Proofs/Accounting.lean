import FormulaCode.Proofs.Correctness
import FormulaCode.Proofs.Levels

namespace FormulaCode

/-- Along the code, in the order in which it is emitted, the depth that is tallied is the number of values
with which the code that is left is secure. -/
inductive Exact : Bool → Nat → List Instruction → Prop
  | stop (empty : Bool) : Exact empty (remains empty) []
  | cons {empty : Bool} {n m : Nat} {i : Instruction} {code : List Instruction}
    (hs : Secure empty (i :: code) n) (hd : Emission.depthAfter n (.ofInstruction i) = m)
    (h : Exact (i = .endExpr) m code) : Exact empty n (i :: code)

lemma Instruction.stackEffect_of_arity {i : Instruction} {a : Nat} (h : i.arity? = some a) :
    i.opcode.stackEffect = 1 - a := by
  cases i <;> cases h <;> rfl

namespace Exact

variable {empty : Bool} {n : Nat} {i : Instruction} {code target : List Instruction}

lemma secure (h : Exact empty n code) : Secure empty code n := by
  cases h with
  | stop => exact .stop empty
  | cons hs => exact hs

lemma operation {a : Nat} (ha : i.arity? = some a) (h : Exact false (n + 1) code) :
    Exact empty (n + a) (i :: code) := by
  have hi : i ≠ .endExpr := Instruction.ne_of_arity ha rfl
  refine .cons (.operation ha h.secure) (m := n + 1) ?_ (by simpa [hi] using h)
  rw [Emission.depthAfter_ofInstruction hi, i.stackEffect_of_arity ha]
  push_cast
  ring

lemma branchIf (ht : skipTo .branchElse 0 code = some target) (hj : Secure false target n)
    (h : Exact false n code) : Exact empty (n + 1) (.branchIf :: code) := by
  refine .cons (.branchIf ht h.secure hj) (m := n) ?_ (by simpa using h)
  rw [Emission.depthAfter_ofInstruction (by simp), Nat.cast_succ]
  exact add_neg_cancel_right (n : Int) 1

lemma branchElse (hj : Lands .branchEnd code 0 (n + 1)) (h : Exact false n code) :
    Exact empty (n + 1) (.branchElse :: code) := by
  refine .cons (Secure.branchElse_iff.2 hj) (m := n) ?_ (by simpa using h)
  rw [Emission.depthAfter_ofInstruction (by simp), Nat.cast_succ]
  exact add_neg_cancel_right (n : Int) 1

lemma branchEnd (h : Exact false n code) : Exact empty n (.branchEnd :: code) := by
  refine .cons (.branchEnd h.secure) (m := n) ?_ (by simpa using h)
  rw [Emission.depthAfter_ofInstruction (by simp)]
  exact add_zero _

lemma endExpr (h : Exact true 0 code) : Exact empty (remains empty) (.endExpr :: code) :=
  .cons (.endExpr h.secure) (m := 0) rfl (by simpa using h)

lemma replicate (h : Exact false n code) (m : Nat) :
    Exact false n (List.replicate m .branchEnd ++ code) := by
  induction m with
  | zero => exact h
  | succ m ih => exact ih.branchEnd

lemma lands_replicate (h : Exact false n code) {i m : Nat} (hi : i < m) :
    Lands .branchEnd (List.replicate m .branchEnd ++ code) i n :=
  ⟨_, skipTo_branchEnd_inside hi code, (h.replicate _).secure⟩

lemma secure_after (before : List Instruction) {passed rest : List Instruction}
    (h : Exact empty n (passed ++ rest)) (hb : startsAfter before = empty) :
    ∃ m : Nat, State.depthOf n (passed.map .ofInstruction) = m ∧
      Secure (startsAfter (before ++ passed)) rest m := by
  induction passed generalizing empty n before with
  | nil =>
    rw [List.append_nil, hb]
    exact ⟨n, rfl, h.secure⟩
  | cons i passed ih =>
    cases h with
    | cons hs hd h =>
      obtain ⟨m, hm, hsec⟩ := ih (before ++ [i]) h (by simp [startsAfter])
      refine ⟨m, ?_, ?_⟩
      · rw [← hm, ← hd]
        rfl
      · rwa [List.append_cons]

end Exact

namespace Formula

variable {policy : LiteralPolicy} {p : Nat}

lemma exact_main (e : Formula policy p) {empty : Bool} {n : Nat} {k : List Instruction}
    (h : Exact false (n + 1) k) (hk : ∀ i < e.ends, Lands .branchEnd k i (n + 1)) :
    Exact empty n (e.main ++ k) := by
  induction e generalizing empty n k with
  | atom a => exact .operation (Phrase.arity_atom a) h
  | apply f e ih =>
    rw [main, List.append_assoc]
    refine ih (.operation (a := 1) rfl h) ?_
    rw [e.ends_eq_zero (by decide)]
    exact fun i hi => absurd hi i.not_lt_zero
  | call f a b iha ihb =>
    simp only [main, List.append_assoc]
    have hcall : Exact false (n + 1 + 1) (.binary f.op :: k) := .operation (a := 2) (n := n) rfl h
    have hb : Exact false (n + 1) (b.main ++ (List.replicate b.ends .branchEnd ++ .binary f.op :: k)) :=
      ihb (hcall.replicate b.ends) fun i => hcall.lands_replicate
    exact iha (hb.replicate a.ends) fun i => hb.lands_replicate
  | paren e ih =>
    rw [main, List.append_assoc]
    exact ih (h.replicate e.ends) fun i => h.lands_replicate
  | binary f l r hl hr ihl ihr =>
    have hp := f.priority_pos
    simp only [main, List.append_assoc]
    have hop : Exact false (n + 1 + 1) (.binary f.op :: k) := .operation (a := 2) (n := n) rfl h
    refine ihl (ihr hop ?_) ?_
    · rw [r.ends_eq_zero (by omega)]
      exact fun i hi => absurd hi i.not_lt_zero
    · rw [l.ends_eq_zero (by omega)]
      exact fun i hi => absurd hi i.not_lt_zero
  | conditional c t e hc ihc iht ihe =>
    simp only [main, List.append_assoc, List.cons_append]
    have hends (i : Nat) (hi : i < t.ends + 1) : Lands .branchEnd (e.main ++ k) i (n + 1) := by
      rw [Lands, skipTo_branchEnd_main]
      exact hk (i + e.ends) (by simp only [ends]; omega)
    -- In the order of emission the second branch starts at the height of the first.
    have he : Exact false n (e.main ++ k) := ihe h fun i hi => hk i (by simp only [ends]; omega)
    have helse : Exact false (n + 1) (.branchElse :: (e.main ++ k)) := .branchElse (hends 0 (by omega)) he
    have ht : Exact false n (t.main ++ .branchElse :: (e.main ++ k)) :=
      iht helse fun i hi => (lands_cons (by decide) (by decide)).2 (hends i (by omega))
    refine ihc (.branchIf (t.skipTo_branchElse_over _) he.secure ht) ?_
    rw [c.ends_eq_zero hc]
    exact fun i hi => absurd hi i.not_lt_zero

lemma exact_code (e : Formula policy p) {empty : Bool} {n : Nat} {k : List Instruction}
    (h : Exact false (n + 1) k) : Exact empty n (e.code ++ k) := by
  rw [code, List.append_assoc]
  exact e.exact_main (h.replicate e.ends) fun i => h.lands_replicate

end Formula

lemma exact_joined {codes : List (List Instruction)}
    (h : ∀ c ∈ codes, c = [] ∨ ∀ k, Exact false 1 k → Exact true 0 (c ++ k)) :
    Exact true 0 (joined codes) := by
  induction codes with
  | nil => exact .stop true
  | cons c codes ih =>
    obtain ⟨hc, hcodes⟩ := List.forall_mem_cons.1 h
    have hnext (k : List Instruction) (hf : Exact false 1 k) (ht : Exact true 0 k) :
        Exact true 0 (c ++ k) := by
      rcases hc with rfl | hc
      · exact ht
      · exact hc k hf
    cases codes with
    | nil =>
      rw [joined_singleton, ← List.append_nil c]
      exact hnext [] (.stop false) (.stop true)
    | cons d codes =>
      have hd := ih hcodes
      rw [joined_cons_cons]
      exact hnext _ hd.endExpr hd.endExpr

lemma Series.exact_code {policy : LiteralPolicy} (es : Series policy) : Exact true 0 es.code := by
  refine exact_joined fun c hc => ?_
  obtain ⟨e, -, rfl⟩ := List.mem_map.1 hc
  cases e with
  | none => exact .inl rfl
  | some e => exact .inr fun k hk => e.2.exact_code hk

namespace Tally

lemma depth_foldl (t : Tally) (es : List Emission) :
    (es.foldl add t).depth = State.depthOf t.depth es := by
  induction es generalizing t with
  | nil => rfl
  | cons e es ih => exact ih (t.add e)

lemma highest_le_foldl (t : Tally) (es : List Emission) : t.highest ≤ (es.foldl add t).highest := by
  induction es generalizing t with
  | nil => exact le_refl _
  | cons e es ih => exact (le_max_left _ _).trans (ih (t.add e))

lemma depth_take_le {t : Tally} (h : t.depth ≤ t.highest) (es : List Emission) (i : Nat) :
    ((es.take i).foldl add t).depth ≤ (es.foldl add t).highest := by
  induction es generalizing t i with
  | nil => simpa using h
  | cons e es ih =>
    cases i with
    | zero => exact h.trans (highest_le_foldl t (e :: es))
    | succ i => exact ih (t := t.add e) (le_max_right _ _) i

end Tally

lemma Program.length_stack {p : Program} (h : Exact true 0 p.body) {values : List Float} {m : Machine}
    (hm : Relation.ReflTransGen (fun m n : Machine => m.step values = .run n) { code := p.body } m) :
    ∃ i ≤ p.body.length, m.code = p.body.drop i ∧
      (m.stack.length : Int) = (Tally.ofList ((p.body.map .ofInstruction).take i)).depth := by
  have ho : m.InOrder p := by
    induction hm with
    | refl => exact ⟨[], rfl, h.secure⟩
    | tail _ hs ih => exact ih.step hs
  obtain ⟨passed, hp, hsec⟩ := ho
  rw [hp] at h
  obtain ⟨n, hn, hs⟩ := h.secure_after [] rfl
  refine ⟨passed.length, by simp [hp], by simp [hp], ?_⟩
  rw [hsec.unique hs, ← hn, hp, List.map_append, List.take_left' (List.length_map _), Tally.ofList,
    Tally.depth_foldl]
  rfl

lemma emissions_of_compile {o : Options} {expression : String} {p : Program}
    (h : compile o expression = .program p) :
    (Compilation.ofExpression o expression).emissions = p.body.map .ofInstruction := by
  obtain ⟨-, hr, hp⟩ := compile_eq_program_iff.1 h
  obtain ⟨-, es, -, he⟩ := Compilation.accepted_of_result hr
  rw [Compilation.program_of_emissions he] at hp
  cases hp
  exact he

/-- A text of formulas compiles if nothing limits it. Whenever it does, the code is emitted one instruction
after the other, and each run of the program has at the `i`th instruction the depth that is tallied for the
first `i`, hence never more values than the greatest depth. -/
theorem length_stack_eq_depth {o : Options} {text : String} {es : Series o.literalPolicy} (hne : es ≠ [])
    (hs : Spells text es.yield) :
    (Text.byteLength text.toList < 2 ^ 31 → Text.byteLength text.toList ≤ o.maxStackDepth →
        ∃ p, compile o text = .program p) ∧
      ∀ p, compile o text = .program p →
        (Compilation.ofExpression o text).emissions = p.body.map .ofInstruction ∧
        ∀ values m, Relation.ReflTransGen (fun m n : Machine => m.step values = .run n) { code := p.body } m →
          (∃ i ≤ p.body.length, m.code = p.body.drop i ∧ (m.stack.length : Int) =
            (Tally.ofList ((Compilation.ofExpression o text).emissions.take i)).depth) ∧
          (m.stack.length : Int) ≤ (Compilation.ofExpression o text).tally.highest := by
  refine ⟨fun hb hd => ⟨_, compile_series hne hs hb hd⟩, fun p h => ?_⟩
  have he := emissions_of_compile h
  refine ⟨he, fun values m hm => ?_⟩
  have hx : Exact true 0 p.body := body_of_spells h hne hs ▸ es.exact_code
  obtain ⟨i, hi, hc, hl⟩ := Program.length_stack hx hm
  rw [he]
  refine ⟨⟨i, hi, hc, hl⟩, ?_⟩
  rw [hl, Compilation.tally, he]
  exact Tally.depth_take_le (le_refl _) _ i

theorem length_stack_eq_depth_nested :
    (∃ p, compile {} "A>0.5?B-2*SIN(C)^2?MAX(B,PI):-D:E;" = .program p) ∧
    ∀ p, compile {} "A>0.5?B-2*SIN(C)^2?MAX(B,PI):-D:E;" = .program p → ∀ values m,
      Relation.ReflTransGen (fun m n : Machine => m.step values = .run n) { code := p.body } m →
        (m.stack.length : Int) ≤ 4 := by
  have hs : Spells "A>0.5?B-2*SIN(C)^2?MAX(B,PI):-D:E;" (Series.yield [some ⟨0, Formula.nested⟩, none]) :=
    ⟨by decide +kernel, 34, by decide +kernel⟩
  obtain ⟨hc, hp⟩ := length_stack_eq_depth (o := {}) (by simp) hs
  refine ⟨hc (by decide) (by decide), fun p h values m hm => ?_⟩
  have hbound := ((hp p h).2 values m hm).2
  have hhighest : (Compilation.ofExpression {} "A>0.5?B-2*SIN(C)^2?MAX(B,PI):-D:E;").tally.highest = 4 := by
    decide +kernel
  rwa [hhighest] at hbound

end FormulaCode
