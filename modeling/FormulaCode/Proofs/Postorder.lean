import FormulaCode.Proofs.Correctness
import FormulaCode.Proofs.Grammar

/-! The compiler accepts exactly what the grammar without conditionals derives, and emits the one tree of
each expression in postorder. -/

namespace FormulaCode

variable {policy : LiteralPolicy}

namespace Formula

def postorder {p : Nat} : Formula policy p → List UInt8
  | .atom a => a.instruction.bytes
  | .apply f e => e.postorder ++ [f.op.byte]
  | .call f a b => a.postorder ++ b.postorder ++ [f.op.byte]
  | .paren e => e.postorder
  | .binary f l r _ _ => l.postorder ++ r.postorder ++ [f.op.byte]
  | .conditional c t e _ => c.postorder ++ [Opcode.branchIf.byte] ++ t.postorder ++
    [Opcode.branchElse.byte] ++ e.postorder ++ [Opcode.branchEnd.byte]

lemma ends_of_straight {p : Nat} (e : Formula policy p) (h : e.Straight) : e.ends = 0 := by
  cases e with
  | conditional => exact h.elim
  | _ => rfl

lemma bytes_main {p : Nat} (e : Formula policy p) (h : e.Straight) :
    e.main.flatMap Instruction.bytes = e.postorder := by
  have hop (i : Instruction) (hi : i.operand = .none) :
      [i].flatMap Instruction.bytes = [i.opcode.byte] := by
    simp [Instruction.bytes, hi, Operand.bytes]
  induction e with
  | atom a => simp [main, postorder]
  | apply f e ih =>
    rw [main, List.flatMap_append, ih h, hop _ rfl]
    rfl
  | call f a b iha ihb =>
    rw [main, ends_of_straight a h.1, ends_of_straight b h.2, List.replicate_zero, List.append_nil,
      List.append_nil, List.flatMap_append, List.flatMap_append, iha h.1, ihb h.2, hop _ rfl]
    rfl
  | paren e ih =>
    rw [main, ends_of_straight e h, List.replicate_zero, List.append_nil, ih h]
    rfl
  | binary f l r _ _ ihl ihr =>
    rw [main, List.flatMap_append, List.flatMap_append, ihl h.1, ihr h.2, hop _ rfl]
    rfl
  | conditional => exact h.elim

lemma bytes_code {p : Nat} (e : Formula policy p) (h : e.Straight) :
    e.code.flatMap Instruction.bytes = e.postorder := by
  rw [code, ends_of_straight e h, List.replicate_zero, List.append_nil, bytes_main e h]

end Formula

lemma mem_intercalate {α : Type} {sep : List α} {xs : List (List α)} {x : List α} (hx : x ∈ xs) {a : α}
    (ha : a ∈ x) : a ∈ List.intercalate sep xs := by
  rcases List.eq_nil_or_concat' xs with rfl | ⟨init, y, rfl⟩
  · cases hx
  · rw [intercalate_append_singleton, List.mem_append]
    rcases List.mem_append.1 hx with hx | hx
    · exact .inl (List.mem_flatMap.2 ⟨x, hx, List.mem_append_left _ ha⟩)
    · exact .inr (List.mem_singleton.1 hx ▸ ha)

namespace Series

variable {symbols : List Symbol}

def Straight (es : Series policy) : Prop := ∀ e, some e ∈ es → e.2.Straight

lemma straight_of_yield {es : Series policy} (h : .question ∉ es.yield) : es.Straight := by
  intro e he
  refine e.2.straight_of_yield fun hq => h (mem_intercalate (List.mem_map_of_mem he) hq)

lemma eq_of_phrases {es fs : Series policy} (he : es.Straight) (hf : fs.Straight)
    (h : es.phrases = fs.phrases) : es = fs := by
  induction es generalizing fs with
  | nil => exact (List.map_eq_nil_iff.1 h.symm).symm
  | cons x es ih =>
    obtain ⟨y, fs, rfl, hxy, hrest⟩ := List.map_eq_cons_iff.1 h.symm
    have hx : x = y := by
      cases x with
      | none => exact (Option.map_eq_none_iff.1 hxy).symm
      | some e =>
        obtain ⟨f, rfl, hp⟩ := Option.map_eq_some_iff.1 hxy
        exact congrArg some (Formula.eq_of_phrase e.2 f.2 (he e List.mem_cons_self)
          (hf f List.mem_cons_self) hp.symm)
    rw [hx, ih (fun e h => he e (List.mem_cons_of_mem _ h)) (fun f h => hf f (List.mem_cons_of_mem _ h))
      hrest.symm]

lemma exists_of_accepted {ps : List (Option (Phrase policy))} (h : Accepted policy symbols ps)
    (hq : .question ∉ symbols) (hc : .colon ∉ symbols) : ∃ es : Series policy, es.phrases = ps := by
  have hrange : ps ∈ Set.range (List.map fun e : Option (Σ p, Formula policy p) =>
      e.map fun e => e.2.phrase) := by
    rw [Set.range_list_map]
    intro x hx
    cases x with
    | none => exact ⟨none, rfl⟩
    | some e =>
      obtain ⟨⟨hf, hn, hw⟩, -⟩ := h.closed e hx
      have hm : e.Markless := by
        intro m hm
        have hs : m.symbol ∈ symbols := by
          rw [h.symbols_eq]
          exact List.mem_map_of_mem (f := Word.symbol) (mem_intercalate (List.mem_map_of_mem
            (f := fun e : Option (Phrase policy) => e.elim [] Phrase.words) hx) hm)
        cases m with
        | question => exact hq hs
        | colon => exact hc hs
      obtain ⟨p, f, rfl⟩ := ((Phrase.isFormula_of_markless e hf hm).1 hw).2 hn
      exact ⟨some ⟨p, f⟩, rfl⟩
  exact hrange

lemma yield_of_accepted {es : Series policy} (h : Accepted policy symbols es.phrases) :
    es.yield = symbols := by
  rw [h.symbols_eq, symbols_phrases]

lemma derivesSeries {es : Series policy} (hn : es ≠ []) (h : es.Straight) :
    DerivesSeries policy es.yield := by
  refine ⟨_, by simpa using hn, fun b hb => ?_, rfl⟩
  obtain ⟨x, hx, rfl⟩ := List.mem_map.1 hb
  cases x with
  | none => exact .inl rfl
  | some e => exact .inr (e.2.derives_yield (h e hx)).1

lemma exists_of_derives (h : DerivesSeries policy symbols) :
    ∃ es : Series policy, es ≠ [] ∧ es.yield = symbols := by
  obtain ⟨bs, hn, hb, rfl⟩ := h
  have hrange : bs ∈ Set.range (List.map fun e : Option (Σ p, Formula policy p) =>
      e.elim [] fun e => e.2.yield) := by
    rw [Set.range_list_map]
    intro b hm
    rcases hb b hm with rfl | hd
    · exact ⟨none, rfl⟩
    · obtain ⟨p, e, -, he⟩ := exists_formula hd
      exact ⟨some ⟨p, e⟩, he⟩
  obtain ⟨es, rfl⟩ := hrange
  exact ⟨es, by simpa using hn, rfl⟩

def postorder (es : Series policy) : List UInt8 :=
  List.intercalate [Opcode.endExpr.byte] (es.map fun e => e.elim [] fun e => e.2.postorder) ++
    [Opcode.stop.byte]

lemma bytes_code {es : Series policy} (h : es.Straight) : Program.bytes ⟨es.code⟩ = es.postorder := by
  rw [Program.bytes, code, joined, flatMap_intercalate, List.map_map, postorder]
  congr 2
  refine List.map_congr_left fun x hx => ?_
  cases x with
  | none => rfl
  | some e => exact e.2.bytes_code (h e hx)

end Series

section Compile

variable {o : Options} {text : String}

def Unconditional (text : String) : Prop :=
  ∀ x ∈ (Lexeme.ofExpression text).1, x.symbol ≠ .question ∧ x.symbol ≠ .colon

lemma Unconditional.notMem (h : Unconditional text) {symbols : List Symbol} (hs : Spells text symbols) :
    .question ∉ symbols ∧ .colon ∉ symbols := by
  rw [← hs.1]
  refine ⟨fun hq => ?_, fun hc => ?_⟩
  · obtain ⟨x, hx, hs⟩ := List.mem_map.1 hq
    exact (h x hx).1 hs
  · obtain ⟨x, hx, hs⟩ := List.mem_map.1 hc
    exact (h x hx).2 hs

lemma series_of_compile (h : Unconditional text) {program : Program}
    (hp : compile o text = .program program) : ∃ es : Series o.literalPolicy,
      es ≠ [] ∧ Spells text es.yield ∧ es.Straight ∧ program = ⟨es.code⟩ := by
  obtain ⟨hf, ps, ha, rfl⟩ := accepted_of_compile hp
  obtain ⟨hq, hc⟩ := h.notMem ⟨rfl, hf⟩
  obtain ⟨es, rfl⟩ := Series.exists_of_accepted ha hq hc
  have hy := Series.yield_of_accepted ha
  refine ⟨es, fun hn => ha.ne_nil (by rw [hn]; rfl), ⟨hy.symm, hf⟩,
    Series.straight_of_yield (by rwa [hy]), by rw [es.code_phrases]⟩

lemma series_unique (h : Unconditional text) {es fs : Series o.literalPolicy} (he : es ≠ [])
    (hf : fs ≠ []) (hse : Spells text es.yield) (hsf : Spells text fs.yield) : fs = es := by
  have hy : fs.yield = es.yield := hsf.1.symm.trans hse.1
  have ha := fs.accepted hf
  rw [hy] at ha
  exact Series.eq_of_phrases (Series.straight_of_yield (h.notMem hsf).1)
    (Series.straight_of_yield (h.notMem hse).1) (ha.unique (es.accepted he))

/-- A text without conditionals is accepted if and only if the grammar derives its lexemes. They have one
list of trees, and the program is that list in postorder. -/
theorem compile_iff_derives (h : Unconditional text) (hb : Text.byteLength text.toList < 2 ^ 31)
    (hd : Text.byteLength text.toList ≤ o.maxStackDepth) :
    ((∃ program, compile o text = .program program) ↔
      ∃ symbols, Spells text symbols ∧ DerivesSeries o.literalPolicy symbols) ∧
    ∀ program, compile o text = .program program → ∃ es : Series o.literalPolicy,
      (es ≠ [] ∧ Spells text es.yield) ∧
        (∀ fs : Series o.literalPolicy, fs ≠ [] → Spells text fs.yield → fs = es) ∧
          program.bytes = es.postorder := by
  refine ⟨⟨?_, ?_⟩, ?_⟩
  · rintro ⟨program, hp⟩
    obtain ⟨es, hn, hs, hst, -⟩ := series_of_compile h hp
    exact ⟨_, hs, es.derivesSeries hn hst⟩
  · rintro ⟨symbols, hs, hder⟩
    obtain ⟨es, hn, rfl⟩ := Series.exists_of_derives hder
    exact ⟨_, compile_series hn hs hb hd⟩
  · intro program hp
    obtain ⟨es, hn, hs, hst, rfl⟩ := series_of_compile h hp
    exact ⟨es, ⟨hn, hs⟩, fun fs hf hsf => series_unique h hn hf hs hsf, Series.bytes_code hst⟩

theorem compile_iff_derives_sign : Unconditional "MAX(A,-B)-2^-C;" ∧
    ∃ program, compile {} "MAX(A,-B)-2^-C;" = .program program ∧
      ∃ es : Series (Options.literalPolicy {}), Spells "MAX(A,-B)-2^-C;" es.yield ∧
        program.bytes = es.postorder := by
  have h : Unconditional "MAX(A,-B)-2^-C;" := by
    unfold Unconditional
    decide +kernel
  have hp : compile {} "MAX(A,-B)-2^-C;" = .program ⟨[.fetch 0, .fetch 1, .unary .neg, .binary .max,
      .literal ⟨0x4000000000000000⟩, .fetch 2, .unary .neg, .binary .pow, .binary .sub, .endExpr]⟩ := by
    decide +kernel
  obtain ⟨es, ⟨-, hs⟩, -, hb⟩ := (compile_iff_derives h (by decide) (by decide)).2 _ hp
  exact ⟨h, _, hp, es, hs, hb⟩

end Compile

end FormulaCode
