import FormulaCode.Proofs.Simulation

namespace FormulaCode

variable {policy : LiteralPolicy}

def joined (codes : List (List Instruction)) : List Instruction := List.intercalate [.endExpr] codes

lemma joined_singleton (c : List Instruction) : joined [c] = c := by
  simp [joined, List.intercalate]

lemma joined_cons_cons (c d : List Instruction) (codes : List (List Instruction)) :
    joined (c :: d :: codes) = c ++ .endExpr :: joined (d :: codes) := by
  simp [joined, List.intercalate]

lemma intercalate_append_singleton {α : Type} (sep : List α) (xs : List (List α)) (x : List α) :
    List.intercalate sep (xs ++ [x]) = xs.flatMap (· ++ sep) ++ x := by
  induction xs with
  | nil => simp [List.intercalate]
  | cons y ys ih =>
    cases ys with
    | nil => simp [List.intercalate]
    | cons z zs =>
      rw [List.cons_append, List.cons_append, List.intercalate_cons_cons, ← List.cons_append, ih]
      simp only [List.flatMap_cons, List.append_assoc]

lemma flatMap_intercalate {α β : Type} (f : α → List β) (sep : List α) (xs : List (List α)) :
    (List.intercalate sep xs).flatMap f =
      List.intercalate (sep.flatMap f) (xs.map fun x => x.flatMap f) := by
  rcases List.eq_nil_or_concat' xs with rfl | ⟨init, x, rfl⟩
  · rfl
  · rw [List.map_append, List.map_singleton, intercalate_append_singleton, intercalate_append_singleton]
    simp [List.flatMap_append, List.flatMap_assoc, List.flatMap_map]

lemma map_intercalate {α β : Type} (f : α → β) (sep : List α) (xs : List (List α)) :
    (List.intercalate sep xs).map f = List.intercalate (sep.map f) (xs.map (List.map f)) := by
  simp only [List.map_eq_flatMap, flatMap_intercalate]

def codesOf (es : List (Option (Phrase policy))) : List (List Instruction) :=
  es.map fun e => e.elim [] Phrase.code

def wordsOf (es : List (Option (Phrase policy))) : List (Word policy) :=
  List.intercalate [.terminator] (es.map fun e => e.elim [] Phrase.words)

lemma joined_concat (es : List (Option (Phrase policy))) (x : Option (Phrase policy)) :
    joined (codesOf (es ++ [x])) =
      (es.flatMap fun e => e.elim [] Phrase.code ++ [.endExpr]) ++ x.elim [] Phrase.code := by
  rw [joined, codesOf, List.map_append]
  exact (intercalate_append_singleton _ _ _).trans (by rw [List.flatMap_map])

lemma joined_reverse (x : Option (Phrase policy)) (ended : List (Option (Phrase policy))) :
    joined (codesOf (x :: ended).reverse) = Draft.endedCode ended ++ x.elim [] Phrase.code := by
  rw [List.reverse_cons, joined_concat]
  rfl

lemma wordsOf_concat (es : List (Option (Phrase policy))) (x : Option (Phrase policy)) :
    wordsOf (es ++ [x]) =
      (es.flatMap fun e => e.elim [] Phrase.words ++ [.terminator]) ++ x.elim [] Phrase.words := by
  rw [wordsOf, List.map_append]
  exact (intercalate_append_singleton _ _ _).trans (by rw [List.flatMap_map])

lemma wordsOf_reverse (x : Option (Phrase policy)) (ended : List (Option (Phrase policy))) :
    wordsOf (x :: ended).reverse = Draft.endedWords ended ++ x.elim [] Phrase.words := by
  rw [List.reverse_cons, wordsOf_concat]
  rfl

def Accepted (policy : LiteralPolicy) (symbols : List Symbol) (es : List (Option (Phrase policy))) :
    Prop :=
  ∃ (ws : List (Word policy)) (d : Draft policy) (x : Option (Phrase policy)),
    (∀ w ∈ ws, w.Plain) ∧ symbols = ws.map Word.symbol ∧ Draft.run {} ws = some d ∧
      d.finish = some x ∧ es = (x :: d.ended).reverse

lemma Draft.formed_start : ({} : Draft policy).Formed where
  ended := nofun
  groups := by
    rintro g hg
    cases List.mem_singleton.1 hg
    exact ⟨nofun, nofun, trivial⟩
  bottom := by
    rintro g ⟨rfl⟩
    rfl
  value := nofun
  fresh := fun _ => rfl

lemma Draft.state_start : ({} : Draft policy).state = {} := by
  simp [state, netOf, listsOf, Group.net, Group.pending, Group.ends, isFresh, Group.isEmpty]

lemma Draft.code_start : ({} : Draft policy).code = [] := by
  simp [code, endedCode, Group.code]

namespace Compilation

variable {o : Options} {expression : String}

lemma spoken_lexemes (policy : LiteralPolicy) (expression : String) :
    ∀ x ∈ (Lexeme.ofExpression expression).1, x.symbol.Spoken policy :=
  fun _ hx => (Lexeme.occurs_of_mem_ofExpression hx).spoken policy

lemma ofExpression_of_draft {xs : List Lexeme} {events : List Event} {p : Nat}
    {d : Draft o.literalPolicy} {x : Option (Phrase o.literalPolicy)} (hd : d.Formed)
    (hl : Lexeme.ofExpression expression = (xs, .finish p)) (hlead : Draft.Leads o {} d xs events)
    (hx : d.finish = some x) : (ofExpression o expression).result = .ok () ∧
      (ofExpression o expression).emissions =
        (joined (codesOf (x :: d.ended).reverse)).map .ofInstruction := by
  obtain ⟨hr, new, hcode, hem⟩ := hlead
  rw [Draft.state_start] at hr
  obtain ⟨s, hg⟩ := Draft.gives_finish hd hx
  have hc := Draft.code_finish hd hx
  rw [hcode, Draft.code_start, List.nil_append] at hc
  rw [ofExpression_of_finish hl hr, joined_reverse, hc, List.map_append, ← hem, ← hg.2]
  exact ⟨by simp [hg.1], emissionsOf_append _ _⟩

lemma accepted_of_result (h : (ofExpression o expression).result = .ok ()) :
    (∃ p, (Lexeme.ofExpression expression).2 = .finish p) ∧
      ∃ es, Accepted o.literalPolicy ((Lexeme.ofExpression expression).1.map Lexeme.symbol) es ∧
        (ofExpression o expression).emissions = (joined (codesOf es)).map .ofInstruction := by
  have hx := spoken_lexemes o.literalPolicy expression
  cases hl : Lexeme.ofExpression expression with
  | mk xs stop =>
    rw [hl] at hx
    cases hr : State.run o {} xs with
    | mk events result =>
      cases result with
      | error e => simp [ofExpression_of_error hl hr] at h
      | ok s =>
        cases stop with
        | unknown p => simp [ofExpression_of_unknown hl hr] at h
        | finish p =>
          have hs : ({} : Draft o.literalPolicy).state.run o xs = (events, .ok s) := by
            rw [Draft.state_start, hr]
          obtain ⟨ws, d, hws, hmap, hrun, hlead⟩ := Draft.leads_of_ok Draft.formed_start hx hs
          have hd := Draft.formed_run Draft.formed_start hrun
          obtain rfl : s = d.state := by simpa [hs] using hlead.1
          cases hf : d.finish with
          | none =>
            obtain ⟨k, hk⟩ := Draft.fails_finish hd hf
            simp [ofExpression_of_finish hl hr, hk] at h
          | some x =>
            exact ⟨⟨p, rfl⟩, _, ⟨ws, d, x, hws, hmap, hrun, hf, rfl⟩,
              (ofExpression_of_draft hd hl hlead hf).2⟩

lemma result_of_accepted {es : List (Option (Phrase o.literalPolicy))} {p : Nat}
    (hp : (Lexeme.ofExpression expression).2 = .finish p)
    (h : Accepted o.literalPolicy ((Lexeme.ofExpression expression).1.map Lexeme.symbol) es)
    (hn : (Lexeme.ofExpression expression).1.length ≤ o.maxStackDepth) :
    (ofExpression o expression).result = .ok () ∧
      (ofExpression o expression).emissions = (joined (codesOf es)).map .ofInstruction := by
  obtain ⟨ws, d, x, hws, hmap, hrun, hf, rfl⟩ := h
  have hlen : ws.length = (Lexeme.ofExpression expression).1.length := by
    simpa using (congrArg List.length hmap).symm
  obtain ⟨events, hlead⟩ := Draft.leads_of_run Draft.formed_start hws hrun hmap
    (by simpa [Draft.words, Draft.endedWords, Group.words, hlen] using hn)
  exact ofExpression_of_draft (Draft.formed_run Draft.formed_start hrun) (Prod.ext rfl hp) hlead hf

end Compilation

end FormulaCode
