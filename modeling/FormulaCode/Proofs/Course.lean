import FormulaCode.Proofs.Transition

namespace FormulaCode

namespace State

open Step

variable {o : Options} {s t u : State} {xs ys : List Symbol} {es fs : List Emission}

inductive Reaches (o : Options) : State → List Symbol → State → List Emission → Prop
  | nil (s : State) : Reaches o s [] s []
  | cons {s t u : State} {x : Symbol} {xs : List Symbol} {es fs : List Emission}
    (h : (s.step o x).Gives t es) (hr : Reaches o t xs u fs) : Reaches o s (x :: xs) u (es ++ fs)

lemma Reaches.single {x : Symbol} (h : (s.step o x).Gives t es) : Reaches o s [x] t es :=
  List.append_nil es ▸ .cons h (.nil t)

lemma Reaches.silent {x : Symbol} (h : (s.step o x).Gives t []) (hr : Reaches o t xs u es) :
    Reaches o s (x :: xs) u es := .cons h hr

lemma Reaches.append (h : Reaches o s xs t es) (h' : Reaches o t ys u fs) :
    Reaches o s (xs ++ ys) u (es ++ fs) := by
  induction h with
  | nil s => exact h'
  | cons hx _ ih =>
    rw [List.append_assoc]
    exact .cons hx (ih h')

lemma Reaches.exists_split (h : Reaches o s (xs ++ ys) u es) :
    ∃ t fs gs, Reaches o s xs t fs ∧ Reaches o t ys u gs := by
  induction xs generalizing s es with
  | nil => exact ⟨s, [], es, .nil s, h⟩
  | cons x xs ih =>
    cases h with
    | cons hx hr =>
      obtain ⟨t, fs, gs, hf, hg⟩ := ih hr
      exact ⟨t, _, gs, .cons hx hf, hg⟩

lemma takes_of_gives {x : Symbol} (h : (s.step o x).Gives t es) : s.Takes o x es (.ok t) := by
  have ht := takes_step o s x
  rwa [h.1, h.2] at ht

lemma takes_of_raises {x : Symbol} {k : ErrorKind} (h : (s.step o x).Raises k es) :
    s.Takes o x es (.error k) := by
  have ht := takes_step o s x
  rwa [h.1, h.2] at ht

lemma Reaches.keeps {K : Symbol → Prop} {P : List Symbol → State → List Emission → Prop}
    (hstep : ∀ {xs s es x t fs}, P xs s es → K x → s.Takes o x fs (.ok t) → P (xs ++ [x]) t (es ++ fs))
    (h : Reaches o s xs t es) (hx : ∀ x ∈ xs, K x) : P [] s [] → P xs t es := by
  suffices hkeeps : ∀ before ds, P before s ds → P (before ++ xs) t (ds ++ es) from hkeeps [] []
  induction h with
  | nil s =>
    intro before ds hs
    rwa [List.append_nil, List.append_nil]
  | cons hg _ ih =>
    intro before ds hs
    obtain ⟨hx, hxs⟩ := List.forall_mem_cons.1 hx
    rw [List.append_cons, ← List.append_assoc]
    exact ih hxs _ _ (hstep hs hx (takes_of_gives hg))

lemma reaches_of_run {xs : List Lexeme} (h : (s.run o xs).2 = .ok t) :
    Reaches o s (xs.map Lexeme.symbol) t (emissionsOf (s.run o xs).1) := by
  induction xs generalizing s with
  | nil =>
    cases h
    exact .nil _
  | cons x xs ih =>
    rw [run] at h ⊢
    cases hs : (s.step o x.symbol).result with
    | error k => simp [hs] at h
    | ok r =>
      simp only [hs] at h ⊢
      have hc := Reaches.cons ⟨hs, rfl⟩ (ih h)
      rwa [emitted, ← emissionsOf_append] at hc

lemma Reaches.run_eq (h : Reaches o s xs t es) {ls : List Lexeme} (hl : ls.map Lexeme.symbol = xs) :
    ∃ events, s.run o ls = (events, .ok t) ∧ emissionsOf events = es := by
  induction h generalizing ls with
  | nil s =>
    cases List.map_eq_nil_iff.1 hl
    exact ⟨[], rfl, rfl⟩
  | cons hx _ ih =>
    obtain ⟨l, ls, rfl, rfl, hls⟩ := List.map_eq_cons_iff.1 hl
    obtain ⟨events, hr, he⟩ := ih hls
    refine ⟨_, by rw [run, hx.1]; simp only [hr]; rfl, ?_⟩
    rw [← he, ← hx.2]
    exact emissionsOf_append _ _

lemma exists_raises_of_run {xs : List Lexeme} {e : CompileError} (h : (s.run o xs).2 = .error e) :
    ∃ before x after t es fs, xs = before ++ x :: after ∧ Reaches o s (before.map Lexeme.symbol) t es ∧
      (t.step o x.symbol).Raises e.kind fs ∧ e.position = x.token.position ∧
        emissionsOf (s.run o xs).1 = es ++ fs := by
  induction xs generalizing s with
  | nil => cases h
  | cons x xs ih =>
    rw [run] at h ⊢
    cases hs : (s.step o x.symbol).result with
    | error k =>
      simp only [hs, Except.error.injEq] at h ⊢
      subst h
      exact ⟨[], x, xs, s, [], _, rfl, .nil s, ⟨hs, rfl⟩, rfl, rfl⟩
    | ok r =>
      simp only [hs] at h ⊢
      obtain ⟨before, y, after, t, es, fs, rfl, hr, hy, hp, he⟩ := ih h
      refine ⟨x :: before, y, after, t, _, fs, rfl, .cons ⟨hs, rfl⟩ hr, hy, hp, ?_⟩
      rw [List.append_assoc, ← he]
      exact emissionsOf_append _ _

end State

namespace Compilation

open State

inductive Ends (o : Options) : List Lexeme × Lexeme.Stop → Except CompileError Unit → List Emission → Prop
  | refused {before after : List Lexeme} {x : Lexeme} {stop : Lexeme.Stop} {t : State} {k : ErrorKind}
    {es fs : List Emission} (hr : Reaches o {} (before.map Lexeme.symbol) t es)
    (hx : (t.step o x.symbol).Raises k fs) :
    Ends o (before ++ x :: after, stop) (.error ⟨k, x.token.position⟩) (es ++ fs)
  | unknown {xs : List Lexeme} {p : Nat} {t : State} {es : List Emission}
    (hr : Reaches o {} (xs.map Lexeme.symbol) t es) :
    Ends o (xs, .unknown p) (.error ⟨.unknownToken, p⟩) es
  | unfinished {xs : List Lexeme} {p : Nat} {t : State} {k : ErrorKind} {es fs : List Emission}
    (hr : Reaches o {} (xs.map Lexeme.symbol) t es) (hf : t.finish.Raises k fs) :
    Ends o (xs, .finish p) (.error ⟨k, p⟩) (es ++ fs)
  | finished {xs : List Lexeme} {p : Nat} {t u : State} {es fs : List Emission}
    (hr : Reaches o {} (xs.map Lexeme.symbol) t es) (hf : t.finish.Gives u fs) :
    Ends o (xs, .finish p) (.ok ()) (es ++ fs)

variable {o : Options} {expression : String} {xs : List Lexeme} {t u : State} {es fs : List Emission}

lemma ends_ofExpression (o : Options) (expression : String) :
    Ends o (Lexeme.ofExpression expression) (ofExpression o expression).result
      (ofExpression o expression).emissions := by
  cases hl : Lexeme.ofExpression expression with
  | mk xs stop =>
    cases hr : State.run o {} xs with
    | mk events result =>
      have hfst : (State.run o {} xs).1 = events := by rw [hr]
      cases result with
      | error e =>
        obtain ⟨before, x, after, t, es, fs, rfl, hb, hx, hp, he⟩ := exists_raises_of_run (by rw [hr])
        rw [hfst] at he
        rw [ofExpression_of_error hl hr]
        change Ends o _ _ (emissionsOf events)
        obtain ⟨k, p⟩ := e
        cases hp
        rw [he]
        exact .refused hb hx
      | ok s =>
        have hsnd : (State.run o {} xs).2 = .ok s := by rw [hr]
        have hreach := reaches_of_run hsnd
        rw [hfst] at hreach
        cases stop with
        | unknown p =>
          rw [ofExpression_of_unknown hl hr]
          exact .unknown hreach
        | finish p =>
          rw [ofExpression_of_finish hl hr]
          change Ends o _ _ (emissionsOf (events ++ s.finish.events))
          rw [emissionsOf_append]
          cases hf : s.finish.result with
          | error k => exact .unfinished hreach ⟨hf, rfl⟩
          | ok u => exact .finished hreach ⟨hf, rfl⟩

lemma result_of_reaches {p : Nat} (hl : Lexeme.ofExpression expression = (xs, .finish p))
    (hr : Reaches o {} (xs.map Lexeme.symbol) t es) (hf : t.finish.Gives u fs) :
    (ofExpression o expression).result = .ok () ∧ (ofExpression o expression).emissions = es ++ fs := by
  obtain ⟨events, hrun, he⟩ := hr.run_eq rfl
  rw [ofExpression_of_finish hl hrun]
  refine ⟨by simp [hf.1], ?_⟩
  rw [← he, ← hf.2]
  exact emissionsOf_append _ _

end Compilation

end FormulaCode
