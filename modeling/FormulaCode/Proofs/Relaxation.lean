import FormulaCode.Proofs.Stepping

/-! Wider options: a larger operator stack and numerals taken for zero change nothing, except for what the
narrow ones refuse. -/

namespace FormulaCode

def ErrorKind.IsStrictness (k : ErrorKind) : Prop := k = .expressionTooComplex ∨ k = .badLiteral

structure Shadows (events events' : List Event) : Prop where
  breaches : ∀ b, .breach b ∈ events → .breach b ∈ events'
  emissions : emissionsOf events <+: emissionsOf events'

namespace Shadows

variable {events events' : List Event}

lemma append_left (h : Shadows events events') (before : List Event) :
    Shadows (before ++ events) (before ++ events') where
  breaches b hb := List.mem_append.2 ((List.mem_append.1 hb).imp_right (h.breaches b))
  emissions := by
    rw [emissionsOf_append, emissionsOf_append]
    exact (List.prefix_append_right_inj _).2 h.emissions

lemma append_right (h : Shadows events events') (after : List Event) :
    Shadows events (events' ++ after) where
  breaches b hb := List.mem_append_left _ (h.breaches b hb)
  emissions := by
    rw [emissionsOf_append]
    exact h.emissions.trans (List.prefix_append ..)

end Shadows

namespace Step

variable {α β : Type} {x y : Step α} {f g : α → Step β}

/-- The second step is the same, unless the first one is too strict. -/
def Relaxes (x y : Step α) : Prop :=
  y = x ∨ (∃ k, x.result = .error k ∧ k.IsStrictness) ∧ Shadows x.events y.events

lemma Relaxes.refl (x : Step α) : x.Relaxes x := .inl rfl

lemma Relaxes.eq_of_ok (h : x.Relaxes y) {a : α} (ha : x.result = .ok a) : y = x := by
  rcases h with h | ⟨⟨k, hk, -⟩, -⟩
  · exact h
  · rw [ha] at hk
    cases hk

lemma shadows_bind {events : List Event} (h : Shadows events x.events) (f : α → Step β) :
    Shadows events (x >>= f).events := by
  cases hx : x.result with
  | error k =>
    rw [bind_of_error hx]
    exact h
  | ok a =>
    rw [bind_of_ok hx]
    exact h.append_right _

lemma Relaxes.bind (h : x.Relaxes y) (hf : ∀ a, (f a).Relaxes (g a)) : (x >>= f).Relaxes (y >>= g) := by
  rcases h with rfl | ⟨⟨k, hx, hk⟩, hs⟩
  · cases hx : y.result with
    | error k =>
      rw [bind_of_error hx, bind_of_error hx]
      exact .refl _
    | ok a =>
      rw [bind_of_ok hx, bind_of_ok hx]
      rcases hf a with hg | ⟨hk, hs⟩
      · rw [hg]
        exact .refl _
      · exact .inr ⟨hk, hs.append_left _⟩
  · rw [bind_of_error hx]
    exact .inr ⟨⟨k, rfl, hk⟩, shadows_bind hs g⟩

end Step

structure Options.Relaxes (o o' : Options) : Prop where
  depth : o.maxStackDepth ≤ o'.maxStackDepth
  policy : o'.literalPolicy = o.literalPolicy ∨ o'.literalPolicy = .zeroOnError

lemma Numeral.valueUnder_zeroOnError (n : Numeral) : n.valueUnder .zeroOnError ≠ none := by
  cases hn : n.value? <;> simp [valueUnder, hn]

lemma Options.Relaxes.valueUnder {o o' : Options} (h : o.Relaxes o') {n : Numeral} {x : Double}
    (hv : n.valueUnder o.literalPolicy = some x) : n.valueUnder o'.literalPolicy = some x := by
  rcases h.policy with hp | hp
  · rw [hp, hv]
  · cases ho : o.literalPolicy with
    | zeroOnError => rwa [hp, ← ho]
    | strict =>
      cases hn : n.value? with
      | none => simp [Numeral.valueUnder, hn, ho] at hv
      | some y => simpa [Numeral.valueUnder, hn] using hv

namespace State

open Step

variable {o o' : Options} {s : State}

lemma relaxes_push {m n : Nat} (h : m ≤ n) (e : Element) (s : State) :
    (s.push m e).Relaxes (s.push n e) := by
  by_cases hm : s.pending.length < m
  · left
    simp only [push, OperatorStack.push, if_pos hm, if_pos (hm.trans_le h)]
  · right
    simp only [push, OperatorStack.push, if_neg hm]
    exact ⟨⟨_, rfl, .inl rfl⟩, fun b hb => absurd hb List.not_mem_nil, List.nil_prefix⟩

lemma relaxes_pushOperator {m n : Nat} (h : m ≤ n) (e : Element) (s : State) :
    (s.pushOperator m e).Relaxes (s.pushOperator n e) :=
  (Relaxes.refl _).bind fun t => relaxes_push h e t

lemma relaxes_literal (h : o.Relaxes o') (n : Numeral) (s : State) :
    (s.literal o.literalPolicy n).Relaxes (s.literal o'.literalPolicy n) := by
  cases hv : n.valueUnder o.literalPolicy with
  | some x =>
    left
    simp only [literal, hv, h.valueUnder hv]
  | none =>
    right
    simp only [literal, hv]
    refine ⟨⟨_, rfl, .inr rfl⟩, fun b hb => ?_, List.nil_prefix⟩
    cases List.mem_singleton.1 hb

lemma relaxes_step (h : o.Relaxes o') (s : State) (x : Symbol) : (s.step o x).Relaxes (s.step o' x) := by
  have hd := h.depth
  cases x with
  | numeral n => exact (Relaxes.refl _).bind fun _ => (relaxes_literal h n s).bind fun _ => .refl _
  | unary e => exact (Relaxes.refl _).bind fun _ => (relaxes_pushOperator hd e s).bind fun _ => .refl _
  | binary e => exact (Relaxes.refl _).bind fun _ => (relaxes_pushOperator hd e s).bind fun _ => .refl _
  | minus => exact (relaxes_pushOperator hd _ s).bind fun _ => .refl _
  | colon =>
    exact (Relaxes.refl _).bind fun _ => (Relaxes.refl _).bind fun _ => (Relaxes.refl _).bind fun _ =>
      (Relaxes.refl _).bind fun t => (relaxes_push hd _ t).bind fun _ => .refl _
  | _ => exact .refl _

lemma relaxes_run (h : o.Relaxes o') (s : State) (xs : List Lexeme) :
    s.run o' xs = s.run o xs ∨ (∃ e, (s.run o xs).2 = .error e ∧ e.kind.IsStrictness) ∧
      Shadows (s.run o xs).1 (s.run o' xs).1 := by
  induction xs generalizing s with
  | nil => exact .inl rfl
  | cons x xs ih =>
    rcases relaxes_step h s x.symbol with hx | ⟨⟨k, hk, hs⟩, hshadows⟩
    · rw [run, run, hx]
      cases hr : (s.step o x.symbol).result with
      | error k => exact .inl rfl
      | ok t =>
        dsimp only
        rcases ih t with ht | ⟨he, hshadows⟩
        · rw [ht]
          exact .inl rfl
        · exact .inr ⟨he, hshadows.append_left (.token x.token :: (s.step o x.symbol).events)⟩
    · right
      have hone := hshadows.append_left [.token x.token]
      rw [run, hk]
      refine ⟨⟨_, rfl, hs⟩, ?_⟩
      rw [run]
      cases hr : (s.step o' x.symbol).result with
      | error k => exact hone
      | ok t => exact hone.append_right _

end State

end FormulaCode
