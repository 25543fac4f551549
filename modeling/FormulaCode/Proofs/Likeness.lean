import FormulaCode.Proofs.Sequence

/-!
The text of an element has no bearing on the code. Elements that differ in it alone bring the compiler to
states that differ in it alone, and to the same violations.
-/

namespace FormulaCode

section Related

variable {α β : Type} {R : α → β → Prop} {p : α → Bool} {q : β → Bool} {xs : List α} {ys : List β}

lemma forall₂_takeWhile (h : List.Forall₂ R xs ys) (hpq : ∀ x y, R x y → p x = q y) :
    List.Forall₂ R (xs.takeWhile p) (ys.takeWhile q) := by
  induction h with
  | nil => exact .nil
  | @cons x y xs ys hr _ ih =>
    rw [List.takeWhile_cons, List.takeWhile_cons, hpq x y hr]
    by_cases hq : q y = true
    · rw [if_pos hq, if_pos hq]
      exact .cons hr ih
    · rw [if_neg hq, if_neg hq]
      exact .nil

lemma forall₂_dropWhile (h : List.Forall₂ R xs ys) (hpq : ∀ x y, R x y → p x = q y) :
    List.Forall₂ R (xs.dropWhile p) (ys.dropWhile q) := by
  induction h with
  | nil => exact .nil
  | @cons x y xs ys hr hrs ih =>
    rw [List.dropWhile_cons, List.dropWhile_cons, hpq x y hr]
    by_cases hq : q y = true
    · rw [if_pos hq, if_pos hq]
      exact ih
    · rw [if_neg hq, if_neg hq]
      exact .cons hr hrs

lemma map_eq_of_forall₂ {γ : Type} {f : α → γ} {g : β → γ} (h : List.Forall₂ R xs ys)
    (hfg : ∀ x y, R x y → f x = g y) : xs.map f = ys.map g := by
  induction h with
  | nil => rfl
  | cons hr _ ih => rw [List.map_cons, List.map_cons, hfg _ _ hr, ih]

lemma forall₂_trans {Q : α → α → Prop} {us vs ws : List α} (h : List.Forall₂ Q us vs)
    (h' : List.Forall₂ Q vs ws) (hQ : ∀ x y z, Q x y → Q y z → Q x z) : List.Forall₂ Q us ws := by
  induction h generalizing ws with
  | nil => exact h'
  | cons hxy _ ih =>
    cases h' with
    | cons hyz hs => exact .cons (hQ _ _ _ hxy hyz) (ih hs)

lemma isEmpty_eq_of_forall₂ (h : List.Forall₂ R xs ys) : xs.isEmpty = ys.isEmpty := by
  cases h <;> rfl

end Related

structure Element.Alike (d e : Element) : Prop where
  stackPriority : d.stackPriority = e.stackPriority
  arrivalPriority : d.arrivalPriority = e.arrivalPriority
  kind : d.kind = e.kind
  code : d.code = e.code

namespace Element.Alike

variable {d e : Element}

lemma refl (e : Element) : e.Alike e := ⟨rfl, rfl, rfl, rfl⟩

lemma trans {f : Element} (h : d.Alike e) (h' : e.Alike f) : d.Alike f where
  stackPriority := h.stackPriority.trans h'.stackPriority
  arrivalPriority := h.arrivalPriority.trans h'.arrivalPriority
  kind := h.kind.trans h'.kind
  code := h.code.trans h'.code

lemma isOpenParen (h : d.Alike e) : d.isOpenParen = e.isOpenParen := by
  rw [Element.isOpenParen, Element.isOpenParen, h.kind, h.code]

lemma argumentCount (h : d.Alike e) : d.argumentCount = e.argumentCount := by
  rw [Element.argumentCount, Element.argumentCount, h.kind, h.code]

end Element.Alike

inductive Symbol.Alike : Symbol → Symbol → Prop
  | refl (x : Symbol) : Alike x x
  | unary {d e : Element} (h : d.Alike e) : Alike (.unary d) (.unary e)
  | binary {d e : Element} (h : d.Alike e) : Alike (.binary d) (.binary e)

lemma Symbol.Alike.trans {x y z : Symbol} (h : x.Alike y) (h' : y.Alike z) : x.Alike z := by
  cases h with
  | refl => exact h'
  | unary h =>
    cases h' with
    | refl => exact .unary h
    | unary h' => exact .unary (h.trans h')
  | binary h =>
    cases h' with
    | refl => exact .binary h
    | binary h' => exact .binary (h.trans h')

def State.Alike (s t : State) : Prop :=
  ∃ pending, List.Forall₂ Element.Alike s.pending pending ∧ t = { s with pending }

lemma State.Alike.refl (s : State) : s.Alike s :=
  ⟨s.pending, List.forall₂_same.2 fun e _ => .refl e, rfl⟩

namespace Step

variable {α β γ δ : Type} {R : α → β → Prop} {S : γ → δ → Prop}

inductive Alike (R : α → β → Prop) : Step α → Step β → Prop
  | ok (events : List Event) {a : α} {b : β} (h : R a b) : Alike R ⟨events, .ok a⟩ ⟨events, .ok b⟩
  | error (events : List Event) (k : ErrorKind) : Alike R ⟨events, .error k⟩ ⟨events, .error k⟩

lemma Alike.same (x : Step α) : x.Alike Eq x := by
  obtain ⟨events, result⟩ := x
  cases result with
  | error k => exact .error events k
  | ok a => exact .ok events rfl

lemma Alike.bind {x : Step α} {y : Step β} {f : α → Step γ} {g : β → Step δ} (h : x.Alike R y)
    (hf : ∀ a b, R a b → (f a).Alike S (g b)) : (x >>= f).Alike S (y >>= g) := by
  cases h with
  | error events k =>
    rw [bind_of_error rfl, bind_of_error rfl]
    exact .error events k
  | @ok events a b hab =>
    rw [bind_of_ok rfl, bind_of_ok rfl]
    have hfg := hf a b hab
    generalize f a = x at hfg ⊢
    generalize g b = y at hfg ⊢
    cases hfg with
    | ok events' h => exact .ok _ h
    | error events' k => exact .error _ k

lemma Alike.after (x : Step α) {f : α → Step γ} {g : α → Step δ} (h : ∀ a, (f a).Alike S (g a)) :
    (x >>= f).Alike S (x >>= g) :=
  (Alike.same x).bind fun a _ hab => hab ▸ h a

end Step

namespace State

open Step

variable {o : Options} {s t : State} {d e : Element} {c c' : Element → Bool}

lemma alike_emit (h : s.Alike t) (es : List Emission) : (s.emit es).Alike Alike (t.emit es) := by
  obtain ⟨pending, hp, rfl⟩ := h
  exact .ok _ ⟨pending, hp, rfl⟩

lemma alike_emitWhile (h : s.Alike t) (hc : ∀ d e, d.Alike e → c d = c' e) :
    (s.emitWhile c).Alike Alike (t.emitWhile c') := by
  obtain ⟨pending, hp, rfl⟩ := h
  have hops : (s.pending.takeWhile c).map (fun e => Emission.op e.code) =
      (pending.takeWhile c').map fun e => Emission.op e.code :=
    map_eq_of_forall₂ (forall₂_takeWhile hp hc) fun _ _ h => congrArg _ h.code
  rw [emitWhile, emitWhile, hops]
  exact alike_emit ⟨_, forall₂_dropWhile hp hc, rfl⟩ _

lemma alike_flush (h : s.Alike t) (hc : ∀ d e, d.Alike e → c d = c' e) :
    (s.flush c).Alike Alike (t.flush c') := by
  have hparen : (s.pending.takeWhile c).any Element.isOpenParen =
      (t.pending.takeWhile c').any Element.isOpenParen := by
    obtain ⟨pending, hp, rfl⟩ := h
    have hmap := map_eq_of_forall₂ (forall₂_takeWhile hp hc) fun _ _ h => h.isOpenParen
    simpa [List.any_map, Function.comp_def] using congrArg (List.any · id) hmap
  rw [flush, flush, hparen]
  exact .after _ fun _ => alike_emitWhile h hc

lemma alike_push (h : s.Alike t) (he : d.Alike e) (limit : Nat) :
    (s.push limit d).Alike Alike (t.push limit e) := by
  obtain ⟨pending, hp, rfl⟩ := h
  rw [push, push, OperatorStack.push, OperatorStack.push, hp.length_eq]
  by_cases hlt : pending.length < limit
  · rw [if_pos hlt, if_pos hlt]
    exact .ok _ ⟨_, .cons he hp, rfl⟩
  · rw [if_neg hlt, if_neg hlt]
    exact .error _ _

lemma alike_pushOperator (h : s.Alike t) (he : d.Alike e) (limit : Nat) :
    (s.pushOperator limit d).Alike Alike (t.pushOperator limit e) := by
  refine (alike_flush h fun x y hxy => ?_).bind fun s t h => alike_push h he limit
  rw [he.arrivalPriority, hxy.stackPriority]

lemma alike_unwind (h : s.Alike t) (k : ErrorKind) : (s.unwind k).Alike Alike (t.unwind k) := by
  refine (alike_emitWhile h fun x y hxy => by rw [hxy.isOpenParen]).bind fun s t h => ?_
  obtain ⟨pending, hp, rfl⟩ := h
  rw [isEmpty_eq_of_forall₂ hp]
  exact .after _ fun _ => .ok _ ⟨pending, hp, rfl⟩

lemma alike_separateArgument (h : s.Alike t) : s.separateArgument.Alike Alike t.separateArgument := by
  obtain ⟨pending, hp, rfl⟩ := h
  rw [separateArgument, separateArgument]
  cases s.lists with
  | nil => exact .error _ _
  | cons list lists =>
    exact .after _ fun _ => .after _ fun _ => .after _ fun _ => .ok _ ⟨pending, hp, rfl⟩

lemma alike_closeArguments (h : s.Alike t) : s.closeArguments.Alike Alike t.closeArguments := by
  obtain ⟨pending, hp, rfl⟩ := h
  have hcount : s.pending.head?.elim 1 Element.argumentCount =
      pending.head?.elim 1 Element.argumentCount := by
    generalize s.pending = stack at hp ⊢
    cases hp with
    | nil => rfl
    | cons he _ => exact congrArg Nat.cast he.argumentCount
  rw [closeArguments, closeArguments, hcount]
  cases s.lists with
  | nil => exact .error _ _
  | cons list lists => exact .after _ fun _ => .after _ fun _ => .ok _ ⟨pending, hp, rfl⟩

lemma alike_literal (h : s.Alike t) (policy : LiteralPolicy) (n : Numeral) :
    (s.literal policy n).Alike Alike (t.literal policy n) := by
  rw [literal, literal]
  cases n.valueUnder policy with
  | none => exact .error _ _
  | some x =>
    by_cases hn : n.value?.isNone = true
    · simp only [if_pos hn]
      exact .after _ fun _ => alike_emit h _
    · simp only [if_neg hn]
      exact alike_emit h _

lemma alike_finish (h : s.Alike t) : s.finish.Alike Alike t.finish := by
  have hneeded : t.operandNeeded = s.operandNeeded ∧ t.fresh = s.fresh := by
    obtain ⟨pending, hp, rfl⟩ := h
    exact ⟨rfl, rfl⟩
  rw [finish, finish, hneeded.1, hneeded.2]
  refine .after _ fun _ =>
    (alike_emitWhile h fun x y hxy => by rw [hxy.isOpenParen]).bind fun s t h => ?_
  obtain ⟨pending, hp, rfl⟩ := h
  rw [isEmpty_eq_of_forall₂ hp]
  exact .after _ fun _ => .after _ fun _ => .after _ fun _ => .after _ fun _ => .ok _ ⟨pending, hp, rfl⟩

lemma Alike.set (h : s.Alike t) (f : State → State)
    (hf : ∀ (s : State) (pending : OperatorStack), f { s with pending } = { f s with pending }) :
    (f s).Alike (f t) := by
  obtain ⟨pending, hp, rfl⟩ := h
  have hs := congrArg State.pending (hf s s.pending)
  refine ⟨pending, ?_, hf s pending⟩
  rwa [show (f s).pending = s.pending from hs]

lemma Alike.operandNeeded (h : s.Alike t) (needed : Bool) :
    Alike { s with operandNeeded := needed } { t with operandNeeded := needed } :=
  h.set (fun s => { s with operandNeeded := needed }) fun _ _ => rfl

lemma Alike.operandDone (h : s.Alike t) : s.operandDone.Alike t.operandDone :=
  h.set State.operandDone fun _ _ => rfl

lemma alike_unary (h : s.Alike t) (he : d.Alike e) :
    (s.step o (.unary d)).Alike Alike (t.step o (.unary e)) := by
  have hpush := alike_pushOperator h he o.maxStackDepth
  obtain ⟨pending, -, rfl⟩ := h
  simp only [step, he.isOpenParen]
  exact .after _ fun _ => hpush.bind fun _ _ h => .ok _ <| h.set (fun s =>
    { s with lists := if e.isOpenParen then ⟨s.depth, 0⟩ :: s.lists else s.lists,
             operandNeeded := true, fresh := false }) fun _ _ => rfl

lemma alike_binary (h : s.Alike t) (he : d.Alike e) :
    (s.step o (.binary d)).Alike Alike (t.step o (.binary e)) := by
  have hpush := alike_pushOperator h he o.maxStackDepth
  obtain ⟨pending, -, rfl⟩ := h
  exact .after _ fun _ => hpush.bind fun _ _ h => .ok _ (h.operandNeeded true)

lemma alike_step (h : s.Alike t) {x y : Symbol} (hx : x.Alike y) :
    (s.step o x).Alike Alike (t.step o y) := by
  cases hx with
  | unary he => exact alike_unary h he
  | binary he => exact alike_binary h he
  | refl =>
    -- Both read the same symbol, and what they require does not depend on the operators that wait.
    have hs := h
    obtain ⟨pending, hp, rfl⟩ := h
    cases x with
    | unary e => exact alike_unary hs (.refl e)
    | binary e => exact alike_binary hs (.refl e)
    | operand e => exact .after _ fun _ => (alike_emit hs _).bind fun _ _ h => .ok _ h.operandDone
    | numeral n => exact .after _ fun _ => (alike_literal hs _ n).bind fun _ _ h => .ok _ h.operandDone
    | minus =>
      exact (alike_pushOperator hs (.refl _) _).bind fun _ _ h => .ok _ <| h.set
        (fun u => { u with operandNeeded := true, fresh := s.fresh && !s.operandNeeded }) fun _ _ => rfl
    | separator =>
      exact .after _ fun _ => (alike_unwind hs _).bind fun _ _ h =>
        (alike_separateArgument h).bind fun _ _ h => .ok _ (h.operandNeeded true)
    | closeParen =>
      refine .after _ fun _ => (alike_unwind hs _).bind fun s t h => ?_
      have hdrop : Alike { s with pending := s.pending.drop 1 } { t with pending := t.pending.drop 1 } := by
        obtain ⟨pending, hp, rfl⟩ := h
        exact ⟨_, List.forall₂_drop 1 hp, rfl⟩
      exact (alike_closeArguments hdrop).bind fun _ _ h => .ok _ (h.operandNeeded false)
    | question =>
      exact .after _ fun _ => (alike_flush hs fun x y hxy => by rw [hxy.stackPriority]).bind fun _ _ h =>
        (alike_emit h _).bind fun _ _ h => .ok _ <| h.set (fun s =>
          { s with openConditionals := s.openConditionals + 1, operandNeeded := true }) fun _ _ => rfl
    | colon =>
      refine .after _ fun _ => (alike_flush hs fun x y hxy => by rw [hxy.stackPriority]).bind fun s t h => ?_
      have hclose := h.set (fun s => { s with openConditionals := s.openConditionals - 1 }) fun _ _ => rfl
      obtain ⟨pending, hp, rfl⟩ := h
      exact .after _ fun _ => (alike_emit hclose _).bind fun _ _ h =>
        (alike_push h (.refl _) _).bind fun _ _ h => .ok _ (h.operandNeeded true)
    | terminator => exact (alike_finish hs).bind fun _ _ h => alike_emit h _

end State

section Places

variable {α β : Type} {P : Nat → Nat → Prop} {R : α → β → Prop}

inductive ResultsAlike (P : Nat → Nat → Prop) (R : α → β → Prop) :
    Except CompileError α → Except CompileError β → Prop
  | ok {a : α} {b : β} (h : R a b) : ResultsAlike P R (.ok a) (.ok b)
  | error (k : ErrorKind) {p q : Nat} (h : P p q) : ResultsAlike P R (.error ⟨k, p⟩) (.error ⟨k, q⟩)

inductive Lexeme.Stop.Alike (P : Nat → Nat → Prop) : Stop → Stop → Prop
  | finish {p q : Nat} (h : P p q) : Alike P (.finish p) (.finish q)
  | unknown {p q : Nat} (h : P p q) : Alike P (.unknown p) (.unknown q)

def Lexeme.Alike (P : Nat → Nat → Prop) (x y : Lexeme) : Prop :=
  x.symbol.Alike y.symbol ∧ P x.token.position y.token.position

variable {o : Options} {s t : State} {xs ys : List Lexeme} {stop stop' : Lexeme.Stop}

namespace State

lemma alike_run (h : s.Alike t) (hx : List.Forall₂ (Lexeme.Alike P) xs ys) :
    effectsOf (s.run o xs).1 = effectsOf (t.run o ys).1 ∧
      ResultsAlike P Alike (s.run o xs).2 (t.run o ys).2 := by
  induction hx generalizing s t with
  | nil => exact ⟨rfl, .ok h⟩
  | @cons x y xs ys hxy _ ih =>
    have hstep := alike_step (o := o) h hxy.1
    generalize hs : s.step o x.symbol = r at hstep
    generalize ht : t.step o y.symbol = r' at hstep
    cases hstep with
    | error events k =>
      rw [run_of_error hs, run_of_error ht]
      exact ⟨rfl, .error k hxy.2⟩
    | ok events huv =>
      obtain ⟨he, hr⟩ := ih huv
      rw [run_of_ok hs, run_of_ok ht]
      refine ⟨?_, hr⟩
      rw [effectsOf_append, effectsOf_append, he]
      rfl

lemma alike_halt (h : s.Alike t) (hstop : stop.Alike P stop') :
    (s.halt stop).1 = (t.halt stop').1 ∧ ResultsAlike P Eq (s.halt stop).2 (t.halt stop').2 := by
  cases hstop with
  | unknown hpq => exact ⟨rfl, .error _ hpq⟩
  | finish hpq =>
    have hfinish := alike_finish h
    rw [halt, halt]
    generalize s.finish = r at hfinish ⊢
    generalize t.finish = r' at hfinish ⊢
    cases hfinish with
    | error events k => exact ⟨rfl, .error k hpq⟩
    | ok events => exact ⟨rfl, .ok rfl⟩

lemma alike_complete (h : s.Alike t) (hx : List.Forall₂ (Lexeme.Alike P) xs ys)
    (hstop : stop.Alike P stop') :
    effectsOf (s.complete o xs stop).1 = effectsOf (t.complete o ys stop').1 ∧
      ResultsAlike P Eq (s.complete o xs stop).2 (t.complete o ys stop').2 := by
  obtain ⟨he, hr⟩ := alike_run (o := o) h hx
  rw [complete, complete]
  generalize s.run o xs = r at he hr ⊢
  generalize t.run o ys = r' at he hr ⊢
  obtain ⟨events, result⟩ := r
  obtain ⟨events', result'⟩ := r'
  cases hr with
  | error k hpq => exact ⟨he, .error k hpq⟩
  | ok huv =>
    obtain ⟨hl, hr⟩ := alike_halt huv hstop
    refine ⟨?_, hr⟩
    dsimp only at he ⊢
    rw [effectsOf_append, effectsOf_append, he, hl]

end State

lemma Compilation.alike_ofExpression {e e' : String} (hl : Lexeme.ofExpression e = (xs, stop))
    (hl' : Lexeme.ofExpression e' = (ys, stop')) (hx : List.Forall₂ (Lexeme.Alike P) xs ys)
    (hstop : stop.Alike P stop') :
    effectsOf (ofExpression o e).events = effectsOf (ofExpression o e').events ∧
      ResultsAlike P Eq (ofExpression o e).result (ofExpression o e').result := by
  rw [ofExpression_eq_complete hl, ofExpression_eq_complete hl']
  exact State.alike_complete (.refl _) hx hstop

end Places

end FormulaCode
