import FormulaCode.Proofs.Tracking

/-! What is read inside a parenthesis is read as it would be alone: the operators that wait outside stay
where they are, and the depth of the value stack counts from theirs. -/

namespace FormulaCode

def ArgumentList.raised (k : Int) (l : ArgumentList) : ArgumentList := { l with base := l.base + k }

namespace State

open Step

variable {o o' : Options} {r s t : State} {x : Symbol} {xs : List Symbol} {e : Element} {es : List Emission}
  {n : Nat} {c : Element → Bool}

/-- A state inside a parenthesis that stands where an operand was needed, after some arguments. -/
def nested (r : State) (n : Nat) (s : State) : State where
  pending := s.pending ++ .openParen :: r.pending
  depth := s.depth + (r.depth + n)
  operandNeeded := s.operandNeeded
  fresh := false
  openConditionals := s.openConditionals + r.openConditionals
  lists := s.lists.map (ArgumentList.raised (r.depth + n)) ++ ⟨r.depth, n⟩ :: r.lists

section Unloading

variable (r n)

lemma unload_nested (s : State) (hc : c .openParen = false) :
    (r.nested n s).pending.takeWhile c = s.pending.takeWhile c ∧
      (r.nested n s).pending.dropWhile c = s.pending.dropWhile c ++ .openParen :: r.pending := by
  change (s.pending ++ .openParen :: r.pending).takeWhile c = _ ∧
    (s.pending ++ .openParen :: r.pending).dropWhile c = _
  generalize s.pending = pending
  induction pending with
  | nil => simp [hc]
  | cons e pending ih =>
    by_cases he : c e = true
    · simpa [he] using ih
    · simp [he]

lemma depthOf_add (h : ∀ e ∈ s.pending, e.Waits) (c : Element → Bool) (d k : Int) :
    depthOf (d + k) (opsOf (s.pending.takeWhile c)) = depthOf d (opsOf (s.pending.takeWhile c)) + k := by
  have hw : ∀ e ∈ s.pending.takeWhile c, e.Waits := fun e he => h e (List.takeWhile_subset _ he)
  rw [depthOf_ops hw, depthOf_ops hw]
  omega

lemma unloaded_nested (h : ∀ e ∈ s.pending, e.Waits) (hc : c .openParen = false) :
    (r.nested n s).unloaded c = r.nested n (s.unloaded c) := by
  obtain ⟨ht, hd⟩ := r.unload_nested n s hc
  rw [unloaded, ht, hd]
  simp only [nested, unloaded, depthOf_add h]

end Unloading

lemma yields_openParen (ha : 0 < e.arrivalPriority) : e.yields .openParen = false :=
  decide_eq_false (Nat.not_le.2 ha)

lemma length_nested (hc : c .openParen = false) (hd : o.maxStackDepth + r.pending.length < o'.maxStackDepth)
    (hl : (s.pending.dropWhile c).length < o.maxStackDepth) :
    ((r.nested n s).pending.dropWhile c).length < o'.maxStackDepth := by
  rw [(r.unload_nested n s hc).2, List.length_append, List.length_cons]
  omega

lemma lists_nested {list : ArgumentList} {lists : List ArgumentList} (h : s.lists = list :: lists) :
    (r.nested n s).lists = list.raised (r.depth + n) ::
      (lists.map (ArgumentList.raised (r.depth + n)) ++ ⟨r.depth, n⟩ :: r.lists) := by
  rw [nested, h]
  rfl

/-- With room for what waits outside, a lexeme does inside the parenthesis what it does alone. -/
lemma Takes.nested (h : s.Takes o x es (.ok t)) (hx : x.Known) (hr : x.Regular) (hne : x ≠ .terminator)
    (hs : ∀ e ∈ s.pending, e.Waits) (hp : o'.literalPolicy = o.literalPolicy)
    (hd : o.maxStackDepth + r.pending.length < o'.maxStackDepth) :
    ((r.nested n s).step o' x).Gives (r.nested n t) es := by
  -- No lexeme is strong enough to send the open parenthesis off, so what waits under it is not looked at.
  cases h with
  | operand hn =>
    refine (gives_step_operand (s := r.nested n s) hn).congr ?_ rfl
    cases hx with
    | operand hi =>
      have hne : ∀ i : Instruction, i.opcode.stackEffect = 1 → i ≠ .endExpr := by
        rintro i hi rfl
        cases hi
      simp only [State.nested, operandDone, Emission.depthAfter_ofInstruction (hne _ hi)]
      congr 1
      omega
  | numeral hn hv =>
    refine (gives_step_numeral (s := r.nested n s) hn (hp ▸ hv)).congr ?_ rfl
    simp only [State.nested, operandDone]
    congr 1
    omega
  | @binary _ e hn hj hl =>
    have hc := yields_openParen (hr.joins hj).1
    obtain ⟨ht, hdrop⟩ := r.unload_nested n s hc
    refine (gives_step_joins (s := r.nested n s) hn hj (length_nested hc hd hl)).congr ?_ (by rw [ht])
    rw [unloaded_nested r n hs hc, hdrop]
    rfl
  | @unary _ e hn hj hl =>
    have hc := yields_openParen (hr.precedes hj).1
    obtain ⟨ht, hdrop⟩ := r.unload_nested n s hc
    refine (gives_step_precedes (s := r.nested n s) hn hj (length_nested hc hd hl)).congr ?_ (by rw [ht])
    rw [unloaded_nested r n hs hc, hdrop]
    cases e.isOpenParen <;> rfl
  | separator hn hp' hl hd' =>
    have hc : Element.isOperator .openParen = false := rfl
    obtain ⟨ht, hdrop⟩ := r.unload_nested n s hc
    have hu := unloaded_nested r n hs hc
    refine (gives_step_separator (s := r.nested n s) hn (by simp [hdrop]) (lists_nested hl) ?_).congr ?_
      (by rw [ht])
    · rw [hu]
      simp only [State.nested, hd', ArgumentList.raised]
      omega
    · rw [hu]
      rfl
  | @closeParen list lists p pending hn hp' hl hd' ha =>
    have hc : Element.isOperator .openParen = false := rfl
    obtain ⟨ht, hdrop⟩ := r.unload_nested n s hc
    rw [hp'] at hdrop
    have hu := unloaded_nested r n hs hc
    refine (gives_step_closeParen (s := r.nested n s) hn hdrop (lists_nested hl) ?_ ?_).congr ?_ (by rw [ht])
    · rw [hu]
      simp only [State.nested, hd', ArgumentList.raised]
      omega
    · change list.separated + 1 = _
      rw [ha]
      cases pending <;> rfl
    · rw [hu]
      rfl
  | question hn =>
    have hc : Element.binds .openParen = false := rfl
    obtain ⟨ht, hdrop⟩ := r.unload_nested n s hc
    refine (gives_step_question (s := r.nested n s) hn).congr ?_ (by rw [ht])
    rw [unloaded_nested r n hs hc]
    simp only [State.nested, unloaded]
    congr 1 <;> omega
  | colon hn hc' hl =>
    have hc : Element.binds .openParen = false := rfl
    obtain ⟨ht, hdrop⟩ := r.unload_nested n s hc
    have ho : (r.nested n s).openConditionals ≠ 0 := by
      change s.openConditionals + r.openConditionals ≠ 0
      omega
    refine (gives_step_colon (s := r.nested n s) hn ho (length_nested hc hd hl)).congr ?_ (by rw [ht])
    rw [unloaded_nested r n hs hc, hdrop]
    simp only [State.nested, unloaded]
    congr 1 <;> omega
  | terminator => exact absurd rfl hne

lemma within_of_gives {k : Nat} (h : (s.step o x).Gives t es) (hs : s.Within k) (hx : x.Known) :
    t.Within (k + 1) := ((meets_step hs hx).result t h.1).1

lemma Reaches.within {k : Nat} (h : Reaches o s xs t es) (hs : s.Within k) (hx : ∀ x ∈ xs, x.Known) :
    ∃ m, t.Within m := by
  induction h generalizing k with
  | nil s => exact ⟨k, hs⟩
  | cons hg _ ih =>
    obtain ⟨hx, hxs⟩ := List.forall_mem_cons.1 hx
    exact ih (within_of_gives hg hs hx) hxs

structure Inner (x : Symbol) : Prop where
  known : x.Known
  regular : x.Regular
  ne_terminator : x ≠ .terminator

lemma Reaches.nested {k : Nat} (h : Reaches o s xs t es) (hs : s.Within k) (hx : ∀ x ∈ xs, Inner x)
    (hp : o'.literalPolicy = o.literalPolicy)
    (hd : o.maxStackDepth + r.pending.length < o'.maxStackDepth) :
    Reaches o' (r.nested n s) xs (r.nested n t) es := by
  induction h generalizing k with
  | nil s => exact .nil _
  | cons hg _ ih =>
    obtain ⟨hx, hxs⟩ := List.forall_mem_cons.1 hx
    refine .cons ?_ (ih (within_of_gives hg hs hx.known) hxs)
    exact (takes_of_gives hg).nested hx.known hx.regular hx.ne_terminator hs.pending hp hd

structure Argument (o : Options) (xs : List Symbol) (t : State) (code : List Emission) : Prop where
  inner : ∀ x ∈ xs, Inner x
  complete : t.Complete
  operand : t.operandNeeded = false
  fresh : t.fresh = false
  lists : t.lists = []
  reaches : ∃ es, Reaches o {} xs t es ∧ code = es ++ opsOf (t.pending.takeWhile Element.isOperator)

def supplied (r : State) (k : Nat) : State :=
  { r with depth := r.depth + k, operandNeeded := false, fresh := false }

lemma gives_open (hn : r.operandNeeded = true) (hw : ∀ e ∈ r.pending, e.stackPriority < 8)
    (hd : r.pending.length < o.maxStackDepth) :
    (r.step o (.unary .openParen)).Gives (r.nested 0 {}) [] := by
  have hweak : ∀ e ∈ r.pending, Element.openParen.yields e = false :=
    fun e he => decide_eq_false (Nat.not_le.2 (hw e he))
  obtain ⟨ht, hdrop, hu⟩ := unloaded_of_weak hweak
  refine (gives_step_unary hn (by rwa [hdrop])).congr ?_ (by rw [ht]; rfl)
  rw [hu, hdrop]
  simp [State.nested, Element.isOpenParen, Element.openParen]

namespace Argument

variable {ys : List Symbol} {u : State} {code code' : List Emission}

lemma waits (h : Argument o xs t code) : ∀ e ∈ t.pending, e.Waits := by
  obtain ⟨es, hr, -⟩ := h.reaches
  obtain ⟨m, hm⟩ := hr.within within_start fun x hx => (h.inner x hx).known
  exact hm.pending

lemma unloaded_eq (h : Argument o xs t code) : t.unloaded Element.isOperator = supplied {} 1 := by
  have hdepth := h.complete.depth
  rw [h.fresh] at hdepth
  have hparts : t.unloaded Element.isOperator =
      ⟨t.pending.dropWhile Element.isOperator, (t.unloaded Element.isOperator).depth, t.operandNeeded, t.fresh,
        t.openConditionals, t.lists⟩ := rfl
  rw [hparts, hdepth, h.complete.pending, h.operand, h.fresh, h.complete.conditionals, h.lists]
  rfl

lemma unloaded_nested (h : Argument o xs t code) (r : State) (n : Nat) :
    (r.nested n t).unloaded Element.isOperator =
      { r with
        pending := .openParen :: r.pending
        depth := r.depth + n + 1
        operandNeeded := false
        fresh := false
        lists := ⟨r.depth, n⟩ :: r.lists } := by
  rw [State.unloaded_nested r n h.waits rfl, h.unloaded_eq]
  simp only [State.nested, supplied, List.nil_append, List.map_nil, Nat.zero_add]
  congr 1
  push_cast
  omega

lemma lists_nested (h : Argument o xs t code) (r : State) (n : Nat) :
    (r.nested n t).lists = ⟨r.depth, n⟩ :: r.lists := by
  rw [State.nested, h.lists]
  rfl

lemma gives_separator (h : Argument o xs t code) (r : State) (n : Nat) :
    ((r.nested n t).step o' .separator).Gives (r.nested (n + 1) {})
      (opsOf (t.pending.takeWhile Element.isOperator)) := by
  have hu := h.unloaded_nested r n
  obtain ⟨ht, hdrop⟩ := r.unload_nested n t (c := Element.isOperator) rfl
  refine (gives_step_separator (s := r.nested n t) h.operand (by simp [hdrop]) (h.lists_nested r n) ?_).congr
    ?_ (by rw [ht])
  · rw [hu]
  · rw [hu]
    simp only [State.nested, List.nil_append, List.map_nil, Nat.zero_add]
    congr 1
    push_cast
    omega

lemma gives_closeParen (h : Argument o xs t code) (r : State)
    (ha : r.pending.head?.elim 1 Element.argumentCount = n + 1) :
    ((r.nested n t).step o' .closeParen).Gives (r.supplied (n + 1))
      (opsOf (t.pending.takeWhile Element.isOperator)) := by
  have hu := h.unloaded_nested r n
  obtain ⟨ht, hdrop⟩ := r.unload_nested n t (c := Element.isOperator) rfl
  have hpending := h.complete.pending
  rw [hpending, List.nil_append] at hdrop
  refine (gives_step_closeParen (s := r.nested n t) h.operand hdrop (h.lists_nested r n) ?_ ?_).congr ?_
    (by rw [ht])
  · rw [hu]
    exact add_assoc ..
  · rw [ha]
    rfl
  · rw [hu, supplied, Nat.cast_succ, ← add_assoc]

section Outside

variable (hn : r.operandNeeded = true) (hw : ∀ e ∈ r.pending, e.stackPriority < 8)
  (hp : o'.literalPolicy = o.literalPolicy) (hd : o.maxStackDepth + r.pending.length < o'.maxStackDepth)

include hn hw hp hd

lemma paren (h : Argument o xs t code) (ha : r.pending.head?.elim 1 Element.argumentCount = 1) :
    Reaches o' r (.unary .openParen :: (xs ++ [.closeParen])) (r.supplied 1) code := by
  obtain ⟨es, hr, rfl⟩ := h.reaches
  have hopen := gives_open hn hw (Nat.lt_of_add_left_lt hd)
  have hinside := hr.nested within_start h.inner hp hd (n := 0)
  exact .silent hopen (hinside.append (.single (h.gives_closeParen r ha)))

lemma pair (h : Argument o xs t code) (h' : Argument o ys u code')
    (ha : r.pending.head?.elim 1 Element.argumentCount = 2) :
    Reaches o' r (.unary .openParen :: (xs ++ .separator :: (ys ++ [.closeParen]))) (r.supplied 2)
      (code ++ code') := by
  obtain ⟨es, hr, rfl⟩ := h.reaches
  obtain ⟨fs, hr', rfl⟩ := h'.reaches
  have hopen := gives_open hn hw (Nat.lt_of_add_left_lt hd)
  have hfirst := hr.nested within_start h.inner hp hd (n := 0)
  have hsecond := hr'.nested within_start h'.inner hp hd (n := 1)
  rw [List.append_assoc]
  exact .silent hopen (hfirst.append (.cons (h.gives_separator r 0)
    (hsecond.append (.single (h'.gives_closeParen r ha)))))

end Outside

end Argument

end State

end FormulaCode
