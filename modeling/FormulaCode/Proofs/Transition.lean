import FormulaCode.Proofs.Stepping

namespace FormulaCode

namespace Step

variable {α β : Type} {k : ErrorKind} {es : List Emission}

def Raises (x : Step α) (k : ErrorKind) (es : List Emission) : Prop :=
  x.result = .error k ∧ x.emitted = es

lemma raises_fail (k : ErrorKind) : (fail k : Step α).Raises k [] := ⟨rfl, rfl⟩

lemma Raises.bind {x : Step α} (hx : x.Raises k es) (f : α → Step β) : (x >>= f).Raises k es := by
  rw [bind_of_error hx.1]
  exact ⟨rfl, hx.2⟩

lemma Gives.raises {x : Step α} {f : α → Step β} {a : α} {fs : List Emission} (hx : x.Gives a es)
    (hf : (f a).Raises k fs) : (x >>= f).Raises k (es ++ fs) := by
  rw [bind_of_ok hx.1]
  exact ⟨hf.1, by rw [← hx.2, ← hf.2]; exact emissionsOf_append _ _⟩

lemma Gives.silent_raises {x : Step α} {f : α → Step β} {a : α} (hx : x.Gives a [])
    (hf : (f a).Raises k es) : (x >>= f).Raises k es := hx.raises hf

lemma Gives.raises_silent {x : Step α} {f : α → Step β} {a : α} (hx : x.Gives a es)
    (hf : (f a).Raises k []) : (x >>= f).Raises k es := List.append_nil es ▸ hx.raises hf

lemma raises_require {c : Bool} (h : c = false) (k : ErrorKind) : (require c k).Raises k [] := by
  rw [require, if_neg (by simp [h])]
  exact raises_fail k

end Step

/-- `-` and the binary operators, as what they wait for their second operand. -/
def Symbol.Joins (x : Symbol) (e : Element) : Prop := x = .binary e ∨ x = .minus ∧ e = .subtract

def Symbol.Precedes (x : Symbol) (e : Element) : Prop := x = .unary e ∨ x = .minus ∧ e = .negate

def Symbol.isMisplaced (operandNeeded : Bool) : Symbol → Bool
  | .operand _ | .numeral _ | .unary _ => !operandNeeded
  | .binary _ | .separator | .closeParen | .question | .colon => operandNeeded
  | .minus | .terminator => false

abbrev Element.yields (e top : Element) : Bool := e.arrivalPriority ≤ top.stackPriority

abbrev Element.binds (top : Element) : Bool := 0 < top.stackPriority

abbrev Element.isOperator (top : Element) : Bool := !top.isOpenParen

namespace State

open Step

variable {o : Options} {s : State} {x : Symbol} {k : ErrorKind} {es : List Emission}

inductive Unfinished (s : State) : List Emission → ErrorKind → Prop
  | operand (hn : s.operandNeeded = true) (hf : s.fresh = false) : Unfinished s [] .missingOperand
  | paren (hn : s.operandNeeded = false ∨ s.fresh = true)
    (hp : s.pending.dropWhile Element.isOperator ≠ []) :
    Unfinished s (opsOf (s.pending.takeWhile Element.isOperator)) .unbalancedParen
  | conditional (hn : s.operandNeeded = false ∨ s.fresh = true)
    (hp : s.pending.dropWhile Element.isOperator = []) (hc : s.openConditionals ≠ 0) :
    Unfinished s (opsOf (s.pending.takeWhile Element.isOperator)) .unbalancedConditional
  | count (hn : s.operandNeeded = false ∨ s.fresh = true)
    (hp : s.pending.dropWhile Element.isOperator = []) (hc : s.openConditionals = 0)
    (hd : (s.unloaded Element.isOperator).depth ≠ if s.fresh then 0 else 1) :
    Unfinished s (opsOf (s.pending.takeWhile Element.isOperator)) .argumentCount

/-- The ways in which a lexeme can be read: the code emitted, and then a state or a violation. -/
inductive Takes (o : Options) (s : State) : Symbol → List Emission → Except ErrorKind State → Prop
  | misplaced {x : Symbol} (h : x.isMisplaced s.operandNeeded = true) :
    Takes o s x [] (.error .missingOperand)
  | operand {e : Emission} (hn : s.operandNeeded = true) :
    Takes o s (.operand e) [e] (.ok { s with depth := e.depthAfter s.depth }.operandDone)
  | refused {n : Numeral} (hn : s.operandNeeded = true) (hv : n.valueUnder o.literalPolicy = none) :
    Takes o s (.numeral n) [] (.error .badLiteral)
  | numeral {n : Numeral} {v : Double} (hn : s.operandNeeded = true)
    (hv : n.valueUnder o.literalPolicy = some v) :
    Takes o s (.numeral n) [.literal v] (.ok { s with depth := s.depth + 1 }.operandDone)
  | full {x : Symbol} {e : Element}
    (hx : s.operandNeeded = false ∧ x.Joins e ∨ s.operandNeeded = true ∧ x.Precedes e)
    (hl : o.maxStackDepth ≤ (s.pending.dropWhile e.yields).length) :
    Takes o s x (opsOf (s.pending.takeWhile e.yields)) (.error .expressionTooComplex)
  | binary {x : Symbol} {e : Element} (hn : s.operandNeeded = false) (hx : x.Joins e)
    (hl : (s.pending.dropWhile e.yields).length < o.maxStackDepth) :
    Takes o s x (opsOf (s.pending.takeWhile e.yields))
      (.ok { s.unloaded e.yields with
        pending := e :: s.pending.dropWhile e.yields
        operandNeeded := true })
  | unary {x : Symbol} {e : Element} (hn : s.operandNeeded = true) (hx : x.Precedes e)
    (hl : (s.pending.dropWhile e.yields).length < o.maxStackDepth) :
    Takes o s x (opsOf (s.pending.takeWhile e.yields))
      (.ok { s.unloaded e.yields with
        pending := e :: s.pending.dropWhile e.yields
        lists := if e.isOpenParen then ⟨(s.unloaded e.yields).depth, 0⟩ :: s.lists else s.lists
        operandNeeded := true
        fresh := false })
  | unopened {x : Symbol} {k : ErrorKind} (hn : s.operandNeeded = false)
    (hx : x = .separator ∧ k = .unbalancedParen ∨ x = .closeParen ∧ k = .extraCloseParen)
    (hp : s.pending.dropWhile Element.isOperator = [] ∨ s.lists = []) :
    Takes o s x (opsOf (s.pending.takeWhile Element.isOperator)) (.error k)
  | miscounted {x : Symbol} (hn : s.operandNeeded = false) (hx : x = .separator ∨ x = .closeParen)
    (hp : s.pending.dropWhile Element.isOperator ≠ []) (hs : s.lists ≠ []) :
    Takes o s x (opsOf (s.pending.takeWhile Element.isOperator)) (.error .argumentCount)
  | separator {list : ArgumentList} {lists : List ArgumentList} (hn : s.operandNeeded = false)
    (hp : s.pending.dropWhile Element.isOperator ≠ []) (hs : s.lists = list :: lists)
    (hd : (s.unloaded Element.isOperator).depth = list.base + list.separated + 1) :
    Takes o s .separator (opsOf (s.pending.takeWhile Element.isOperator))
      (.ok { s.unloaded Element.isOperator with
        lists := { list with separated := list.separated + 1 } :: lists
        operandNeeded := true })
  | closeParen {list : ArgumentList} {lists : List ArgumentList} {p : Element} {pending : List Element}
    (hn : s.operandNeeded = false) (hp : s.pending.dropWhile Element.isOperator = p :: pending)
    (hs : s.lists = list :: lists)
    (hd : (s.unloaded Element.isOperator).depth = list.base + (list.separated + 1))
    (ha : list.separated + 1 = (pending.head?.elim 1 Element.argumentCount : Nat)) :
    Takes o s .closeParen (opsOf (s.pending.takeWhile Element.isOperator))
      (.ok { s.unloaded Element.isOperator with pending, lists, operandNeeded := false })
  | question (hn : s.operandNeeded = false) :
    Takes o s .question
      (opsOf (s.pending.takeWhile Element.binds) ++ [.op Opcode.branchIf.byte])
      (.ok { s.unloaded Element.binds with
        depth := (s.unloaded Element.binds).depth - 1
        openConditionals := s.openConditionals + 1
        operandNeeded := true })
  | unasked (hn : s.operandNeeded = false) (hc : s.openConditionals = 0) :
    Takes o s .colon (opsOf (s.pending.takeWhile Element.binds)) (.error .unbalancedConditional)
  | unended (hn : s.operandNeeded = false) (hc : s.openConditionals ≠ 0)
    (hl : o.maxStackDepth ≤ (s.pending.dropWhile Element.binds).length) :
    Takes o s .colon (opsOf (s.pending.takeWhile Element.binds) ++ [.op Opcode.branchElse.byte])
      (.error .expressionTooComplex)
  | colon (hn : s.operandNeeded = false) (hc : s.openConditionals ≠ 0)
    (hl : (s.pending.dropWhile Element.binds).length < o.maxStackDepth) :
    Takes o s .colon (opsOf (s.pending.takeWhile Element.binds) ++ [.op Opcode.branchElse.byte])
      (.ok { s.unloaded Element.binds with
        pending := .branchEnd :: s.pending.dropWhile Element.binds
        depth := (s.unloaded Element.binds).depth - 1
        openConditionals := s.openConditionals - 1
        operandNeeded := true })
  | unfinished {es : List Emission} {k : ErrorKind} (h : s.Unfinished es k) :
    Takes o s .terminator es (.error k)
  | terminator (h : s.Complete) :
    Takes o s .terminator
      (opsOf (s.pending.takeWhile Element.isOperator) ++ [.op Opcode.endExpr.byte]) (.ok {})

lemma Takes.of_gives {t : State} (h : (s.step o x).Gives t es) (ht : s.Takes o x es (.ok t)) :
    s.Takes o x (s.step o x).emitted (s.step o x).result := by
  rw [h.1, h.2]
  exact ht

lemma Takes.of_raises (h : (s.step o x).Raises k es) (ht : s.Takes o x es (.error k)) :
    s.Takes o x (s.step o x).emitted (s.step o x).result := by
  rw [h.1, h.2]
  exact ht

section Finish

lemma exists_unfinished (h : ¬ s.Complete) : ∃ es k, s.Unfinished es k ∧ s.finish.Raises k es := by
  have hops := gives_emitWhile s Element.isOperator
  by_cases hn : s.operandNeeded = false ∨ s.fresh = true
  · have hrequire : (require (!s.operandNeeded || s.fresh) .missingOperand).Gives () [] :=
      gives_require (by simpa using hn) _
    by_cases hp : s.pending.dropWhile Element.isOperator = []
    · by_cases hc : s.openConditionals = 0
      · have hd : (s.unloaded Element.isOperator).depth ≠ if s.fresh then 0 else 1 :=
          fun hd => h ⟨hn, hp, hc, hd⟩
        refine ⟨_, _, .count hn hp hc hd, hrequire.silent_raises (hops.raises_silent ?_)⟩
        apply (gives_require (by simp [unloaded, hp]) _).silent_raises
        apply (gives_require (by simp [unloaded, hc]) _).silent_raises
        exact (raises_require (beq_eq_false_iff_ne.2 hd) _).bind _
      · refine ⟨_, _, .conditional hn hp hc, hrequire.silent_raises (hops.raises_silent ?_)⟩
        apply (gives_require (by simp [unloaded, hp]) _).silent_raises
        exact (raises_require (by simpa [unloaded] using hc) _).bind _
    · refine ⟨_, _, .paren hn hp, hrequire.silent_raises (hops.raises_silent ?_)⟩
      exact (raises_require (by simpa [unloaded] using hp) _).bind _
  · simp only [not_or, Bool.not_eq_false, Bool.not_eq_true] at hn
    refine ⟨_, _, .operand hn.1 hn.2, (raises_require ?_ _).bind _⟩
    simp [hn]

lemma Unfinished.of_raises (h : s.finish.Raises k es) : s.Unfinished es k := by
  have hc : ¬ s.Complete := fun hc => by
    have hok := h.1
    rw [(gives_finish hc).1] at hok
    cases hok
  obtain ⟨fs, l, hu, hr⟩ := exists_unfinished hc
  cases h.2.symm.trans hr.2
  cases h.1.symm.trans hr.1
  exact hu

end Finish

section Symbols

variable {e : Element}

lemma raises_push {limit : Nat} (h : limit ≤ s.pending.length) (e : Element) :
    (s.push limit e).Raises .expressionTooComplex [] := by
  simp only [push, OperatorStack.push, if_neg (Nat.not_lt.2 h)]
  exact raises_fail _

lemma raises_pushOperator {limit : Nat} (h : limit ≤ (s.pending.dropWhile e.yields).length) :
    (s.pushOperator limit e).Raises .expressionTooComplex (opsOf (s.pending.takeWhile e.yields)) :=
  (gives_flush s e.yields).raises_silent (raises_push h e)

lemma gives_step_joins (hn : s.operandNeeded = false) (hj : x.Joins e)
    (hl : (s.pending.dropWhile e.yields).length < o.maxStackDepth) :
    (s.step o x).Gives
      { s.unloaded e.yields with
        pending := e :: s.pending.dropWhile e.yields
        operandNeeded := true } (opsOf (s.pending.takeWhile e.yields)) := by
  rcases hj with rfl | ⟨rfl, rfl⟩
  · exact gives_step_binary hn hl
  · exact gives_step_minus hn hl

lemma gives_step_precedes (hn : s.operandNeeded = true) (hp : x.Precedes e)
    (hl : (s.pending.dropWhile e.yields).length < o.maxStackDepth) :
    (s.step o x).Gives
      { s.unloaded e.yields with
        pending := e :: s.pending.dropWhile e.yields
        lists := if e.isOpenParen then ⟨(s.unloaded e.yields).depth, 0⟩ :: s.lists else s.lists
        operandNeeded := true
        fresh := false } (opsOf (s.pending.takeWhile e.yields)) := by
  rcases hp with rfl | ⟨rfl, rfl⟩
  · exact gives_step_unary hn hl
  · rw [step_minus_of_needed hn]
    exact gives_step_unary hn hl

lemma raises_step_joins (hn : s.operandNeeded = false) (hj : x.Joins e)
    (hl : o.maxStackDepth ≤ (s.pending.dropWhile e.yields).length) :
    (s.step o x).Raises .expressionTooComplex (opsOf (s.pending.takeWhile e.yields)) := by
  have hpush := raises_pushOperator hl
  rcases hj with rfl | ⟨rfl, rfl⟩
  · exact (gives_require (by simp [hn]) _).silent_raises (hpush.bind _)
  · simp only [step, hn, Element.minus]
    exact hpush.bind _

lemma raises_step_precedes (hn : s.operandNeeded = true) (hp : x.Precedes e)
    (hl : o.maxStackDepth ≤ (s.pending.dropWhile e.yields).length) :
    (s.step o x).Raises .expressionTooComplex (opsOf (s.pending.takeWhile e.yields)) := by
  have hraises : (s.step o (.unary e)).Raises .expressionTooComplex (opsOf (s.pending.takeWhile e.yields)) :=
    (gives_require hn _).silent_raises ((raises_pushOperator hl).bind _)
  rcases hp with rfl | ⟨rfl, rfl⟩
  · exact hraises
  · rw [step_minus_of_needed hn]
    exact hraises

lemma takes_of_joins (hn : s.operandNeeded = false) (hj : x.Joins e) :
    s.Takes o x (s.step o x).emitted (s.step o x).result := by
  rcases Nat.lt_or_ge (s.pending.dropWhile e.yields).length o.maxStackDepth with hl | hl
  · exact .of_gives (gives_step_joins hn hj hl) (.binary hn hj hl)
  · exact .of_raises (raises_step_joins hn hj hl) (.full (.inl ⟨hn, hj⟩) hl)

lemma takes_of_precedes (hn : s.operandNeeded = true) (hp : x.Precedes e) :
    s.Takes o x (s.step o x).emitted (s.step o x).result := by
  rcases Nat.lt_or_ge (s.pending.dropWhile e.yields).length o.maxStackDepth with hl | hl
  · exact .of_gives (gives_step_precedes hn hp hl) (.unary hn hp hl)
  · exact .of_raises (raises_step_precedes hn hp hl) (.full (.inr ⟨hn, hp⟩) hl)

lemma takes_minus : s.Takes o .minus (s.step o .minus).emitted (s.step o .minus).result := by
  cases hn : s.operandNeeded with
  | true => exact takes_of_precedes hn (.inr ⟨rfl, rfl⟩)
  | false => exact takes_of_joins hn (.inr ⟨rfl, rfl⟩)

lemma raises_unwind (h : s.pending.dropWhile Element.isOperator = []) (k : ErrorKind) :
    (s.unwind k).Raises k (opsOf (s.pending.takeWhile Element.isOperator)) :=
  (gives_emitWhile s _).raises_silent ((raises_require (by simp [unloaded, h]) _).bind _)

lemma takes_separator (hn : s.operandNeeded = false) :
    s.Takes o .separator (s.step o .separator).emitted (s.step o .separator).result := by
  have hrequire : (require (!s.operandNeeded) .missingOperand).Gives () [] := gives_require (by simp [hn]) _
  by_cases hp : s.pending.dropWhile Element.isOperator = []
  · apply Takes.of_raises ?_ (.unopened hn (.inl ⟨rfl, rfl⟩) (.inl hp))
    exact hrequire.silent_raises ((raises_unwind hp _).bind _)
  have hunwind := gives_unwind (k := .unbalancedParen) hp
  cases hs : s.lists with
  | nil =>
    apply Takes.of_raises ?_ (.unopened hn (.inl ⟨rfl, rfl⟩) (.inr hs))
    refine hrequire.silent_raises (hunwind.raises_silent (Raises.bind ?_ _))
    simp only [separateArgument, unloaded, hs]
    exact raises_fail _
  | cons list lists =>
    by_cases hd : (s.unloaded Element.isOperator).depth = list.base + list.separated + 1
    · exact .of_gives (gives_step_separator hn hp hs hd) (.separator hn hp hs hd)
    · apply Takes.of_raises ?_ (.miscounted hn (.inl rfl) hp (by simp [hs]))
      refine hrequire.silent_raises (hunwind.raises_silent (Raises.bind ?_ _))
      have hs' : (s.unloaded Element.isOperator).lists = list :: lists := hs
      simp only [separateArgument, hs']
      exact (gives_checkCounters _).silent_raises ((raises_require (by simpa using hd) _).bind _)

lemma takes_closeParen (hn : s.operandNeeded = false) :
    s.Takes o .closeParen (s.step o .closeParen).emitted (s.step o .closeParen).result := by
  have hrequire : (require (!s.operandNeeded) .missingOperand).Gives () [] := gives_require (by simp [hn]) _
  cases hp : s.pending.dropWhile Element.isOperator with
  | nil =>
    apply Takes.of_raises ?_ (.unopened hn (.inr ⟨rfl, rfl⟩) (.inl hp))
    exact hrequire.silent_raises ((raises_unwind hp _).bind _)
  | cons p pending =>
    have hunwind := gives_unwind (s := s) (k := .extraCloseParen) (by simp [hp])
    have hdrop : (s.unloaded Element.isOperator).pending.drop 1 = pending := by simp [unloaded, hp]
    cases hs : s.lists with
    | nil =>
      apply Takes.of_raises ?_ (.unopened hn (.inr ⟨rfl, rfl⟩) (.inr hs))
      refine hrequire.silent_raises (hunwind.raises_silent (Raises.bind ?_ _))
      simp only [closeArguments, unloaded, hs]
      exact raises_fail _
    | cons list lists =>
      by_cases h : (s.unloaded Element.isOperator).depth = list.base + (list.separated + 1) ∧
          list.separated + 1 = (pending.head?.elim 1 Element.argumentCount : Nat)
      · exact .of_gives (gives_step_closeParen hn hp hs h.1 h.2) (.closeParen hn hp hs h.1 h.2)
      · apply Takes.of_raises ?_ (.miscounted hn (.inr rfl) (by simp [hp]) (by simp [hs]))
        refine hrequire.silent_raises (hunwind.raises_silent (Raises.bind ?_ _))
        have hs' : (s.unloaded Element.isOperator).lists = list :: lists := hs
        simp only [closeArguments, hs', hdrop]
        exact (gives_checkCounters _).silent_raises ((raises_require (by simpa using h) _).bind _)

lemma takes_colon (hn : s.operandNeeded = false) :
    s.Takes o .colon (s.step o .colon).emitted (s.step o .colon).result := by
  have hrequire : (require (!s.operandNeeded) .missingOperand).Gives () [] := gives_require (by simp [hn]) _
  have hflush := gives_flush s Element.binds
  by_cases hc : s.openConditionals = 0
  · apply Takes.of_raises ?_ (.unasked hn hc)
    refine hrequire.silent_raises (hflush.raises_silent ?_)
    exact (raises_require (by simp [unloaded, hc]) _).bind _
  by_cases hl : (s.pending.dropWhile Element.binds).length < o.maxStackDepth
  · exact .of_gives (gives_step_colon hn hc hl) (.colon hn hc hl)
  · apply Takes.of_raises ?_ (.unended hn hc (Nat.not_lt.1 hl))
    refine hrequire.silent_raises (hflush.raises ?_)
    apply (gives_require (by simpa [unloaded] using hc) _).silent_raises
    exact (gives_emit _ _).raises_silent ((raises_push (Nat.not_lt.1 hl) _).bind _)

lemma takes_terminator :
    s.Takes o .terminator (s.step o .terminator).emitted (s.step o .terminator).result := by
  by_cases h : s.Complete
  · exact .of_gives (gives_step_terminator h) (.terminator h)
  · obtain ⟨es, k, hu, hr⟩ := exists_unfinished h
    exact .of_raises (hr.bind _) (.unfinished hu)

lemma takes_numeral (hn : s.operandNeeded = true) (n : Numeral) :
    s.Takes o (.numeral n) (s.step o (.numeral n)).emitted (s.step o (.numeral n)).result := by
  cases hv : n.valueUnder o.literalPolicy with
  | some v => exact .of_gives (gives_step_numeral hn hv) (.numeral hn hv)
  | none =>
    apply Takes.of_raises ?_ (.refused hn hv)
    refine (gives_require hn _).silent_raises (Raises.bind ?_ _)
    simp only [literal, hv]
    exact Gives.silent_raises (a := ()) ⟨rfl, rfl⟩ (raises_fail _)

lemma raises_misplaced (h : x.isMisplaced s.operandNeeded = true) :
    (s.step o x).Raises .missingOperand [] := by
  cases x with
  | minus => cases h
  | terminator => cases h
  | _ => exact (raises_require (by simpa [Symbol.isMisplaced] using h) _).bind _

lemma takes_step (o : Options) (s : State) (x : Symbol) :
    s.Takes o x (s.step o x).emitted (s.step o x).result := by
  by_cases h : x.isMisplaced s.operandNeeded = true
  · exact .of_raises (raises_misplaced h) (.misplaced h)
  cases x with
  | operand e =>
    have hn : s.operandNeeded = true := by simpa [Symbol.isMisplaced] using h
    exact .of_gives (gives_step_operand hn) (.operand hn)
  | numeral n => exact takes_numeral (by simpa [Symbol.isMisplaced] using h) n
  | unary e => exact takes_of_precedes (by simpa [Symbol.isMisplaced] using h) (.inl rfl)
  | binary e => exact takes_of_joins (by simpa [Symbol.isMisplaced] using h) (.inl rfl)
  | minus => exact takes_minus
  | question =>
    have hn : s.operandNeeded = false := by simpa [Symbol.isMisplaced] using h
    exact .of_gives (gives_step_question hn) (.question hn)
  | colon => exact takes_colon (by simpa [Symbol.isMisplaced] using h)
  | separator => exact takes_separator (by simpa [Symbol.isMisplaced] using h)
  | closeParen => exact takes_closeParen (by simpa [Symbol.isMisplaced] using h)
  | terminator => exact takes_terminator

end Symbols

end State

end FormulaCode
