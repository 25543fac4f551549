import Mathlib
import FormulaCode.Compilation

namespace FormulaCode

def emissionsOf (events : List Event) : List Emission :=
  events.filterMap fun
    | .emit e => some e
    | _ => none

@[simp] lemma emissionsOf_nil : emissionsOf [] = [] := rfl

@[simp] lemma emissionsOf_append (xs ys : List Event) :
    emissionsOf (xs ++ ys) = emissionsOf xs ++ emissionsOf ys := List.filterMap_append

@[simp] lemma emissionsOf_map_emit (es : List Emission) : emissionsOf (es.map .emit) = es := by
  induction es with
  | nil => rfl
  | cons e es ih => exact congrArg (e :: ·) ih

namespace Step

variable {α β : Type}

def emitted (x : Step α) : List Emission := emissionsOf x.events

def Gives (x : Step α) (a : α) (es : List Emission) : Prop := x.result = .ok a ∧ x.emitted = es

def Fails (x : Step α) : Prop := ∃ k, x.result = .error k

lemma gives_pure (a : α) : (pure a : Step α).Gives a [] := ⟨rfl, rfl⟩

lemma Gives.congr {x : Step α} {a b : α} {es fs : List Emission} (h : x.Gives a es) (ha : a = b)
    (he : es = fs) : x.Gives b fs := ha ▸ he ▸ h

lemma Gives.bind {x : Step α} {f : α → Step β} {a : α} {b : β} {es fs : List Emission}
    (hx : x.Gives a es) (hf : (f a).Gives b fs) : (x >>= f).Gives b (es ++ fs) := by
  rw [bind_of_ok hx.1]
  exact ⟨hf.1, by rw [← hx.2, ← hf.2]; exact emissionsOf_append _ _⟩

lemma Gives.silent {x : Step α} {f : α → Step β} {a : α} {b : β} {es : List Emission}
    (hx : x.Gives a []) (hf : (f a).Gives b es) : (x >>= f).Gives b es := hx.bind hf

lemma Gives.map {x : Step α} {a : α} {es : List Emission} (hx : x.Gives a es) (g : α → β) :
    (x >>= fun a => pure (g a)).Gives (g a) es :=
  (hx.bind (gives_pure (g a))).congr rfl (List.append_nil es)

lemma Gives.bind_fails {x : Step α} {f : α → Step β} {a : α} {es : List Emission}
    (hx : x.Gives a es) (hf : (f a).Fails) : (x >>= f).Fails := by
  obtain ⟨k, hk⟩ := hf
  exact ⟨k, by rw [bind_of_ok hx.1]; exact hk⟩

lemma Fails.bind {x : Step α} (hx : x.Fails) (f : α → Step β) : (x >>= f).Fails := by
  obtain ⟨k, hk⟩ := hx
  exact ⟨k, by rw [bind_of_error hk]⟩

lemma fails_fail (k : ErrorKind) : (fail k : Step α).Fails := ⟨k, rfl⟩

lemma gives_require {c : Bool} (h : c = true) (k : ErrorKind) : (require c k).Gives () [] := by
  rw [require, if_pos h]
  exact gives_pure ()

lemma fails_require {c : Bool} (h : c = false) (k : ErrorKind) : (require c k).Fails := by
  rw [require, if_neg (by simp [h])]
  exact fails_fail k

lemma gives_check (c : Bool) (b : Breach) : (check c b).Gives () [] := by
  cases c
  · exact ⟨rfl, rfl⟩
  · exact gives_pure ()

lemma gives_checkCounters (ns : List Int) : (checkCounters ns).Gives () [] := gives_check _ _

end Step

namespace State

open Step

variable {o : Options} {s : State} {policy : LiteralPolicy}

def opsOf (es : List Element) : List Emission := es.map fun e => .op e.code

def depthOf (d : Int) (es : List Emission) : Int := es.foldl Emission.depthAfter d

lemma depthOf_append (d : Int) (es fs : List Emission) :
    depthOf d (es ++ fs) = depthOf (depthOf d es) fs := List.foldl_append

def unloaded (s : State) (c : Element → Bool) : State :=
  { s with
    pending := s.pending.dropWhile c
    depth := depthOf s.depth (opsOf (s.pending.takeWhile c)) }

lemma unloaded_of_weak {c : Element → Bool} (h : ∀ x ∈ s.pending, c x = false) :
    s.pending.takeWhile c = [] ∧ s.pending.dropWhile c = s.pending ∧ s.unloaded c = s := by
  have ht : s.pending.takeWhile c = [] ∧ s.pending.dropWhile c = s.pending := by
    cases hp : s.pending with
    | nil => exact ⟨rfl, rfl⟩
    | cons x xs => simp [h x (by simp [hp])]
  refine ⟨ht.1, ht.2, ?_⟩
  rw [unloaded, ht.1, ht.2]
  rfl

lemma gives_emit (s : State) (es : List Emission) :
    (s.emit es).Gives { s with depth := depthOf s.depth es } es :=
  ⟨rfl, emissionsOf_map_emit es⟩

lemma gives_emitWhile (s : State) (c : Element → Bool) :
    (s.emitWhile c).Gives (s.unloaded c) (opsOf (s.pending.takeWhile c)) :=
  gives_emit { s with pending := s.pending.dropWhile c } _

lemma gives_flush (s : State) (c : Element → Bool) :
    (s.flush c).Gives (s.unloaded c) (opsOf (s.pending.takeWhile c)) :=
  (gives_check _ _).bind (gives_emitWhile s c)

lemma gives_push {limit : Nat} (h : s.pending.length < limit) (e : Element) :
    (s.push limit e).Gives { s with pending := e :: s.pending } [] := by
  simp only [push, OperatorStack.push, if_pos h]
  exact gives_pure _

lemma gives_pushOperator {limit : Nat} {e : Element}
    (h : (s.unloaded fun top => e.arrivalPriority ≤ top.stackPriority).pending.length < limit) :
    (s.pushOperator limit e).Gives
      { s.unloaded fun top => e.arrivalPriority ≤ top.stackPriority with
        pending := e :: s.pending.dropWhile fun top => e.arrivalPriority ≤ top.stackPriority }
      (opsOf (s.pending.takeWhile fun top => e.arrivalPriority ≤ top.stackPriority)) := by
  have hp := (gives_flush s fun top => e.arrivalPriority ≤ top.stackPriority).bind
    (f := push limit e) (gives_push h e)
  rwa [List.append_nil] at hp

lemma gives_literal {n : Numeral} {x : Double} (h : n.valueUnder policy = some x) (s : State) :
    (s.literal policy n).Gives { s with depth := s.depth + 1 } [.literal x] := by
  simp only [literal, h]
  split
  · exact Gives.silent (a := ()) ⟨rfl, rfl⟩ (gives_emit s [.literal x])
  · exact gives_emit s [.literal x]

section Symbols

variable {e : Element}

lemma gives_step_operand {x : Emission} (hn : s.operandNeeded = true) :
    (s.step o (.operand x)).Gives { s with depth := x.depthAfter s.depth }.operandDone [x] :=
  (gives_require hn _).silent ((gives_emit s [x]).map _)

lemma gives_step_numeral {n : Numeral} {x : Double} (hn : s.operandNeeded = true)
    (h : n.valueUnder o.literalPolicy = some x) :
    (s.step o (.numeral n)).Gives { s with depth := s.depth + 1 }.operandDone [.literal x] :=
  (gives_require hn _).silent ((gives_literal h s).map _)

lemma gives_step_binary (hn : s.operandNeeded = false)
    (hl : (s.pending.dropWhile fun top => e.arrivalPriority ≤ top.stackPriority).length <
      o.maxStackDepth) :
    (s.step o (.binary e)).Gives
      { s.unloaded fun top => e.arrivalPriority ≤ top.stackPriority with
        pending := e :: s.pending.dropWhile fun top => e.arrivalPriority ≤ top.stackPriority
        operandNeeded := true }
      (opsOf (s.pending.takeWhile fun top => e.arrivalPriority ≤ top.stackPriority)) :=
  (gives_require (by simp [hn]) _).silent ((gives_pushOperator hl).map _)

lemma gives_step_unary (hn : s.operandNeeded = true)
    (hl : (s.pending.dropWhile fun top => e.arrivalPriority ≤ top.stackPriority).length <
      o.maxStackDepth) :
    (s.step o (.unary e)).Gives
      { s.unloaded fun top => e.arrivalPriority ≤ top.stackPriority with
        pending := e :: s.pending.dropWhile fun top => e.arrivalPriority ≤ top.stackPriority
        lists := if e.isOpenParen then
            ⟨(s.unloaded fun top => e.arrivalPriority ≤ top.stackPriority).depth, 0⟩ :: s.lists
          else s.lists
        operandNeeded := true
        fresh := false }
      (opsOf (s.pending.takeWhile fun top => e.arrivalPriority ≤ top.stackPriority)) :=
  (gives_require hn _).silent ((gives_pushOperator hl).map _)

lemma step_minus_of_needed (hn : s.operandNeeded = true) :
    s.step o .minus = s.step o (.unary .negate) := by
  simp [step, Step.require, hn, Element.minus, Element.isOpenParen, Element.negate, parenByte,
    UnaryOp.byte]

lemma gives_step_minus (hn : s.operandNeeded = false)
    (hl : (s.pending.dropWhile fun top =>
      Element.subtract.arrivalPriority ≤ top.stackPriority).length < o.maxStackDepth) :
    (s.step o .minus).Gives
      { s.unloaded fun top => Element.subtract.arrivalPriority ≤ top.stackPriority with
        pending := .subtract :: s.pending.dropWhile fun top =>
          Element.subtract.arrivalPriority ≤ top.stackPriority
        operandNeeded := true }
      (opsOf (s.pending.takeWhile fun top => Element.subtract.arrivalPriority ≤ top.stackPriority)) := by
  simp only [step, hn, Element.minus]
  refine ((gives_pushOperator (e := .subtract) hl).map _).congr ?_ rfl
  simp [unloaded]

lemma gives_unwind {k : ErrorKind} (h : s.pending.dropWhile (fun top => !top.isOpenParen) ≠ []) :
    (s.unwind k).Gives (s.unloaded fun top => !top.isOpenParen)
      (opsOf (s.pending.takeWhile fun top => !top.isOpenParen)) := by
  have hr : (Step.require (!(s.unloaded fun top => !top.isOpenParen).pending.isEmpty) k).Gives () [] :=
    gives_require (by simpa [unloaded] using h) _
  exact ((gives_emitWhile s _).bind (hr.map _)).congr rfl (List.append_nil _)

lemma gives_separateArgument {list : ArgumentList} {lists : List ArgumentList}
    (hs : s.lists = list :: lists) (hd : s.depth = list.base + list.separated + 1) :
    s.separateArgument.Gives
      { s with lists := { list with separated := list.separated + 1 } :: lists } [] := by
  simp only [separateArgument, hs]
  exact (gives_checkCounters _).silent ((gives_require (by simp [hd]) _).silent
    ((gives_checkCounters _).map _))

lemma gives_closeArguments {list : ArgumentList} {lists : List ArgumentList}
    (hs : s.lists = list :: lists) (hd : s.depth = list.base + (list.separated + 1))
    (ha : list.separated + 1 = (s.pending.head?.elim 1 Element.argumentCount : Nat)) :
    s.closeArguments.Gives { s with lists } [] := by
  simp only [closeArguments, hs]
  exact (gives_checkCounters _).silent ((gives_require (by simp [hd, ha]) _).map _)

lemma gives_step_separator {list : ArgumentList} {lists : List ArgumentList}
    (hn : s.operandNeeded = false) (hp : s.pending.dropWhile (fun top => !top.isOpenParen) ≠ [])
    (hs : s.lists = list :: lists)
    (hd : (s.unloaded fun top => !top.isOpenParen).depth = list.base + list.separated + 1) :
    (s.step o .separator).Gives
      { s.unloaded fun top => !top.isOpenParen with
        lists := { list with separated := list.separated + 1 } :: lists
        operandNeeded := true }
      (opsOf (s.pending.takeWhile fun top => !top.isOpenParen)) := by
  have hg := (gives_separateArgument (s := s.unloaded fun top => !top.isOpenParen) hs hd).map
    fun s : State => { s with operandNeeded := true }
  exact (gives_require (by simp [hn]) _).silent
    (((gives_unwind hp).bind hg).congr rfl (List.append_nil _))

lemma gives_step_closeParen {list : ArgumentList} {lists : List ArgumentList} {p : Element}
    {pending : List Element} (hn : s.operandNeeded = false)
    (hp : s.pending.dropWhile (fun top => !top.isOpenParen) = p :: pending)
    (hs : s.lists = list :: lists)
    (hd : (s.unloaded fun top => !top.isOpenParen).depth = list.base + (list.separated + 1))
    (ha : list.separated + 1 = (pending.head?.elim 1 Element.argumentCount : Nat)) :
    (s.step o .closeParen).Gives
      { s.unloaded fun top => !top.isOpenParen with pending, lists, operandNeeded := false }
      (opsOf (s.pending.takeWhile fun top => !top.isOpenParen)) := by
  have hdrop : (s.unloaded fun top => !top.isOpenParen).pending.drop 1 = pending := by
    simp [unloaded, hp]
  have hg := (gives_closeArguments
    (s := { s.unloaded fun top => !top.isOpenParen with
      pending := (s.unloaded fun top => !top.isOpenParen).pending.drop 1 }) hs hd
    (by rw [hdrop]; exact ha)).map fun s : State => { s with operandNeeded := false }
  have hu := gives_unwind (s := s) (k := .extraCloseParen) (by simp [hp])
  refine (gives_require (by simp [hn]) _).silent ((hu.bind hg).congr ?_ (List.append_nil _))
  rw [hdrop]

lemma gives_step_question (hn : s.operandNeeded = false) :
    (s.step o .question).Gives
      { s.unloaded fun top => 0 < top.stackPriority with
        depth := (s.unloaded fun top => 0 < top.stackPriority).depth - 1
        openConditionals := s.openConditionals + 1
        operandNeeded := true }
      (opsOf (s.pending.takeWhile fun top => 0 < top.stackPriority) ++ [.op Opcode.branchIf.byte]) :=
  (gives_require (by simp [hn]) _).silent ((gives_flush s _).bind ((gives_emit _ _).map _))

lemma gives_step_colon (hn : s.operandNeeded = false) (hc : s.openConditionals ≠ 0)
    (hl : (s.pending.dropWhile fun top => 0 < top.stackPriority).length < o.maxStackDepth) :
    (s.step o .colon).Gives
      { s.unloaded fun top => 0 < top.stackPriority with
        pending := .branchEnd :: s.pending.dropWhile fun top => 0 < top.stackPriority
        depth := (s.unloaded fun top => 0 < top.stackPriority).depth - 1
        openConditionals := s.openConditionals - 1
        operandNeeded := true }
      (opsOf (s.pending.takeWhile fun top => 0 < top.stackPriority) ++ [.op Opcode.branchElse.byte]) := by
  let t : State := { s.unloaded fun top => 0 < top.stackPriority with
    openConditionals := s.openConditionals - 1 }
  have he := gives_emit t [.op Opcode.branchElse.byte]
  have hp := (gives_push (s := { t with depth := t.depth - 1 }) hl .branchEnd).map
    fun s : State => { s with operandNeeded := true }
  refine (gives_require (by simp [hn]) _).silent ((gives_flush s _).bind ?_)
  exact (gives_require (by simpa [unloaded] using hc) _).silent ((he.bind hp).congr rfl (List.append_nil _))

structure Complete (s : State) : Prop where
  operand : s.operandNeeded = false ∨ s.fresh = true
  pending : s.pending.dropWhile (fun top => !top.isOpenParen) = []
  conditionals : s.openConditionals = 0
  depth : (s.unloaded fun top => !top.isOpenParen).depth = if s.fresh then 0 else 1

lemma gives_finish (h : s.Complete) :
    s.finish.Gives
      { s.unloaded fun top => !top.isOpenParen with lists := [], operandNeeded := true, fresh := true }
      (opsOf (s.pending.takeWhile fun top => !top.isOpenParen)) := by
  refine (gives_require (by simpa using h.operand) _).silent
    (((gives_emitWhile s _).bind ?_).congr rfl (List.append_nil _))
  refine (gives_require (by simp [unloaded, h.pending]) _).silent ?_
  refine (gives_require (by simp [unloaded, h.conditionals]) _).silent ?_
  exact (gives_require (beq_iff_eq.2 h.depth) _).silent ((gives_check _ _).map _)

lemma gives_step_terminator (h : s.Complete) :
    (s.step o .terminator).Gives {}
      (opsOf (s.pending.takeWhile fun top => !top.isOpenParen) ++ [.op Opcode.endExpr.byte]) := by
  refine ((gives_finish h).bind (gives_emit _ _)).congr ?_ rfl
  simp [unloaded, h.pending, h.conditionals, depthOf, Emission.depthAfter]

lemma fails_unwind {k : ErrorKind} (h : s.pending.dropWhile (fun top => !top.isOpenParen) = []) :
    (s.unwind k).Fails :=
  (gives_emitWhile s _).bind_fails ((fails_require (by simp [unloaded, h]) _).bind _)

lemma fails_step_separator_of_depth {list : ArgumentList} {lists : List ArgumentList}
    (hn : s.operandNeeded = false) (hp : s.pending.dropWhile (fun top => !top.isOpenParen) ≠ [])
    (hs : s.lists = list :: lists)
    (hd : (s.unloaded fun top => !top.isOpenParen).depth ≠ list.base + list.separated + 1) :
    (s.step o .separator).Fails := by
  refine (gives_require (by simp [hn]) _).bind_fails ((gives_unwind hp).bind_fails (Fails.bind ?_ _))
  have hs' : (s.unloaded fun top => !top.isOpenParen).lists = list :: lists := hs
  simp only [separateArgument, hs']
  exact (gives_checkCounters _).bind_fails ((fails_require (by simpa using hd) _).bind _)

lemma fails_step_closeParen_of_depth {list : ArgumentList} {lists : List ArgumentList} {p : Element}
    {pending : List Element} (hn : s.operandNeeded = false)
    (hp : s.pending.dropWhile (fun top => !top.isOpenParen) = p :: pending)
    (hs : s.lists = list :: lists)
    (h : ¬ ((s.unloaded fun top => !top.isOpenParen).depth = list.base + (list.separated + 1) ∧
      list.separated + 1 = (pending.head?.elim 1 Element.argumentCount : Nat))) :
    (s.step o .closeParen).Fails := by
  have hu := gives_unwind (s := s) (k := .extraCloseParen) (by simp [hp])
  refine (gives_require (by simp [hn]) _).bind_fails (hu.bind_fails (Fails.bind ?_ _))
  have hs' : (s.unloaded fun top => !top.isOpenParen).lists = list :: lists := hs
  have hdrop : (s.unloaded fun top => !top.isOpenParen).pending.drop 1 = pending := by
    simp [unloaded, hp]
  simp only [closeArguments, hs', hdrop]
  exact (gives_checkCounters _).bind_fails ((fails_require (by simpa using h) _).bind _)

lemma fails_step_colon (hn : s.operandNeeded = false) (hc : s.openConditionals = 0) :
    (s.step o .colon).Fails :=
  (gives_require (by simp [hn]) _).bind_fails ((gives_flush s _).bind_fails
    ((fails_require (by simp [unloaded, hc]) _).bind _))

lemma fails_finish (h : ¬ s.Complete) : s.finish.Fails := by
  by_cases hn : s.operandNeeded = false ∨ s.fresh = true
  · refine (gives_require (by simpa using hn) _).bind_fails ((gives_emitWhile s _).bind_fails ?_)
    by_cases hp : s.pending.dropWhile (fun top => !top.isOpenParen) = []
    · refine (gives_require (by simp [unloaded, hp]) _).bind_fails ?_
      by_cases hc : s.openConditionals = 0
      · refine (gives_require (by simp [unloaded, hc]) _).bind_fails ?_
        have hd : (s.unloaded fun top => !top.isOpenParen).depth ≠ if s.fresh then 0 else 1 :=
          fun hd => h ⟨hn, hp, hc, hd⟩
        exact (fails_require (beq_eq_false_iff_ne.2 hd) _).bind _
      · exact (fails_require (by simpa [unloaded] using hc) _).bind _
    · exact (fails_require (by simpa [unloaded] using hp) _).bind _
  · exact (fails_require (by simpa using hn) _).bind _

end Symbols

end State

namespace Compilation

variable {o : Options} {expression : String} {xs : List Lexeme} {events : List Event}

lemma ofExpression_of_error {stop : Lexeme.Stop} {e : CompileError}
    (hl : Lexeme.ofExpression expression = (xs, stop)) (h : State.run o {} xs = (events, .error e)) :
    ofExpression o expression = ⟨expression, events, .error e⟩ := by
  simp [ofExpression, hl, h]

lemma ofExpression_of_unknown {s : State} {p : Nat}
    (hl : Lexeme.ofExpression expression = (xs, .unknown p)) (h : State.run o {} xs = (events, .ok s)) :
    ofExpression o expression = ⟨expression, events, .error ⟨.unknownToken, p⟩⟩ := by
  simp [ofExpression, hl, h]

lemma ofExpression_of_finish {s : State} {p : Nat}
    (hl : Lexeme.ofExpression expression = (xs, .finish p)) (h : State.run o {} xs = (events, .ok s)) :
    ofExpression o expression = ⟨expression, events ++ s.finish.events,
      match s.finish.result with
      | .error k => .error ⟨k, p⟩
      | .ok _ => .ok ()⟩ := by
  simp only [ofExpression, hl, h]
  cases s.finish.result <;> rfl

end Compilation

end FormulaCode
