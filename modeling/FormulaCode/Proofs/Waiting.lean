import FormulaCode.Proofs.Diagnostics

/-! The operators that wait. Parentheses and the marks below branches divide the stack into layers. Within a
layer operators wait in the order of their priorities, and functions wait on top of them. -/

namespace FormulaCode

namespace Element

def isFunction (e : Element) : Bool := e.kind == .unary && !e.isOpenParen

/-- What no arriving operator sends off: an open parenthesis or the mark below a branch. -/
def isBarrier (e : Element) : Bool := e.isOpenParen || e == .branchEnd

inductive CanWait : Element → Prop
  | openParen : CanWait .openParen
  | branchEnd : CanWait .branchEnd
  | function {e : Element} (hf : e.isFunction = true) (hp : e.stackPriority = 7) : CanWait e
  | operator {e : Element} (hk : e.kind = .binary) (hl : 1 ≤ e.stackPriority) (hu : e.stackPriority ≤ 6) :
    CanWait e

structure RestsOn (e below : Element) : Prop where
  mark : e = .branchEnd → below.isBarrier = true
  operator : e.kind = .binary →
    below.isBarrier = true ∨ below.kind = .binary ∧ below.stackPriority < e.stackPriority

variable {e : Element}

lemma isBarrier_of_kind (h : e.kind = .binary) : e.isBarrier = false := by
  have hne : e ≠ .branchEnd := by
    rintro rfl
    cases h
  simp [isBarrier, isOpenParen, h, hne]

lemma CanWait.kind (h : e.CanWait) : e.kind = .unary ∨ e.kind = .binary ∨ e = .branchEnd := by
  cases h with
  | openParen => exact .inl rfl
  | branchEnd => exact .inr (.inr rfl)
  | function hf => exact .inl (by simpa [isFunction] using (Bool.and_eq_true_iff.1 hf).1)
  | operator hk => exact .inr (.inl hk)

lemma CanWait.stackPriority_le (h : e.CanWait) (hk : e.kind = .binary) : e.stackPriority ≤ 6 := by
  cases h with
  | openParen => cases hk
  | branchEnd => cases hk
  | function hf => simp [isFunction, hk] at hf
  | operator _ _ hu => exact hu

lemma CanWait.weak_of_isBarrier (h : e.CanWait) (hb : e.isBarrier = true) : e.stackPriority = 0 := by
  cases h with
  | openParen => rfl
  | branchEnd => rfl
  | function hf =>
    rcases Bool.or_eq_true_iff.1 hb with ho | ho
    · simp [isFunction, ho] at hf
    · rw [beq_iff_eq.1 ho]
      rfl
  | operator hk => cases (isBarrier_of_kind hk).symm.trans hb

lemma CanWait.isBarrier_of_weak (h : e.CanWait) (hp : e.stackPriority = 0) : e.isBarrier = true := by
  cases h with
  | openParen => rfl
  | branchEnd => rfl
  | function hf h7 => cases h7.symm.trans hp
  | operator hk hl => cases hl.trans_eq hp

lemma restsOn_of_unary (h : e.kind = .unary) (below : Element) : e.RestsOn below where
  mark := by
    rintro rfl
    cases h
  operator hk := by cases h.symm.trans hk

end Element

/-- Operators in the order of their priorities, the strongest on top, and above them functions. -/
def IsLayer (layer : List Element) : Prop :=
  ∃ functions operators, layer = functions ++ operators ∧ (∀ e ∈ functions, e.isFunction = true) ∧
    (∀ e ∈ operators, e.kind = .binary) ∧
      operators.Pairwise fun upper lower => lower.stackPriority < upper.stackPriority

namespace IsLayer

variable {layer : List Element} {e : Element}

lemma nil : IsLayer [] := ⟨[], [], rfl, List.forall_mem_nil _, List.forall_mem_nil _, .nil⟩

lemma push_function (h : IsLayer layer) (he : e.isFunction = true) : IsLayer (e :: layer) := by
  obtain ⟨functions, operators, rfl, hf, ho, hsorted⟩ := h
  exact ⟨e :: functions, operators, rfl, List.forall_mem_cons.2 ⟨he, hf⟩, ho, hsorted⟩

lemma push_operator (h : IsLayer layer) (hk : e.kind = .binary)
    (hbelow : ∀ below ∈ layer.head?, below.kind = .binary ∧ below.stackPriority < e.stackPriority) :
    IsLayer (e :: layer) := by
  obtain ⟨functions, operators, rfl, hf, ho, hsorted⟩ := h
  cases functions with
  | cons f functions =>
    have hff := hf f List.mem_cons_self
    simp [Element.isFunction, (hbelow f rfl).1] at hff
  | nil =>
    refine ⟨[], e :: operators, rfl, hf, List.forall_mem_cons.2 ⟨hk, ho⟩, List.pairwise_cons.2 ⟨?_, hsorted⟩⟩
    cases operators with
    | nil => exact List.forall_mem_nil _
    | cons d operators =>
      have hd := (hbelow d rfl).2
      refine List.forall_mem_cons.2 ⟨hd, fun x hx => ?_⟩
      exact ((List.pairwise_cons.1 hsorted).1 x hx).trans hd

end IsLayer

namespace OperatorStack

structure Layered (stack : OperatorStack) : Prop where
  canWait : ∀ e ∈ stack, e.CanWait
  chain : stack.IsChain Element.RestsOn

def room (stack : OperatorStack) : Nat :=
  7 * stack.countP Element.isOpenParen + stack.count .branchEnd + stack.countP Element.isFunction

def topPriority (stack : OperatorStack) : Nat := stack.head?.elim 0 Element.stackPriority

variable {stack layer below : OperatorStack} {e : Element}

lemma not_of_mem_head {c : Element → Bool} (h : e ∈ (stack.dropWhile c).head?) : c e = false := by
  have hn := List.head?_dropWhile_not c stack
  rw [Option.mem_def] at h
  rwa [h] at hn

lemma room_eq_zero (h : ∀ e ∈ stack, e.kind = .binary) : stack.room = 0 := by
  have hmark : stack.count .branchEnd = 0 := by
    refine List.count_eq_zero.2 fun hm => ?_
    cases h _ hm
  have hparen : stack.countP Element.isOpenParen = 0 :=
    List.countP_eq_zero.2 fun e he => by simp [Element.isOpenParen, h e he]
  have hfunction : stack.countP Element.isFunction = 0 :=
    List.countP_eq_zero.2 fun e he => by simp [Element.isFunction, h e he]
  rw [room, hmark, hparen, hfunction]

namespace Layered

lemma nil : Layered [] := ⟨List.forall_mem_nil _, .nil⟩

lemma cons (h : Layered stack) (he : e.CanWait) (hr : ∀ below ∈ stack.head?, e.RestsOn below) :
    Layered (e :: stack) :=
  ⟨List.forall_mem_cons.2 ⟨he, h.canWait⟩, List.isChain_cons.2 ⟨hr, h.chain⟩⟩

lemma of_suffix (h : Layered stack) (hs : below <:+ stack) : Layered below :=
  ⟨fun e he => h.canWait e (hs.subset he), h.chain.suffix hs⟩

lemma dropWhile (h : Layered stack) (c : Element → Bool) : Layered (stack.dropWhile c) :=
  h.of_suffix (List.dropWhile_suffix c)

lemma canWait_of_mem_head (h : Layered stack) {c : Element → Bool} (he : e ∈ (stack.dropWhile c).head?) :
    e.CanWait :=
  h.canWait e (List.dropWhile_subset c (List.mem_of_mem_head? he))

lemma push_unary (h : Layered stack) (he : e.CanWait) (hk : e.kind = .unary) : Layered (e :: stack) :=
  h.cons he fun below _ => Element.restsOn_of_unary hk below

lemma push_branchEnd (h : Layered stack) : Layered (.branchEnd :: stack.dropWhile Element.binds) := by
  apply (h.dropWhile _).cons .branchEnd
  intro below hb
  have hp : below.stackPriority = 0 := by simpa using not_of_mem_head hb
  have hbarrier := (canWait_of_mem_head h hb).isBarrier_of_weak hp
  exact ⟨fun _ => hbarrier, fun _ => .inl hbarrier⟩

lemma push_operator (h : Layered stack) (he : e.CanWait) (hk : e.kind = .binary)
    (ha : e.arrivalPriority = e.stackPriority) : Layered (e :: stack.dropWhile e.yields) := by
  apply (h.dropWhile _).cons he
  intro below hb
  have hlt : below.stackPriority < e.stackPriority := by simpa [ha] using not_of_mem_head hb
  refine ⟨?_, fun _ => ?_⟩
  · rintro rfl
    cases hk
  cases canWait_of_mem_head h hb with
  | openParen => exact .inl rfl
  | branchEnd => exact .inl rfl
  | function hf hp =>
    have hu : e.stackPriority ≤ 6 := he.stackPriority_le hk
    omega
  | operator hk' => exact .inr ⟨hk', hlt⟩

lemma top_eq_zero (h : Layered stack) (hb : ∀ e ∈ stack.head?, e.isBarrier = true) :
    stack.topPriority = 0 := by
  cases stack with
  | nil => rfl
  | cons e stack => exact (h.canWait e List.mem_cons_self).weak_of_isBarrier (hb e rfl)

lemma top_lt (h : Layered (e :: stack)) (hk : e.kind = .binary) (hp : 0 < e.stackPriority) :
    stack.topPriority < e.stackPriority := by
  have hrest := (List.isChain_cons.1 h.chain).1
  cases stack with
  | nil => exact hp
  | cons below stack =>
    rcases (hrest below rfl).operator hk with hb | ⟨-, hlt⟩
    · have hzero := (h.canWait below (by simp)).weak_of_isBarrier hb
      exact hzero.trans_lt hp
    · exact hlt

lemma length_le (h : Layered stack) : stack.length ≤ stack.room + min stack.topPriority 6 := by
  induction stack with
  | nil => exact Nat.zero_le _
  | cons e stack ih =>
    have ht := h.of_suffix (List.suffix_cons e stack)
    have hlen := ih ht
    rw [List.length_cons]
    cases h.canWait e List.mem_cons_self with
    | openParen =>
      have hroom : room (.openParen :: stack) = room stack + 7 := by
        simp +decide [room]
        omega
      omega
    | branchEnd =>
      have hroom : room (.branchEnd :: stack) = room stack + 1 := by
        simp +decide [room]
        omega
      have htop := ht.top_eq_zero fun below hb => ((List.isChain_cons.1 h.chain).1 below hb).mark rfl
      omega
    | function hf hp =>
      have hroom : room stack + 1 ≤ room (e :: stack) := by
        simp [room, hf, List.countP_cons, List.count_cons]
        omega
      have htop : topPriority (e :: stack) = 7 := hp
      omega
    | operator hk hl hu =>
      have hroom : room stack ≤ room (e :: stack) := by
        simp [room, List.countP_cons, List.count_cons]
        omega
      have htop := h.top_lt hk hl
      have htop' : topPriority (e :: stack) = e.stackPriority := rfl
      omega

lemma isLayer (h : Layered layer) (hb : ∀ e ∈ layer, e.isBarrier = false) : IsLayer layer := by
  induction layer with
  | nil => exact .nil
  | cons e layer ih =>
    have hrest := (List.isChain_cons.1 h.chain).1
    obtain ⟨he, hb⟩ := List.forall_mem_cons.1 hb
    have hlayer := ih (h.of_suffix (List.suffix_cons e layer)) hb
    cases h.canWait e List.mem_cons_self with
    | openParen => cases he
    | branchEnd => cases he
    | function hf => exact hlayer.push_function hf
    | operator hk =>
      apply hlayer.push_operator hk
      intro below hm
      -- without barriers among them, an operator can only rest on a weaker one
      rcases (hrest below hm).operator hk with hbarrier | hbinary
      · cases (hb below (List.mem_of_mem_head? hm)).symm.trans hbarrier
      · exact hbinary

end Layered

end OperatorStack

namespace Symbol

variable {x : Symbol} {e : Element} {policy : LiteralPolicy}

def Ranked : Symbol → Prop
  | .unary e => e.CanWait ∧ e.kind = .unary
  | .binary e => e.CanWait ∧ e.kind = .binary ∧ e.arrivalPriority = e.stackPriority
  | _ => True

lemma Ranked.joins (hx : x.Ranked) (h : x.Joins e) :
    e.CanWait ∧ e.kind = .binary ∧ e.arrivalPriority = e.stackPriority := by
  rcases h with rfl | ⟨-, rfl⟩
  · exact hx
  · exact ⟨.operator rfl (by decide) (by decide), rfl, rfl⟩

lemma Ranked.precedes (hx : x.Ranked) (h : x.Precedes e) : e.CanWait ∧ e.kind = .unary := by
  rcases h with rfl | ⟨-, rfl⟩
  · exact hx
  · exact ⟨.function rfl rfl, rfl⟩

lemma Spoken.ranked (h : x.Spoken policy) : x.Ranked := by
  rcases h with ⟨w, -, rfl⟩ | ⟨n, rfl, -⟩
  · cases w with
    | atom a => cases a <;> trivial
    | function f =>
      have hk : f.element.kind = .unary := by
        cases f with
        | one f => exact f.kind_eq
        | two f => exact f.kind_eq
      exact ⟨.function (by simp [Element.isFunction, hk, f.isOpenParen_eq]) f.priorities.1, hk⟩
    | operator f => exact ⟨.operator f.kind_eq f.priority_pos f.priority_le, f.kind_eq, f.arrivalPriority_eq⟩
    | openParen => exact ⟨.openParen, rfl⟩
    | mark m => cases m <;> trivial
    | _ => trivial
  · trivial

end Symbol

lemma Lexeme.ranked_of_mem {expression : String} {x : Lexeme} (h : x ∈ (ofExpression expression).1) :
    x.symbol.Ranked :=
  ((occurs_of_mem_ofExpression h).spoken .strict).ranked

namespace State

variable {o : Options} {s t : State} {x : Symbol} {xs : List Symbol} {es : List Emission}

structure Settled (o : Options) (s : State) : Prop where
  layered : OperatorStack.Layered s.pending
  limit : s.pending.length ≤ o.maxStackDepth
  fresh : s.fresh = true → s = {}

lemma start_settled : Settled o {} := ⟨.nil, Nat.zero_le _, fun _ => rfl⟩

lemma Settled.not_fresh (hs : s.Settled o) (hn : s.operandNeeded = false) : s.fresh = false := by
  by_contra hf
  rw [hs.fresh (Bool.eq_true_of_not_eq_false hf)] at hn
  cases hn

lemma Settled.next (hs : s.Settled o) (hn : s.operandNeeded = false) (hf : t.fresh = s.fresh)
    (hp : OperatorStack.Layered t.pending) (hl : t.pending.length ≤ o.maxStackDepth) : t.Settled o := by
  refine ⟨hp, hl, fun h => ?_⟩
  rw [hf, hs.not_fresh hn] at h
  cases h

lemma Takes.settled (h : s.Takes o x es (.ok t)) (hs : s.Settled o) (hx : x.Ranked) : t.Settled o := by
  have hdrop (c : Element → Bool) : (s.pending.dropWhile c).length ≤ o.maxStackDepth :=
    (List.length_dropWhile_le c s.pending).trans hs.limit
  cases h with
  | operand => exact ⟨hs.layered, hs.limit, fun hf => by cases hf⟩
  | numeral => exact ⟨hs.layered, hs.limit, fun hf => by cases hf⟩
  | binary hn hj hl =>
    obtain ⟨he, hk, ha⟩ := hx.joins hj
    exact hs.next hn rfl (hs.layered.push_operator he hk ha) hl
  | unary hn hp hl =>
    obtain ⟨he, hk⟩ := hx.precedes hp
    exact ⟨(hs.layered.dropWhile _).push_unary he hk, hl, fun hf => by cases hf⟩
  | separator hn => exact hs.next hn rfl (hs.layered.dropWhile _) (hdrop _)
  | @closeParen _ _ p pending hn hp =>
    have hsuffix : pending <:+ s.pending :=
      (List.suffix_cons p pending).trans (hp ▸ List.dropWhile_suffix _)
    exact hs.next hn rfl (hs.layered.of_suffix hsuffix) (hsuffix.length_le.trans hs.limit)
  | question hn => exact hs.next hn rfl (hs.layered.dropWhile _) (hdrop _)
  | colon hn _ hl => exact hs.next hn rfl hs.layered.push_branchEnd hl
  | terminator => exact start_settled

lemma Reaches.settled (h : Reaches o {} xs t es) (hx : ∀ x ∈ xs, x.Ranked) : t.Settled o :=
  h.keeps (P := fun _ s _ => s.Settled o) (fun hs hx ht => ht.settled hs hx) hx start_settled

/-- The state is in order: there is a list for each parenthesis, no more waits than is allowed, only
operators, functions, parentheses and marks wait, those between barriers are a layer, a mark waits on a
barrier, and nothing is left where an expression starts. -/
structure Orderly (o : Options) (s : State) : Prop where
  lists : s.lists.length = s.pending.countP Element.isOpenParen
  limit : s.pending.length ≤ o.maxStackDepth
  kinds : ∀ e ∈ s.pending, e.kind = .unary ∨ e.kind = .binary ∨ e = .branchEnd
  layers : ∀ layer, layer <:+: s.pending → (∀ e ∈ layer, e.isBarrier = false) → IsLayer layer
  marks : ∀ above below, s.pending = above ++ .branchEnd :: below → ∀ e ∈ below.head?, e.isBarrier = true
  start : s.fresh = true → s.operandNeeded = true ∧ s.pending = [] ∧ s.lists = [] ∧
    s.openConditionals = 0 ∧ s.depth = 0

lemma Settled.orderly (hs : s.Settled o) (hl : s.lists.length = s.opened) : s.Orderly o where
  lists := hl
  limit := hs.limit
  kinds e he := (hs.layered.canWait e he).kind
  layers := by
    rintro layer ⟨above, below, hp⟩
    have h := hs.layered
    rw [← hp] at h
    have hlayer := h.chain.left_of_append.right_of_append
    exact OperatorStack.Layered.isLayer ⟨fun e he => h.canWait e (by simp [he]), hlayer⟩
  marks := by
    intro above below hp e he
    have h := hs.layered.of_suffix ⟨above, hp.symm⟩
    exact ((List.isChain_cons.1 h.chain).1 e he).mark rfl
  start hf := by
    rw [hs.fresh hf]
    exact ⟨rfl, rfl, rfl, rfl, rfl⟩

end State

namespace Symbol

def nests : Symbol → Bool
  | .unary _ | .closeParen | .question | .colon => true
  | _ => false

abbrev Subtracts (last x : Symbol) : Prop := x = .minus → last.endsOperand = true

/-- Nothing among the symbols nests, and no `-` is a sign. At the start of the text as behind `;` it would be
one. -/
structure Flat (xs : List Symbol) : Prop where
  plain : ∀ x ∈ xs, x.nests = false
  subtracts : (terminator :: xs).IsChain Subtracts

variable {x : Symbol} {xs ys : List Symbol}

lemma Flat.of_append (h : Flat (xs ++ ys)) : Flat xs := by
  have hm : ((terminator :: xs) ++ ys).IsChain Subtracts := h.subtracts
  exact ⟨fun x hx => h.plain x (List.mem_append_left _ hx), hm.left_of_append⟩

lemma Flat.operand_of_minus (h : Flat (xs ++ [.minus])) : xs.getLast?.any endsOperand = true := by
  have hm : ((terminator :: xs) ++ [minus]).IsChain Subtracts := h.subtracts
  have hlast := (List.isChain_append.1 hm).2.2 _ List.getLast?_cons .minus rfl rfl
  cases hl : xs.getLast? with
  | none =>
    rw [hl] at hlast
    cases hlast
  | some y =>
    rw [hl] at hlast
    exact hlast

lemma any_getLast?_current (xs : List Symbol) :
    (current xs).getLast?.any endsOperand = xs.getLast?.any endsOperand := by
  rcases List.eq_nil_or_concat' xs with rfl | ⟨ys, y, rfl⟩
  · rfl
  · by_cases hy : y = .terminator
    · rw [hy, current_terminator, List.getLast?_concat]
      rfl
    · rw [current_concat ys hy, List.getLast?_concat, List.getLast?_concat]

end Symbol

namespace State

variable {o : Options} {s t : State} {x : Symbol} {xs : List Symbol} {e : Element} {es : List Emission}

lemma Tracks.needed_of_precedes (hs : s.Tracks (Symbol.current xs)) (hf : Symbol.Flat (xs ++ [x]))
    (hp : x.Precedes e) : s.operandNeeded = false := by
  rcases hp with rfl | ⟨rfl, -⟩
  · cases hf.plain (.unary e) (by simp)
  · rw [hs.operand, Symbol.any_getLast?_current, hf.operand_of_minus]
    rfl

lemma Takes.binary_of_flat (h : s.Takes o x es (.ok t)) (hs : s.Tracks (Symbol.current xs)) (hx : x.Ranked)
    (hb : ∀ e ∈ s.pending, e.kind = .binary) (hf : Symbol.Flat (xs ++ [x])) :
    ∀ e ∈ t.pending, e.kind = .binary := by
  have hnests := hf.plain x (by simp)
  cases h with
  | operand => exact hb
  | numeral => exact hb
  | binary hn hj =>
    exact List.forall_mem_cons.2 ⟨(hx.joins hj).2.1, fun e he => hb e (List.dropWhile_subset _ he)⟩
  | unary hn hp => cases (hs.needed_of_precedes hf hp).symm.trans hn
  | separator => exact fun e he => hb e (List.dropWhile_subset _ he)
  | closeParen => cases hnests
  | question => cases hnests
  | colon => cases hnests
  | terminator => exact List.forall_mem_nil _

lemma Reaches.binary_of_flat (h : Reaches o {} xs t es) (hx : ∀ x ∈ xs, x.Regular ∧ x.Ranked)
    (hf : Symbol.Flat xs) : ∀ e ∈ t.pending, e.kind = .binary := by
  have hkeeps := h.keeps (K := fun x => x.Regular ∧ x.Ranked)
    (P := fun xs s _ => s.Tracks (Symbol.current xs) ∧ (Symbol.Flat xs → ∀ e ∈ s.pending, e.kind = .binary))
    (fun hs hx ht => ⟨ht.tracks_current hs.1 hx.1,
      fun hf => ht.binary_of_flat hs.1 hx.2 (hs.2 hf.of_append) hf⟩) hx
  exact (hkeeps ⟨start_tracks, fun _ => List.forall_mem_nil _⟩).2 hf

lemma Settled.length_lt (hs : s.Settled o) (he : e.CanWait) (hk : e.kind = .binary)
    (ha : e.arrivalPriority = e.stackPriority) (hb : ∀ e ∈ s.pending, e.kind = .binary) :
    (s.pending.dropWhile e.yields).length < 6 := by
  have hlen := (hs.layered.push_operator he hk ha).length_le
  have hroom : OperatorStack.room (e :: s.pending.dropWhile e.yields) = 0 :=
    OperatorStack.room_eq_zero (List.forall_mem_cons.2 ⟨hk, fun d hd => hb d (List.dropWhile_subset _ hd)⟩)
  rw [hroom, List.length_cons] at hlen
  omega

lemma Takes.not_full_of_flat (h : s.Takes o x es (.error .expressionTooComplex)) (hs : s.Settled o)
    (ht : s.Tracks (Symbol.current xs)) (hx : x.Ranked) (hb : ∀ e ∈ s.pending, e.kind = .binary)
    (hf : Symbol.Flat (xs ++ [x])) : o.maxStackDepth < 6 := by
  cases h with
  | full hj hl =>
    rcases hj with ⟨-, hj⟩ | ⟨hn, hp⟩
    · obtain ⟨he, hk, ha⟩ := hx.joins hj
      exact hl.trans_lt (hs.length_lt he hk ha hb)
    · cases (ht.needed_of_precedes hf hp).symm.trans hn
  | unopened hn hx' => rcases hx' with ⟨-, hk⟩ | ⟨-, hk⟩ <;> cases hk
  | unended => cases hf.plain .colon (by simp)
  | unfinished h => cases h

end State

section Expression

variable {o : Options} {expression : String}

lemma State.settled_run {xs : List Lexeme} {s : State} (hx : xs <+: (Lexeme.ofExpression expression).1)
    (h : (State.run o {} xs).2 = .ok s) : s.Settled o ∧ s.lists.length = s.opened := by
  have hr := State.reaches_of_run h
  constructor
  · apply hr.settled
    exact List.forall_mem_map.2 fun x hm => Lexeme.ranked_of_mem (hx.subset hm)
  · refine (hr.tracks ?_).lists
    exact List.forall_mem_map.2 fun x hm => Lexeme.regular_of_mem (hx.subset hm)

lemma Compilation.Ends.not_full_of_flat {lexemes : List Lexeme × Lexeme.Stop} {p : Nat} {es : List Emission}
    (h : Ends o lexemes (.error ⟨.expressionTooComplex, p⟩) es)
    (hx : ∀ x ∈ lexemes.1, x.symbol.Regular ∧ x.symbol.Ranked)
    (hf : Symbol.Flat (lexemes.1.map Lexeme.symbol)) : o.maxStackDepth < 6 := by
  cases h with
  | @refused before after x _ _ _ _ _ hr hraise =>
    have hbefore : ∀ y ∈ before.map Lexeme.symbol, y.Regular ∧ y.Ranked :=
      List.forall_mem_map.2 fun y hy => hx y (List.mem_append_left _ hy)
    rw [List.map_append, List.map_cons, List.append_cons] at hf
    have hflat := hf.of_append
    have htracks := hr.tracks fun y hy => (hbefore y hy).1
    have hsettled := hr.settled fun y hy => (hbefore y hy).2
    have hbinary := hr.binary_of_flat hbefore hflat.of_append
    exact (State.takes_of_raises hraise).not_full_of_flat hsettled htracks (hx x (by simp)).2 hbinary hflat
  | unfinished hr hraise => cases State.Unfinished.of_raises hraise

end Expression

/-- After any lexemes of a text the state is in order, so that each parenthesis on the stack makes room for
seven elements, each mark and each function for one, and six more wait on top. In a text without parentheses,
prefix operators, functions and conditionals room for six operators is enough. -/
theorem orderly_run (o : Options) (expression : String) :
    (∀ xs s, xs <+: (Lexeme.ofExpression expression).1 → (State.run o {} xs).2 = .ok s →
      s.Orderly o ∧ s.pending.length ≤ 7 * s.pending.countP Element.isOpenParen +
        s.pending.count .branchEnd + s.pending.countP Element.isFunction + 6) ∧
    (Symbol.Flat ((Lexeme.ofExpression expression).1.map Lexeme.symbol) → 6 ≤ o.maxStackDepth →
      ∀ f, compile o expression = .failure f → f.error.kind ≠ .expressionTooComplex) := by
  refine ⟨fun xs s hx h => ?_, fun hflat hd f hf hk => ?_⟩
  · obtain ⟨hs, hl⟩ := State.settled_run hx h
    refine ⟨hs.orderly hl, hs.layered.length_le.trans ?_⟩
    exact Nat.add_le_add_left (Nat.min_le_right ..) _
  · have hends := Compilation.ends_of_failure hf
    obtain ⟨⟨k, p⟩, emitted⟩ := f
    cases hk
    have hlt := hends.not_full_of_flat
      (fun x hx => ⟨Lexeme.regular_of_mem hx, Lexeme.ranked_of_mem hx⟩) hflat
    exact Nat.not_le.2 hlt hd

theorem orderly_run_tight :
    (∃ s, (State.run {} {} (Lexeme.ofExpression "A?B:C|D&E<F-G*H^-(I|J&K<L-M*N^O").1).2 = .ok s ∧
      s.Orderly {} ∧ s.pending.length = 15 ∧ s.pending.countP Element.isOpenParen = 1 ∧
        s.pending.count .branchEnd = 1 ∧ s.pending.countP Element.isFunction = 1) ∧
      ∃ f, compile ⟨6, .strict⟩ "A|B&C<D-E*F^G H" = .failure f ∧ f.error.kind ≠ .expressionTooComplex := by
  have hrun : (State.run {} {} (Lexeme.ofExpression "A?B:C|D&E<F-G*H^-(I|J&K<L-M*N^O").1).2 = .ok
      { pending := [.operator "^" 6 .pow, .operator "*" 5 .mul, .subtract, .operator "<" 3 .lt,
          .operator "&" 2 .bitAnd, .operator "|" 1 .bitOr, .openParen, .negate, .operator "^" 6 .pow,
          .operator "*" 5 .mul, .subtract, .operator "<" 3 .lt, .operator "&" 2 .bitAnd,
          .operator "|" 1 .bitOr, .branchEnd]
        depth := 13, operandNeeded := false, fresh := false, lists := [⟨6, 0⟩] } := by
    decide +kernel
  have hflat : Symbol.Flat ((Lexeme.ofExpression "A|B&C<D-E*F^G H").1.map Lexeme.symbol) :=
    ⟨by decide +kernel, by decide +kernel⟩
  have hfail : compile ⟨6, .strict⟩ "A|B&C<D-E*F^G H" = .failure ⟨⟨.missingOperand, 14⟩,
      [0, 0, 1, 1, 1, 2, 1, 3, 1, 4, 1, 5, 1, 6]⟩ := by
    decide +kernel
  refine ⟨⟨_, hrun, ((orderly_run _ _).1 _ _ List.prefix_rfl hrun).1, ?_⟩, ⟨_, hfail, ?_⟩⟩
  · decide
  · exact (orderly_run _ _).2 hflat le_rfl _ hfail

/-- Functions need no parentheses, and without any they fill the stack as well as prefix operators do. -/
theorem compile_functions_full :
    (Lexeme.ofExpression "SIN SIN SIN SIN SIN SIN SIN A").1.map Lexeme.symbol =
      List.replicate 7 (.unary (.function "SIN" (.unary .sin))) ++ [.operand (.fetch 0)] ∧
    compile ⟨6, .strict⟩ "SIN SIN SIN SIN SIN SIN SIN A" = .failure ⟨⟨.expressionTooComplex, 24⟩, [0]⟩ ∧
    compile ⟨7, .strict⟩ "SIN SIN SIN SIN SIN SIN SIN A" =
      .program ⟨.fetch 0 :: List.replicate 7 (.unary .sin)⟩ := by
  refine ⟨?_, ?_, ?_⟩ <;> decide +kernel

end FormulaCode
