import FormulaCode.Proofs.Group

/-! The compiler keeps in step with the draft of what it has read. -/

namespace FormulaCode

variable {policy : LiteralPolicy}

def floorOf : List (Frame policy) → Nat
  | [] => 1
  | .apply _ :: _ => 7
  | .binary f _ :: _ => f.priority + 1

def FramesFormed : List (Frame policy) → Prop
  | [] => True
  | .apply _ :: frames => FramesFormed frames
  | .binary f l :: frames => l.Formed ∧ l.width? ≠ some 2 ∧ f.priority ≤ l.rank ∧
    floorOf frames ≤ f.priority ∧ FramesFormed frames

def Phrase.Whole (e : Phrase policy) : Prop := e.Formed ∧ e.net = 1 ∧ e.width? ≠ some 2

structure Group.Formed (g : Group policy) : Prop where
  arguments : ∀ a ∈ g.arguments, a.Whole
  chain : ∀ c ∈ g.chain, c.1.Formed ∧ c.1.width? ≠ some 2
  frames : FramesFormed g.frames

structure Draft.Formed (d : Draft policy) : Prop where
  ended : ∀ e, some e ∈ d.ended → e.Whole
  groups : ∀ g ∈ d.group :: d.outer, g.Formed
  bottom : ∀ g ∈ (d.group :: d.outer).getLast?, g.arguments = []
  value : ∀ e ∈ d.value, e.Formed ∧ e.rank = 7 ∧ ∀ n, e.width? = some n → d.group.expected = n
  fresh : d.isFresh = true → d.waiting = 0

lemma Group.Formed.sum_net {g : Group policy} (h : g.Formed) :
    (g.arguments.map Phrase.net).sum = g.arguments.length := by
  have hn : ∀ a ∈ g.arguments, a.net = 1 := fun a ha => (h.arguments a ha).2.1
  generalize g.arguments = as at hn
  induction as with
  | nil => rfl
  | cons a as ih =>
    simp only [List.mem_cons, forall_eq_or_imp] at hn
    rw [List.map_cons, List.sum_cons, hn.1, ih hn.2, List.length_cons]
    omega

namespace Draft

variable (d : Draft policy)

def below : List Element :=
  List.replicate d.group.ends .branchEnd ++ d.outer.flatMap fun g => .openParen :: g.pending

lemma state_pending : d.state.pending = d.group.frames.map Frame.element ++ d.below := by
  simp [state, Group.pending, below]

lemma stackPriority_head_below : ∀ e ∈ d.below.head?, e.stackPriority = 0 := by
  intro e he
  rw [below] at he
  cases hn : d.group.ends with
  | succ n =>
    rw [hn] at he
    cases he
    rfl
  | zero =>
    cases ho : d.outer with
    | nil => simp [hn, ho] at he
    | cons g outer =>
      simp only [hn, ho, List.replicate_zero, List.nil_append, List.flatMap_cons, List.cons_append,
        List.head?_cons, Option.mem_def, Option.some.injEq] at he
      rw [← he]
      rfl

lemma split_pending {c : Element → Bool} (hc : ∀ e : Element, e.stackPriority = 0 → c e = false) :
    d.state.pending.takeWhile c =
        (d.group.frames.takeWhile fun x => c x.element).map Frame.element ∧
      d.state.pending.dropWhile c =
        (d.group.frames.dropWhile fun x => c x.element).map Frame.element ++ d.below := by
  rw [state_pending]
  induction d.group.frames with
  | nil =>
    cases hb : d.below with
    | nil => exact ⟨rfl, rfl⟩
    | cons e below =>
      have he := hc e (d.stackPriority_head_below e (by simp [hb]))
      simp [he]
  | cons x frames ih =>
    cases hx : c x.element with
    | false => simp [hx]
    | true => simpa [hx] using ih

lemma unwind_pending : d.state.pending.takeWhile (fun top => !top.isOpenParen) = d.group.pending ∧
    d.state.pending.dropWhile (fun top => !top.isOpenParen) =
      d.outer.flatMap fun g => .openParen :: g.pending := by
  have hg : ∀ x ∈ d.group.pending, (!x.isOpenParen) = true := fun x hx => by
    simp [d.group.isOpenParen_of_mem_pending x hx]
  have ho : (d.outer.flatMap fun g : Group policy => Element.openParen :: g.pending).takeWhile
        (fun top => !top.isOpenParen) = [] ∧
      (d.outer.flatMap fun g : Group policy => Element.openParen :: g.pending).dropWhile
        (fun top => !top.isOpenParen) = d.outer.flatMap fun g => .openParen :: g.pending := by
    cases d.outer with
    | nil => exact ⟨rfl, rfl⟩
    | cons g outer => exact ⟨rfl, rfl⟩
  rw [state, List.takeWhile_append_of_pos hg, List.dropWhile_append_of_pos hg, ho.1, ho.2]
  exact ⟨List.append_nil _, rfl⟩

lemma unwound_depth {e : Phrase policy} (hd : d.Formed) (hv : d.value = some e) :
    (d.state.unloaded fun top => !top.isOpenParen).depth =
      netOf d.outer + d.group.arguments.length + (d.group.closed e).net := by
  have hn := d.group.net_closed e
  have hs := (hd.groups d.group List.mem_cons_self).sum_net
  rw [State.unloaded, d.unwind_pending.1, d.group.opsOf_pending,
    depthOf_instructions _ d.group.endExpr_notMem_rest]
  simp only [state, netOf, List.map_cons, List.sum_cons, hv, Option.elim_some]
  omega

lemma stackPriority_of_mem_pending : ∀ x ∈ d.state.pending, x.stackPriority ≤ 7 := by
  intro x hx
  rw [state, List.mem_append, List.mem_flatMap] at hx
  rcases hx with h | ⟨g, _, h⟩
  · exact d.group.stackPriority_of_mem_pending x h
  · rcases List.mem_cons.1 h with rfl | h
    · decide
    · exact g.stackPriority_of_mem_pending x h

section Step

variable {o : Options} {d d' : Draft o.literalPolicy} {e : Phrase o.literalPolicy}

/-- A word takes the compiler from the state of one draft to that of another, and the code it emits is
what the second has more. -/
def Follows (o : Options) (d : Draft o.literalPolicy) (w : Word o.literalPolicy)
    (d' : Draft o.literalPolicy) : Prop :=
  ∃ new, d'.code = d.code ++ new ∧
    (d.state.step o w.symbol).Gives d'.state (new.map .ofInstruction)

lemma follows_atom (hv : d.value = none) (a : Atom o.literalPolicy) :
    Follows o d (.atom a) { d with value := some (.atom a) } := by
  have hn : d.state.operandNeeded = true := by simp [state, hv]
  refine ⟨[a.instruction], by simp [code, hv, Phrase.main], ?_⟩
  have hd (x : Int) : Emission.depthAfter x (.ofInstruction a.instruction) = x + 1 := by
    cases a <;> exact Emission.depthAfter_ofInstruction (by simp [Atom.instruction]) x
  have hs : ({ d.state with depth := d.state.depth + 1 } : State).operandDone =
      state { d with value := some (.atom a) } := by
    simp [State.operandDone, state, hv, isFresh, Phrase.net]
  cases a with
  | letter v => exact (State.gives_step_operand hn).congr ((congrArg _ (by rw [← hd]; rfl)).trans hs) rfl
  | constant c => exact (State.gives_step_operand hn).congr ((congrArg _ (by rw [← hd]; rfl)).trans hs) rfl
  | numeral n x h => exact (State.gives_step_numeral hn h).congr hs rfl

lemma gives_hold {x : Element} (hx : x.arrivalPriority = 8) (hv : d.value = none)
    (hl : d.state.pending.length < o.maxStackDepth) :
    (d.state.step o (.unary x)).Gives
      { d.state with
        pending := x :: d.state.pending
        lists := if x.isOpenParen then ⟨d.state.depth, 0⟩ :: d.state.lists else d.state.lists
        operandNeeded := true
        fresh := false } [] := by
  obtain ⟨ht, hd, hu⟩ := State.unloaded_of_weak (s := d.state)
    (c := fun top => x.arrivalPriority ≤ top.stackPriority)
    (fun y hy => by simp [hx, Nat.lt_succ_of_le (d.stackPriority_of_mem_pending y hy)])
  refine (State.gives_step_unary (by simp [state, hv]) (by rw [hd]; exact hl)).congr ?_ (by rw [ht]; rfl)
  rw [hd, hu]

lemma state_hold (f : Function) (hv : d.value = none) : (d.hold f).state =
    { d.state with pending := f.element :: d.state.pending, operandNeeded := true, fresh := false } := by
  have hn : netOf ((d.hold f).group :: (d.hold f).outer) = netOf (d.group :: d.outer) := by
    simp [netOf, hold, Group.net, Frame.net]
  have hlists : listsOf ((d.hold f).group :: (d.hold f).outer) = listsOf (d.group :: d.outer) := by
    rw [hold]
    cases d.outer <;> rfl
  simp only [state, hn, hlists, State.mk.injEq, and_true]
  simp [hold, Group.pending, Frame.element, Group.ends, hv, isFresh, Group.isEmpty]

lemma follows_function (hv : d.value = none) (f : Function)
    (hl : (d.hold f).state.pending.length ≤ o.maxStackDepth) :
    Follows o d (.function f) (d.hold f) := by
  rw [state_hold f hv] at hl
  refine ⟨[], by simp [code, hold, Group.code, Frame.code], ?_⟩
  refine (gives_hold f.priorities.2 hv hl).congr ?_ rfl
  rw [state_hold f hv, f.isOpenParen_eq]
  rfl

lemma follows_minus_of_none (hv : d.value = none)
    (hl : (d.hold (.one .negate)).state.pending.length ≤ o.maxStackDepth) :
    Follows o d .minus (d.hold (.one .negate)) := by
  obtain ⟨new, hc, hg⟩ := follows_function hv (.one .negate) hl
  exact ⟨new, hc, State.step_minus_of_needed (o := o) (s := d.state) (by simp [state, hv]) ▸ hg⟩

lemma follows_openParen (hv : d.value = none)
    (hl : d.state.pending.length < o.maxStackDepth) :
    Follows o d .openParen { d with outer := d.group :: d.outer, group := {} } := by
  refine ⟨[], by simp [code, Group.code, hv], ?_⟩
  refine (gives_hold rfl hv hl).congr ?_ rfl
  simp [state, hv, isFresh, Group.pending, Group.ends, netOf, listsOf, Group.net, Element.isOpenParen,
    Element.openParen]

lemma depth_unloaded {c : Element → Bool} (hc : ∀ x : Element, x.stackPriority = 0 → c x = false)
    (hv : d.value = some e) : (d.state.unloaded c).depth =
      netOf ({ d.group with frames := d.group.frames.dropWhile fun x => c x.element } :: d.outer) +
        (complete (d.group.frames.takeWhile fun x => c x.element) e).net := by
  have hn := net_complete (d.group.frames.takeWhile fun x => c x.element) e
  have hsum : (d.group.frames.map Frame.net).sum =
      ((d.group.frames.takeWhile fun x => c x.element).map Frame.net).sum +
        ((d.group.frames.dropWhile fun x => c x.element).map Frame.net).sum := by
    rw [← List.sum_append, ← List.map_append, List.takeWhile_append_dropWhile]
  rw [State.unloaded, (d.split_pending hc).1, opsOf_frames,
    depthOf_instructions _ (endExpr_notMem_frames _), List.map_map]
  simp only [state, netOf, Group.net, List.map_cons, List.sum_cons, hv, Option.elim_some, hsum, hn,
    Function.comp_def]
  omega

lemma code_unloaded (c : Frame o.literalPolicy → Bool) (hv : d.value = some e) : d.code ++
    (d.group.frames.takeWhile c).map Frame.instruction =
    endedCode d.ended ++ d.outer.reverse.flatMap Group.code ++
      { d.group with frames := d.group.frames.dropWhile c }.code ++
      (complete (d.group.frames.takeWhile c) e).main := by
  have hsplit : d.group.frames.reverse.flatMap Frame.code =
      (d.group.frames.dropWhile c).reverse.flatMap Frame.code ++
        (d.group.frames.takeWhile c).reverse.flatMap Frame.code := by
    rw [← List.flatMap_append, ← List.reverse_append, List.takeWhile_append_dropWhile]
  simp [code, Group.code, hv, main_complete, hsplit]

lemma listsOf_congr {g h : Group policy} (ha : g.arguments.length = h.arguments.length)
    (outer : List (Group policy)) : listsOf (g :: outer) = listsOf (h :: outer) := by
  cases outer with
  | nil => rfl
  | cons k outer => simp [listsOf, ha]

lemma strong_of_weak (f : BinaryForm) (x : Element) (hx : x.stackPriority = 0) :
    decide (f.priority ≤ x.stackPriority) = false := by
  have hp := f.priority_pos
  simp only [hx, decide_eq_false_iff_not]
  omega

lemma state_push (f : BinaryForm) (hv : d.value = some e) : (d.push f e).state =
    { d.state.unloaded fun top => f.priority ≤ top.stackPriority with
      pending := f.element :: d.state.pending.dropWhile fun top => f.priority ≤ top.stackPriority
      operandNeeded := true } := by
  have hd := depth_unloaded (strong_of_weak f) hv
  refine State.mk.injEq .. ▸ ⟨?_, ?_, rfl, ?_, rfl,
    listsOf_congr (g := (d.push f e).group) (h := d.group) rfl d.outer⟩
  · rw [(d.split_pending (strong_of_weak f)).2]
    simp [push, Group.pending, below, Frame.element, Group.ends]
  · rw [hd]
    simp [push, netOf, Group.net, Frame.net]
    omega
  · simp [push, state, isFresh, Group.isEmpty, hv, State.unloaded]

lemma code_push (f : BinaryForm) (hv : d.value = some e) : (d.push f e).code = d.code ++
    (d.group.frames.takeWhile fun x => f.priority ≤ x.element.stackPriority).map Frame.instruction := by
  rw [code_unloaded _ hv]
  simp [push, code, Group.code, Frame.code]

lemma ops_push (f : BinaryForm) : State.opsOf
      (d.state.pending.takeWhile fun top => f.priority ≤ top.stackPriority) =
    ((d.group.frames.takeWhile fun x => f.priority ≤ x.element.stackPriority).map
      Frame.instruction).map .ofInstruction := by
  rw [(d.split_pending (strong_of_weak f)).1, opsOf_frames]

lemma follows_operator (hv : d.value = some e) (f : BinaryForm)
    (hl : (d.push f e).state.pending.length ≤ o.maxStackDepth) :
    Follows o d (.operator f) (d.push f e) := by
  rw [state_push f hv] at hl
  refine ⟨_, code_push f hv, ?_⟩
  rw [← ops_push, state_push f hv, ← f.arrivalPriority_eq]
  rw [← f.arrivalPriority_eq] at hl
  exact State.gives_step_binary (by simp [state, hv]) hl

lemma follows_minus_of_some (hv : d.value = some e)
    (hl : (d.push .subtract e).state.pending.length ≤ o.maxStackDepth) :
    Follows o d .minus (d.push .subtract e) := by
  rw [state_push _ hv] at hl
  refine ⟨_, code_push _ hv, ?_⟩
  rw [← ops_push, state_push _ hv]
  exact State.gives_step_minus (by simp [state, hv]) hl

lemma split_frames : (d.group.frames.takeWhile fun x => decide (0 < x.element.stackPriority)) =
      d.group.frames ∧
    (d.group.frames.dropWhile fun x => decide (0 < x.element.stackPriority)) = [] := by
  rw [List.takeWhile_eq_self_iff, List.dropWhile_eq_nil_iff]
  exact ⟨fun x _ => decide_eq_true x.stackPriority_pos, fun x _ => decide_eq_true x.stackPriority_pos⟩

end Step

end Draft

end FormulaCode
