import FormulaCode.Proofs.Forming

namespace FormulaCode

namespace Draft

open Step

variable {policy : LiteralPolicy} {o : Options} {d d' : Draft o.literalPolicy} {e : Phrase o.literalPolicy}

lemma net_linked (g : Group o.literalPolicy) (e : Phrase o.literalPolicy) :
    (g.linked e).net = g.chain.elim 0 (fun c => c.1.net - 1) + e.net := by
  rw [Group.linked]
  cases g.chain with
  | none => simp
  | some c => simp only [Phrase.net, Option.elim_some]; omega

lemma state_marked (m : Mark) (n : Nat) (hv : d.value = some e) (hr : 0 < e.rank) :
    (d.marked m e n).state =
      { d.state.unloaded fun top => 0 < top.stackPriority with
        pending := List.replicate m.ends .branchEnd ++
          d.state.pending.dropWhile fun top => 0 < top.stackPriority
        depth := (d.state.unloaded fun top => 0 < top.stackPriority).depth - 1
        openConditionals := n
        operandNeeded := true } := by
  have hw : ∀ x : Element, x.stackPriority = 0 → decide (0 < x.stackPriority) = false := by simp
  have he := d.group.ends_closed e hr
  have hc := net_linked d.group (complete d.group.frames e)
  refine State.mk.injEq .. ▸ ⟨?_, ?_, rfl, ?_, rfl,
    listsOf_congr (g := (d.marked m e n).group) (h := d.group) rfl d.outer⟩
  · rw [(d.split_pending hw).2, split_frames.2]
    rw [List.map_nil, List.nil_append, below, ← List.append_assoc, ← List.replicate_add, ← he,
      Nat.add_comm]
    rfl
  · rw [depth_unloaded hw hv, split_frames.1, split_frames.2]
    simp [marked, netOf, Group.net, Group.closed, hc]
    omega
  · simp [marked, state, isFresh, Group.isEmpty, hv, State.unloaded]

lemma code_marked (m : Mark) (n : Nat) (hv : d.value = some e) :
    (d.marked m e n).code = d.code ++ (d.group.frames.map Frame.instruction ++ [m.instruction]) := by
  simp [marked, code, Group.code, hv, Group.main_closed]

lemma ops_marked : State.opsOf (d.state.pending.takeWhile fun top => 0 < top.stackPriority) =
    (d.group.frames.map Frame.instruction).map .ofInstruction := by
  rw [(d.split_pending (c := fun top => 0 < top.stackPriority) (by simp)).1, split_frames.1,
    opsOf_frames]

lemma follows_question (hv : d.value = some e) (hr : 0 < e.rank) :
    Follows o d (.mark .question) (d.marked .question e (d.waiting + 1)) := by
  refine ⟨_, code_marked .question _ hv, ?_⟩
  rw [List.map_append, ← ops_marked, state_marked .question _ hv hr]
  exact State.gives_step_question (by simp [state, hv])

lemma follows_colon (hv : d.value = some e) (hr : 0 < e.rank) (hw : d.waiting ≠ 0)
    (hl : (d.marked .colon e (d.waiting - 1)).state.pending.length ≤ o.maxStackDepth) :
    Follows o d (.mark .colon) (d.marked .colon e (d.waiting - 1)) := by
  rw [state_marked .colon _ hv hr] at hl
  refine ⟨_, code_marked .colon _ hv, ?_⟩
  rw [List.map_append, ← ops_marked, state_marked .colon _ hv hr]
  exact State.gives_step_colon (by simp [state, hv]) hw hl

lemma lists_state {g : Group o.literalPolicy} {outer : List (Group o.literalPolicy)}
    (ho : d.outer = g :: outer) :
    d.state.lists = ⟨netOf d.outer, d.group.arguments.length⟩ :: listsOf d.outer := by
  simp [state, ho, listsOf]

lemma follows_separator (hd : d.Formed) (hv : d.value = some e) (ho : d.outer ≠ [])
    (hn : (d.group.closed e).net = 1) :
    Follows o d .separator
      { d with group := { arguments := d.group.closed e :: d.group.arguments }, value := none } := by
  obtain ⟨g, outer, ho⟩ := List.exists_cons_of_ne_nil ho
  have hu := d.unwound_depth hd hv
  have hc := d.group.code_closed e (rank_value hd hv)
  have hs := (hd.groups d.group List.mem_cons_self).sum_net
  refine ⟨d.group.rest, ?_, ?_⟩
  · rw [code, code, hv]
    simp only [Group.code, List.reverse_cons, List.flatMap_append, List.flatMap_cons, List.flatMap_nil,
      List.append_nil, Option.elim_none, Option.elim_some, List.reverse_nil, List.append_assoc] at hc ⊢
    rw [hc]
  · rw [← d.group.opsOf_pending, ← d.unwind_pending.1]
    refine (State.gives_step_separator (by simp [state, hv]) (by simp [d.unwind_pending.2, ho])
      (lists_state ho) (by simp [hu, hn])).congr ?_ rfl
    refine State.mk.injEq .. ▸ ⟨d.unwind_pending.2, ?_, rfl, ?_, rfl, ?_⟩
    · rw [hu, hn]
      simp [netOf, Group.net, hn, hs]
      omega
    · simp [isFresh, ho, state, State.unloaded]
    · simp [ho, listsOf]

lemma argumentCount_pending (g : Group policy) (outer : List (Group policy)) :
    (g.pending ++ outer.flatMap fun g => .openParen :: g.pending).head?.elim 1 Element.argumentCount =
      g.expected := by
  obtain ⟨arguments, chain, frames⟩ := g
  cases frames with
  | cons x frames =>
    cases x with
    | apply f => exact f.argumentCount_eq
    | binary f l => exact f.argumentCount_eq
  | nil =>
    rw [Group.pending]
    cases Group.ends { arguments, chain } with
    | succ n => rfl
    | zero => cases outer <;> rfl

lemma follows_closeParen {g : Group o.literalPolicy} {outer : List (Group o.literalPolicy)}
    {l : Phrase o.literalPolicy} (hd : d.Formed) (hv : d.value = some e) (ho : d.outer = g :: outer)
    (hn : (d.group.closed e).net = 1) (ha : d.group.arguments.length + 1 = g.expected)
    (hl : listOf d.group.arguments (d.group.closed e) = some l) :
    Follows o d .closeParen { d with outer, group := g, value := some l } := by
  have hu := d.unwound_depth hd hv
  have hs := (hd.groups d.group List.mem_cons_self).sum_net
  refine ⟨d.group.rest, ?_, ?_⟩
  · rw [code, code, hv, ho]
    simp only [main_listOf hl, Option.elim_some, d.group.code_closed e (rank_value hd hv)]
    simp
  · rw [← d.group.opsOf_pending, ← d.unwind_pending.1]
    refine (State.gives_step_closeParen (by simp [state, hv])
      (by rw [d.unwind_pending.2, ho, List.flatMap_cons, List.cons_append]) (lists_state ho)
      (by simp [hu, hn, add_assoc])
      (by rw [argumentCount_pending, ← ha]; simp)).congr ?_ rfl
    refine State.mk.injEq .. ▸ ⟨rfl, ?_, rfl, ?_, rfl, ?_⟩
    · rw [hu, hn, ho]
      simp [net_listOf hl, hn, hs]
      omega
    · simp [isFresh, ho, state, State.unloaded]
    · rw [ho]

lemma complete_of_finish {x : Option (Phrase o.literalPolicy)} (hd : d.Formed)
    (h : d.finish = some x) : d.state.Complete := by
  rcases finish_eq_some h with ⟨rfl, hf⟩ | ⟨e, rfl, ho, hv, hw, hn⟩
  · obtain ⟨ho, hg, hv⟩ := eq_of_isFresh hf
    refine ⟨.inr hf, by simp [d.unwind_pending.2, ho], hd.fresh hf, ?_⟩
    rw [if_pos (show d.state.fresh = true from hf), State.unloaded, d.unwind_pending.1]
    simp [state, ho, hg, hv, Group.pending, Group.ends, State.opsOf, State.depthOf, netOf, Group.net]
  · refine ⟨.inl (by simp [state, hv]), by simp [d.unwind_pending.2, ho], hw, ?_⟩
    rw [d.unwound_depth hd hv, arguments_of_outer_nil hd ho, ho, hn]
    simp [netOf, state, isFresh, hv]

lemma code_finish {x : Option (Phrase o.literalPolicy)} (hd : d.Formed) (h : d.finish = some x) :
    endedCode d.ended ++ x.elim [] Phrase.code = d.code ++ d.group.rest := by
  rcases finish_eq_some h with ⟨rfl, hf⟩ | ⟨e, rfl, ho, hv, hw, hn⟩
  · obtain ⟨ho, hg, hv⟩ := eq_of_isFresh hf
    simp [code, ho, hg, hv, Group.code, Group.rest, Group.ends]
  · have hc := d.group.code_closed e (rank_value hd hv)
    rw [arguments_of_outer_nil hd ho] at hc
    simpa [code, ho, hv] using hc

lemma gives_finish {x : Option (Phrase o.literalPolicy)} (hd : d.Formed) (h : d.finish = some x) :
    ∃ s, d.state.finish.Gives s (d.group.rest.map .ofInstruction) := by
  refine ⟨_, (State.gives_finish (complete_of_finish hd h)).congr rfl ?_⟩
  rw [d.unwind_pending.1, d.group.opsOf_pending]

lemma follows_terminator {x : Option (Phrase o.literalPolicy)} (hd : d.Formed)
    (h : d.finish = some x) : Follows o d .terminator { ended := x :: d.ended } := by
  refine ⟨d.group.rest ++ [.endExpr], ?_, ?_⟩
  · rw [← List.append_assoc, ← code_finish hd h]
    simp [code, endedCode, Group.code]
  · refine (State.gives_step_terminator (complete_of_finish hd h)).congr rfl ?_
    rw [d.unwind_pending.1, d.group.opsOf_pending, List.map_append]
    rfl

lemma finish_of_complete (hd : d.Formed) (h : d.state.Complete) : ∃ x, d.finish = some x := by
  have hp := h.pending
  rw [d.unwind_pending.2] at hp
  have ho : d.outer = [] := by
    cases hd : d.outer with
    | nil => rfl
    | cons g outer => simp [hd] at hp
  cases hv : d.value with
  | none =>
    have hf : d.isFresh = true := h.operand.resolve_left (by simp [state, hv])
    exact ⟨none, by simp [finish, hv, hf]⟩
  | some e =>
    have hu := h.depth
    rw [d.unwound_depth hd hv, arguments_of_outer_nil hd ho, ho] at hu
    refine ⟨some (d.group.closed e), ?_⟩
    have hw : d.waiting = 0 := h.conditionals
    have hn : (d.group.closed e).net = 1 := by simpa [netOf, state, isFresh, hv] using hu
    simp [finish, ho, hv, hw, hn]

lemma fails_finish (hd : d.Formed) (h : d.finish = none) : d.state.finish.Fails := by
  refine State.fails_finish fun hc => ?_
  obtain ⟨x, hx⟩ := finish_of_complete hd hc
  cases h.symm.trans hx

lemma follows_of_reads {w : Word o.literalPolicy} (hd : d.Formed) (h : d.Reads w d')
    (hl : d'.state.pending.length ≤ o.maxStackDepth) : Follows o d w d' := by
  cases h with
  | atom hv a => exact follows_atom hv a
  | function hv f => exact follows_function hv f hl
  | sign hv => exact follows_minus_of_none hv hl
  | operator hv f => exact follows_operator hv f hl
  | subtraction hv => exact follows_minus_of_some hv hl
  | openParen hv => exact follows_openParen hv (by simpa [state, Group.pending, Group.ends] using hl)
  | separator hv ho hn => exact follows_separator hd hv ho hn
  | closeParen hv ho hn ha hlist => exact follows_closeParen hd hv ho hn ha hlist
  | question hv => exact follows_question hv (rank_value hd hv)
  | colon hv hw => exact follows_colon hv (rank_value hd hv) hw hl
  | terminator hf => exact follows_terminator hd hf

lemma expected_le (g : Group policy) : g.expected ≤ 2 := by
  rw [Group.expected, expectedOf.eq_def]
  split
  · rename_i f _ _
    cases f <;> simp [Function.arity]
  · decide

lemma fails_closeParen {g : Group o.literalPolicy} {outer : List (Group o.literalPolicy)}
    (hd : d.Formed) (hv : d.value = some e) (ho : d.outer = g :: outer)
    (h : ¬ ((d.group.closed e).net = 1 ∧ d.group.arguments.length + 1 = g.expected)) :
    (d.state.step o .closeParen).Fails := by
  refine State.fails_step_closeParen_of_depth (by simp [state, hv])
    (by rw [d.unwind_pending.2, ho, List.flatMap_cons, List.cons_append]) (lists_state ho) ?_
  rw [d.unwound_depth hd hv, argumentCount_pending]
  rintro ⟨hu, ha⟩
  dsimp only at hu ha
  exact h ⟨by omega, by exact_mod_cast ha⟩

lemma fails_separator (hd : d.Formed) (hv : d.value = some e)
    (h : ¬ (d.outer ≠ [] ∧ (d.group.closed e).net = 1)) : (d.state.step o .separator).Fails := by
  have hn : d.state.operandNeeded = false := by simp [state, hv]
  cases ho : d.outer with
  | nil =>
    exact (gives_require (by simp [hn]) _).bind_fails
      ((State.fails_unwind (by simp [d.unwind_pending.2, ho])).bind _)
  | cons g outer =>
    refine State.fails_step_separator_of_depth hn (by simp [d.unwind_pending.2, ho])
      (lists_state ho) ?_
    rw [d.unwound_depth hd hv]
    intro hu
    dsimp only at hu
    exact h ⟨by simp [ho], by omega⟩

lemma fails_of_step {w : Word o.literalPolicy} (hd : d.Formed) (h : d.step w = none) :
    (d.state.step o w.symbol).Fails := by
  have hneed : d.state.operandNeeded = d.value.isNone := rfl
  cases w with
  | atom a =>
    cases hv : d.value with
    | none => simp [step, hv] at h
    | some e =>
      cases a <;> exact (fails_require (by simp [hneed, hv]) _).bind _
  | function f =>
    cases hv : d.value with
    | none => simp [step, hv] at h
    | some e => exact (fails_require (by simp [hneed, hv]) _).bind _
  | operator f =>
    cases hv : d.value with
    | none => exact (fails_require (by simp [hneed, hv]) _).bind _
    | some e => simp [step, hv] at h
  | minus => cases hv : d.value <;> simp [step, hv] at h
  | openParen =>
    cases hv : d.value with
    | none => simp [step, hv] at h
    | some e => exact (fails_require (by simp [hneed, hv]) _).bind _
  | closeParen =>
    cases hv : d.value with
    | none => exact (fails_require (by simp [hneed, hv]) _).bind _
    | some e =>
      cases ho : d.outer with
      | nil =>
        exact (gives_require (by simp [hneed, hv]) _).bind_fails
          ((State.fails_unwind (by simp [d.unwind_pending.2, ho])).bind _)
      | cons g outer =>
        refine fails_closeParen hd hv ho fun ⟨hn, ha⟩ => ?_
        have hg := expected_le g
        simp only [step, hv, ho, hn, ha, and_self, if_true, Option.map_eq_none_iff] at h
        match d.group.arguments, ha, h with
        | a :: b :: rest, ha, h => simp at ha; omega
  | separator =>
    cases hv : d.value with
    | none => exact (fails_require (by simp [hneed, hv]) _).bind _
    | some e => exact fails_separator hd hv (by simpa [step, hv] using h)
  | mark m =>
    cases hv : d.value with
    | none => cases m <;> exact (fails_require (by simp [hneed, hv]) _).bind _
    | some e =>
      cases m with
      | question => simp [step, hv] at h
      | colon =>
        exact State.fails_step_colon (by simp [hneed, hv]) (show d.waiting = 0 by simpa [step, hv] using h)
  | terminator =>
    exact (fails_finish hd (by simpa [step] using h)).bind _

end Draft

end FormulaCode
