import FormulaCode.Proofs.Budget

namespace FormulaCode

inductive Symbol.Known : Symbol → Prop
  | operand {i : Instruction} (hi : i.opcode.stackEffect = 1) : Known (.operand (.ofInstruction i))
  | numeral (n : Numeral) : Known (.numeral n)
  | unary {e : Element} (he : e.Waits) (hp : 0 < e.arrivalPriority) : Known (.unary e)
  | binary {e : Element} (he : e.Waits) (hp : 0 < e.arrivalPriority) : Known (.binary e)
  | minus : Known .minus
  | question : Known .question
  | colon : Known .colon
  | separator : Known .separator
  | closeParen : Known .closeParen
  | terminator : Known .terminator

lemma Element.waits_of_opcode {e : Element} (i : Instruction) (hc : e.code = i.opcode.byte)
    (ho : i.operand = .none) (he : i.opcode.stackEffect = 0 ∨ i.opcode.stackEffect = -1)
    (hi : i ≠ .endExpr) : e.Waits where
  emits := fun _ => ⟨i, by
    rw [hc]
    cases i with
    | fetch v => cases ho
    | literal x => cases ho
    | _ => rfl⟩
  effect := by
    rw [hc, stackEffect_byte]
    exact he
  inside := by
    rw [hc]
    intro h
    exact hi (by cases i <;> cases Opcode.byte_injective h; rfl)
  paren := by
    intro hp
    have hb := Opcode.ofByte?_byte i.opcode
    simp only [isOpenParen, Bool.and_eq_true, beq_iff_eq] at hp
    rw [← hc, hp.2] at hb
    cases hb

lemma Element.waits_branchEnd : Element.branchEnd.Waits :=
  waits_of_opcode .branchEnd rfl rfl (.inl rfl) (by simp)

namespace State

open Step

variable {o : Options} {s : State} {k : Nat}

lemma Keeps.congr {s t : State} {d : Int} (h : Keeps k s d) (hp : t.pending = s.pending)
    (hd : t.depth = s.depth) (hl : t.lists = s.lists) : Keeps k t d :=
  ⟨h.1.congr hp hd hl, h.2.trans hd.symm⟩

lemma meets_step_operand (hs : s.Within k) {i : Instruction} (hi : i.opcode.stackEffect = 1) :
    (s.step o (.operand (.ofInstruction i))).Meets (k + 1) s.depth (Keeps (k + 1)) := by
  refine (meets_require _ _).bind ?_
  rintro _ _ ⟨rfl, -⟩
  refine (meets_emit_one hs (by rintro rfl; cases hi) (by omega)).bind ?_
  rintro t d ⟨ht, -⟩
  exact meets_pure (ht.congr rfl rfl rfl)

lemma meets_literal (hs : s.Within k) (policy : LiteralPolicy) (n : Numeral) :
    (s.literal policy n).Meets (k + 1) s.depth (Keeps (k + 1)) := by
  have hsay (e : Event) (he : Sound (k + 1) s.depth [e]) (hn : emissionsOf [e] = []) :
      (say e).Meets (k + 1) s.depth fun _ d => d = s.depth :=
    ⟨he, fun _ _ => by rw [emitted, say, hn]; rfl⟩
  have hemit (x : Double) : (s.emit [.literal x]).Meets (k + 1) s.depth (Keeps (k + 1)) :=
    (meets_emit_one hs (i := .literal x) (by simp) (by decide : -1 ≤ (1 : Int) ∧ (1 : Int) ≤ 1)).mono le_rfl
      fun _ _ h => h.1
  rw [literal]
  split
  · exact (hsay (.refused n) trivial rfl).bind fun _ _ _ => meets_fail _
  · split
    · refine (hsay (.zeroed n) trivial rfl).bind ?_
      rintro _ _ rfl
      exact hemit _
    · exact hemit _

lemma meets_step_numeral (hs : s.Within k) (n : Numeral) :
    (s.step o (.numeral n)).Meets (k + 1) s.depth (Keeps (k + 1)) := by
  refine (meets_require _ _).bind ?_
  rintro _ _ ⟨rfl, -⟩
  exact (meets_literal hs _ n).bind fun t d ht => meets_pure (ht.congr rfl rfl rfl)

lemma meets_step_binary (hs : s.Within k) {e : Element} (he : e.Waits) (hp : 0 < e.arrivalPriority) :
    (s.step o (.binary e)).Meets (k + 1) s.depth (Keeps (k + 1)) := by
  refine (meets_require _ _).bind ?_
  rintro _ _ ⟨rfl, -⟩
  exact (meets_pushOperator hs he hp _).bind fun t d ht => meets_pure (ht.1.congr rfl rfl rfl)

lemma Within.addList (hs : s.Within k) : Within k { s with lists := ⟨s.depth, 0⟩ :: s.lists } where
  pending := hs.pending
  depth_le := hs.depth_le
  le_depth := hs.le_depth
  lists := by
    have hd := hs.depth_le
    have hg := hs.depth_ge
    exact List.forall_mem_cons.2 ⟨⟨hg, le_rfl, Int.natCast_nonneg k, by simpa using hd⟩, hs.lists⟩

lemma meets_step_unary (hs : s.Within k) {e : Element} (he : e.Waits) (hp : 0 < e.arrivalPriority) :
    (s.step o (.unary e)).Meets (k + 1) s.depth (Keeps (k + 1)) := by
  refine (meets_require _ _).bind ?_
  rintro _ _ ⟨rfl, -⟩
  refine (meets_pushOperator hs he hp _).bind fun t d ht => meets_pure ?_
  obtain ⟨⟨ht, rfl⟩, -⟩ := ht
  cases e.isOpenParen with
  | false => exact ⟨ht.congr rfl rfl rfl, rfl⟩
  | true => exact ⟨ht.addList.congr rfl rfl rfl, rfl⟩

lemma meets_step_minus (hs : s.Within k) :
    (s.step o .minus).Meets (k + 1) s.depth (Keeps (k + 1)) := by
  have hm : (Element.minus s.operandNeeded).Waits ∧ 0 < (Element.minus s.operandNeeded).arrivalPriority := by
    cases s.operandNeeded with
    | false => exact ⟨Element.waits_of_opcode (.binary .sub) rfl rfl (.inr rfl) nofun, by decide⟩
    | true => exact ⟨Element.waits_of_opcode (.unary .neg) rfl rfl (.inl rfl) nofun, by decide⟩
  exact (meets_pushOperator hs hm.1 hm.2 _).bind fun t d ht => meets_pure (ht.1.congr rfl rfl rfl)

lemma meets_separateArgument (hs : s.Within k) :
    s.separateArgument.Meets (k + 1) s.depth (Keeps (k + 1)) := by
  cases hl : s.lists with
  | nil =>
    simp only [separateArgument, hl]
    exact meets_fail _
  | cons l lists =>
    obtain ⟨hb, h0, hsep, hsum⟩ := hs.lists l (by simp [hl])
    have hd := hs.depth_le
    simp only [separateArgument, hl]
    refine (meets_checkCounters ?_).bind ?_
    · simp only [List.forall_mem_cons, List.not_mem_nil, false_implies, implies_true, and_true]
      push_cast
      omega
    rintro _ _ rfl
    refine (meets_require _ _).bind ?_
    rintro _ _ ⟨rfl, hr⟩
    rw [beq_iff_eq] at hr
    refine (meets_checkCounters ?_).bind ?_
    · simp only [List.forall_mem_cons, List.not_mem_nil, false_implies, implies_true, and_true]
      push_cast
      omega
    rintro _ _ rfl
    have hw := hs.mono k.le_succ
    refine meets_pure ⟨⟨hw.pending, hw.depth_le, hw.le_depth, List.forall_mem_cons.2 ⟨?_, ?_⟩⟩, rfl⟩
    · push_cast
      omega
    · exact fun m hm => hw.lists m (by simp [hl, hm])

lemma meets_step_separator (hs : s.Within k) :
    (s.step o .separator).Meets (k + 1) s.depth (Keeps (k + 1)) := by
  refine (meets_require _ _).bind ?_
  rintro _ _ ⟨rfl, -⟩
  refine ((meets_unwind hs _).mono k.le_succ fun _ _ h => h).bind ?_
  rintro t _ ⟨rfl, rfl⟩
  exact (meets_separateArgument (within_unloaded hs _)).bind fun t d ht =>
    meets_pure (ht.congr rfl rfl rfl)

lemma meets_closeArguments (hs : s.Within k) :
    s.closeArguments.Meets (k + 1) s.depth (Keeps (k + 1)) := by
  cases hl : s.lists with
  | nil =>
    simp only [closeArguments, hl]
    exact meets_fail _
  | cons l lists =>
    obtain ⟨hb, h0, hsep, hsum⟩ := hs.lists l (by simp [hl])
    simp only [closeArguments, hl]
    refine (meets_checkCounters ?_).bind ?_
    · simp only [List.forall_mem_cons, List.not_mem_nil, false_implies, implies_true, and_true]
      push_cast
      omega
    rintro _ _ rfl
    refine (meets_require _ _).bind ?_
    rintro _ _ ⟨rfl, -⟩
    have hw := hs.mono k.le_succ
    exact meets_pure ⟨⟨hw.pending, hw.depth_le, hw.le_depth,
      fun m hm => hw.lists m (by simp [hl, hm])⟩, rfl⟩

lemma Within.drop (hs : s.Within k) : Within k { s with pending := s.pending.drop 1 } where
  pending := fun e he => hs.pending e (List.mem_of_mem_drop he)
  depth_le := hs.depth_le
  le_depth := by
    have hd := hs.le_depth
    cases hp : s.pending with
    | nil => simpa [debt, hp] using hd
    | cons e pending =>
      have he := (hs.pending e (by simp [hp])).effect
      simp only [debt, hp, List.map_cons, List.sum_cons, List.drop_one, List.tail_cons] at hd ⊢
      omega
  lists := hs.lists

lemma meets_step_closeParen (hs : s.Within k) :
    (s.step o .closeParen).Meets (k + 1) s.depth (Keeps (k + 1)) := by
  refine (meets_require _ _).bind ?_
  rintro _ _ ⟨rfl, -⟩
  refine ((meets_unwind hs _).mono k.le_succ fun _ _ h => h).bind ?_
  rintro t _ ⟨rfl, rfl⟩
  exact (meets_closeArguments (within_unloaded hs _).drop).bind fun t d ht =>
    meets_pure (ht.congr rfl rfl rfl)

lemma meets_step_question (hs : s.Within k) :
    (s.step o .question).Meets (k + 1) s.depth (Keeps (k + 1)) := by
  refine (meets_require _ _).bind ?_
  rintro _ _ ⟨rfl, -⟩
  refine ((meets_flush hs (weak_of_pos Nat.one_pos)).mono k.le_succ fun _ _ h => h).bind ?_
  rintro t _ ⟨rfl, rfl⟩
  refine (meets_emit_one (within_unloaded hs _) (i := .branchIf) nofun (by decide)).bind ?_
  rintro t d ⟨ht, -⟩
  exact meets_pure (ht.congr rfl rfl rfl)

lemma meets_step_colon (hs : s.Within k) :
    (s.step o .colon).Meets (k + 1) s.depth (Keeps (k + 1)) := by
  refine (meets_require _ _).bind ?_
  rintro _ _ ⟨rfl, -⟩
  refine ((meets_flush hs (weak_of_pos Nat.one_pos)).mono k.le_succ fun _ _ h => h).bind ?_
  rintro t _ ⟨rfl, rfl⟩
  refine (meets_require _ _).bind ?_
  rintro _ _ ⟨rfl, -⟩
  have ht := (within_unloaded hs fun top => decide (0 < top.stackPriority)).congr
    (t := { s.unloaded fun top => decide (0 < top.stackPriority) with
      openConditionals := (s.unloaded fun top => decide (0 < top.stackPriority)).openConditionals - 1 })
    rfl rfl rfl
  refine (meets_emit_one ht (i := .branchElse) nofun (by decide)).bind ?_
  rintro t _ ⟨⟨ht, rfl⟩, -⟩
  refine (meets_push _ _).bind ?_
  rintro u _ ⟨rfl, rfl⟩
  refine meets_pure ⟨⟨?_, ht.depth_le, ?_, ht.lists⟩, rfl⟩
  · exact List.forall_mem_cons.2 ⟨Element.waits_branchEnd, ht.pending⟩
  · have he : stackEffect Element.branchEnd.code = 0 := by decide
    simpa [debt, he] using ht.le_depth

lemma meets_finish (hs : s.Within k) : s.finish.Meets k s.depth
    fun t d => Keeps k t d ∧ t.pending = [] ∧ t.lists = [] := by
  refine (meets_require _ _).bind ?_
  rintro _ _ ⟨rfl, -⟩
  refine (meets_emitWhile hs fun x hx => by simpa using List.mem_takeWhile_imp hx).bind ?_
  rintro t _ ⟨rfl, rfl⟩
  refine (meets_require _ _).bind ?_
  rintro _ _ ⟨rfl, hp⟩
  refine (meets_require _ _).bind ?_
  rintro _ _ ⟨rfl, -⟩
  refine (meets_require _ _).bind ?_
  rintro _ _ ⟨rfl, -⟩
  refine (meets_check hp _).bind ?_
  rintro _ _ rfl
  have hu := within_unloaded hs fun top => !top.isOpenParen
  exact meets_pure ⟨⟨⟨hu.pending, hu.depth_le, hu.le_depth, nofun⟩, rfl⟩,
    List.isEmpty_iff.1 hp, rfl⟩

lemma meets_step_terminator (hs : s.Within k) :
    (s.step o .terminator).Meets (k + 1) s.depth (Keeps (k + 1)) := by
  refine ((meets_finish hs).mono k.le_succ fun _ _ h => h).bind ?_
  rintro t _ ⟨⟨ht, rfl⟩, hp, hl⟩
  refine ⟨⟨⟨.endExpr, rfl⟩, ?_, trivial⟩, ?_⟩
  · simp [Emission.depthAfter]
    omega
  · rintro _ ⟨rfl⟩
    refine ⟨⟨ht.pending, ?_, ?_, by simp [hl]⟩, rfl⟩
    · simp [Emission.depthAfter]
      omega
    · simp [Emission.depthAfter, debt, hp]

lemma meets_step (hs : s.Within k) {x : Symbol} (hx : x.Known) :
    (s.step o x).Meets (k + 1) s.depth (Keeps (k + 1)) := by
  cases hx with
  | operand hi => exact meets_step_operand hs hi
  | numeral n => exact meets_step_numeral hs n
  | unary he hp => exact meets_step_unary hs he hp
  | binary he hp => exact meets_step_binary hs he hp
  | minus => exact meets_step_minus hs
  | question => exact meets_step_question hs
  | colon => exact meets_step_colon hs
  | separator => exact meets_step_separator hs
  | closeParen => exact meets_step_closeParen hs
  | terminator => exact meets_step_terminator hs

end State

namespace Sound

variable {n : Nat} {d : Int} {events : List Event}

lemma counterRange_of_mem (h : Sound n d events) {b : Breach} (hb : .breach b ∈ events) :
    b = .counterRange ∧ 2 ^ 31 ≤ n := by
  induction events generalizing d with
  | nil => cases hb
  | cons x events ih =>
    cases x with
    | emit e => exact ih h.2.2 (by simpa using hb)
    | breach c =>
      rcases List.mem_cons.1 hb with hb | hb
      · cases hb
        exact h.1
      · exact ih h.2 hb
    | _ => exact ih h (by simpa using hb)

lemma counterRange_of_mem_tally (t : Tally) (h : Sound n t.depth events) {b : Breach}
    (hb : b ∈ ((emissionsOf events).foldl Tally.add t).breaches) :
    b ∈ t.breaches ∨ b = .counterRange ∧ 2 ^ 31 ≤ n := by
  induction events generalizing t with
  | nil => exact .inl hb
  | cons x events ih =>
    cases x with
    | emit e =>
      obtain ⟨⟨i, rfl⟩, hd, h⟩ := h
      rcases ih (t.add (.ofInstruction i)) h hb with hb | hb
      · by_cases hr : inCounterRange (Emission.depthAfter t.depth (.ofInstruction i)) = true
        · exact .inl (by simpa [Tally.add, Emission.isWhole_ofInstruction, hr] using hb)
        · have hn : 2 ^ 31 ≤ n := by
            by_contra hn
            refine hr ?_
            simp only [inCounterRange, Bool.and_eq_true, decide_eq_true_eq]
            omega
          have hb : b ∈ t.breaches ∨ b = .counterRange := by
            simpa [Tally.add, Emission.isWhole_ofInstruction, hr] using hb
          exact hb.imp_right fun hb => ⟨hb, hn⟩
      · exact .inr hb
    | breach c => exact ih t h.2 hb
    | _ => exact ih t h hb

end Sound

lemma State.meets_run (o : Options) {s : State} {k : Nat} (hs : s.Within k) (xs : List Lexeme)
    (hx : ∀ x ∈ xs, x.symbol.Known) :
    Sound (k + xs.length) s.depth (s.run o xs).1 ∧ ∀ t, (s.run o xs).2 = .ok t →
      t.Within (k + xs.length) ∧ t.depth = depthOf s.depth (emissionsOf (s.run o xs).1) := by
  induction xs generalizing s k with
  | nil =>
    refine ⟨trivial, ?_⟩
    rintro t ⟨rfl⟩
    exact ⟨hs, rfl⟩
  | cons x xs ih =>
    obtain ⟨hx, hxs⟩ := List.forall_mem_cons.1 hx
    rw [List.length_cons]
    have hm := meets_step (o := o) hs hx
    rw [run]
    cases hr : (s.step o x.symbol).result with
    | error e => exact ⟨hm.sound.mono (by omega), by simp⟩
    | ok t =>
      obtain ⟨ht, hd⟩ := hm.result t hr
      obtain ⟨hsound, hlast⟩ := ih ht hxs
      have hlen : k + 1 + xs.length = k + (xs.length + 1) := by omega
      rw [hlen, ← hd] at hsound
      rw [hlen, ← hd] at hlast
      refine ⟨sound_append.2 ⟨hm.sound.mono (by omega), hsound⟩, fun u hu => ?_⟩
      obtain ⟨hw, hdu⟩ := hlast u hu
      refine ⟨hw, hdu.trans ?_⟩
      rw [← depthOf_append]
      exact congrArg _ (emissionsOf_append _ _).symm

lemma State.within_start : State.Within 0 {} := by
  refine ⟨nofun, le_rfl, ?_, nofun⟩
  decide

namespace Compilation

variable {expression : String}

lemma sound_events (o : Options)
    (hx : ∀ x ∈ (Lexeme.ofExpression expression).1, x.symbol.Known) :
    Sound (Lexeme.ofExpression expression).1.length 0 (ofExpression o expression).events := by
  obtain ⟨hs, ht⟩ := State.meets_run o State.within_start _ hx
  rw [zero_add] at hs ht
  cases hl : Lexeme.ofExpression expression with
  | mk xs stop =>
    rw [hl] at hs ht
    cases hr : State.run o {} xs with
    | mk events result =>
      simp only [hr] at hs ht
      cases result with
      | error e =>
        rw [ofExpression_of_error hl hr]
        exact hs
      | ok s =>
        cases stop with
        | unknown p =>
          rw [ofExpression_of_unknown hl hr]
          exact hs
        | finish p =>
          obtain ⟨hw, hd⟩ := ht s rfl
          rw [ofExpression_of_finish hl hr]
          refine sound_append.2 ⟨hs, ?_⟩
          have hf := (State.meets_finish hw).sound
          rwa [hd] at hf

end Compilation

end FormulaCode
