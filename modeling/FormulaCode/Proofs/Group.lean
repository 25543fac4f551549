import FormulaCode.Proofs.Draft
import FormulaCode.Proofs.Encoding
import FormulaCode.Proofs.Stepping

namespace FormulaCode

variable {policy : LiteralPolicy}

lemma depthOf_instructions (is : List Instruction) (h : .endExpr ∉ is) (d : Int) :
    State.depthOf d (is.map .ofInstruction) = d + (is.map fun i => i.opcode.stackEffect).sum := by
  induction is generalizing d with
  | nil => simp [State.depthOf]
  | cons i is ih =>
    simp only [List.mem_cons, not_or] at h
    have hi := Emission.depthAfter_ofInstruction (Ne.symm h.1) d
    change State.depthOf (Emission.depthAfter d (.ofInstruction i)) (is.map .ofInstruction) = _
    rw [hi, ih h.2, List.map_cons, List.sum_cons]
    omega

namespace Frame

variable (x : Frame policy)

lemma isOpenParen_eq : x.element.isOpenParen = false := by
  cases x with
  | apply f => exact f.isOpenParen_eq
  | binary f l => exact f.isOpenParen_eq

lemma stackPriority_pos : 0 < x.element.stackPriority := by
  cases x with
  | apply f => simp [element, f.priorities.1]
  | binary f l => exact f.priority_pos

lemma stackPriority_le : x.element.stackPriority ≤ 7 := by
  cases x with
  | apply f => simp [element, f.priorities.1]
  | binary f l => exact f.priority_le.trans (by decide)

lemma op_code : Emission.op x.element.code = .ofInstruction x.instruction := by
  cases x with
  | apply f => exact f.op_code
  | binary f l => exact f.op_code

lemma instruction_ne_endExpr : x.instruction ≠ .endExpr := by
  cases x with
  | apply f => cases f <;> simp [instruction, Function.instruction]
  | binary f l => simp [instruction]

lemma net_fill (e : Phrase policy) :
    (x.fill e).net = x.net + e.net + x.instruction.opcode.stackEffect := by
  cases x with
  | apply f => simp [fill, net, Phrase.net, instruction]
  | binary f l => simp [fill, net, Phrase.net, instruction, Instruction.opcode, Opcode.stackEffect]; omega

lemma main_fill (e : Phrase policy) : (x.fill e).main = x.code ++ e.main ++ [x.instruction] := by
  cases x <;> rfl

lemma words_fill (e : Phrase policy) : (x.fill e).words = x.words ++ e.words := by
  cases x <;> simp [fill, words, Phrase.words]

lemma rank_fill (e : Phrase policy) : (x.fill e).rank = x.element.stackPriority := by
  cases x with
  | apply f => exact f.priorities.1.symm
  | binary f l => rfl

end Frame

section Complete

variable (frames : List (Frame policy)) (e : Phrase policy)

lemma complete_cons (x : Frame policy) : complete (x :: frames) e = complete frames (x.fill e) := rfl

lemma net_complete : (complete frames e).net = (frames.map Frame.net).sum + e.net +
    (frames.map fun x => x.instruction.opcode.stackEffect).sum := by
  induction frames generalizing e with
  | nil => simp [complete]
  | cons x frames ih =>
    rw [complete_cons, ih, x.net_fill]
    simp only [List.map_cons, List.sum_cons]
    omega

lemma main_complete : (complete frames e).main =
    frames.reverse.flatMap Frame.code ++ e.main ++ frames.map Frame.instruction := by
  induction frames generalizing e with
  | nil => simp [complete]
  | cons x frames ih =>
    rw [complete_cons, ih, x.main_fill]
    simp

lemma words_complete :
    (complete frames e).words = frames.reverse.flatMap Frame.words ++ e.words := by
  induction frames generalizing e with
  | nil => simp [complete]
  | cons x frames ih =>
    rw [complete_cons, ih, x.words_fill]
    simp

lemma rank_complete_pos (h : 0 < e.rank) : 0 < (complete frames e).rank := by
  induction frames generalizing e with
  | nil => exact h
  | cons x frames ih => exact ih _ (by rw [x.rank_fill]; exact x.stackPriority_pos)

lemma opsOf_frames :
    State.opsOf (frames.map Frame.element) = (frames.map Frame.instruction).map .ofInstruction := by
  simp [State.opsOf, Frame.op_code]

lemma endExpr_notMem_frames : Instruction.endExpr ∉ frames.map Frame.instruction := by
  intro h
  obtain ⟨x, _, hx⟩ := List.mem_map.1 h
  exact x.instruction_ne_endExpr hx

end Complete

namespace Group

variable (g : Group policy) (e : Phrase policy)

def rest : List Instruction := g.frames.map Frame.instruction ++ List.replicate g.ends .branchEnd

lemma opsOf_pending : State.opsOf g.pending = g.rest.map .ofInstruction := by
  rw [pending, rest, List.map_append, ← opsOf_frames, State.opsOf, State.opsOf, List.map_append,
    List.map_replicate, List.map_replicate]
  rfl

lemma endExpr_notMem_rest : Instruction.endExpr ∉ g.rest := by
  rw [rest, List.mem_append, List.mem_replicate]
  rintro (h | ⟨_, h⟩)
  · exact endExpr_notMem_frames _ h
  · cases h

lemma sum_effect_rest : (g.rest.map fun i => i.opcode.stackEffect).sum =
    (g.frames.map fun x => x.instruction.opcode.stackEffect).sum := by
  simp [rest, Function.comp_def, Instruction.opcode, Opcode.stackEffect]

lemma isOpenParen_of_mem_pending : ∀ x ∈ g.pending, x.isOpenParen = false := by
  intro x hx
  rcases List.mem_append.1 hx with h | h
  · obtain ⟨y, _, rfl⟩ := List.mem_map.1 h
    exact y.isOpenParen_eq
  · rw [(List.mem_replicate.1 h).2]
    rfl

lemma stackPriority_of_mem_pending : ∀ x ∈ g.pending, x.stackPriority ≤ 7 := by
  intro x hx
  rcases List.mem_append.1 hx with h | h
  · obtain ⟨y, _, rfl⟩ := List.mem_map.1 h
    exact y.stackPriority_le
  · rw [(List.mem_replicate.1 h).2]
    decide

lemma net_closed : (g.arguments.map Phrase.net).sum + (g.closed e).net =
    g.net + e.net + (g.rest.map fun i => i.opcode.stackEffect).sum := by
  have hc := net_complete g.frames e
  rw [sum_effect_rest, net, closed, linked]
  cases g.chain with
  | none => simp only [Option.elim_none]; omega
  | some c => simp only [Option.elim_some, Phrase.net]; omega

lemma ends_closed (h : 0 < e.rank) : (g.closed e).ends = g.ends := by
  rw [closed, linked, ends]
  cases g.chain with
  | none => exact (complete g.frames e).ends_eq_zero (rank_complete_pos _ _ h)
  | some c => rfl

lemma main_closed : (g.closed e).main = g.chain.elim [] (fun c => c.1.main ++ [c.2.instruction]) ++
    g.frames.reverse.flatMap Frame.code ++ e.main ++ g.frames.map Frame.instruction := by
  have hc := main_complete g.frames e
  rw [closed, linked]
  cases g.chain with
  | none => simp [hc]
  | some c => simp [hc, Phrase.main]

lemma code_closed (h : 0 < e.rank) :
    g.arguments.reverse.flatMap Phrase.code ++ (g.closed e).code = g.code ++ e.main ++ g.rest := by
  rw [Phrase.code, ends_closed g e h, main_closed, code, rest]
  simp only [List.append_assoc]

lemma words_closed : g.arguments.reverse.flatMap (fun a => a.words ++ [.separator]) ++
    (g.closed e).words = g.words ++ e.words := by
  have hc := words_complete g.frames e
  rw [closed, linked, words]
  cases g.chain with
  | none => simp [hc]
  | some c => simp [hc, Phrase.words]

end Group

end FormulaCode
