import FormulaCode.Proofs.Encoding
import FormulaCode.Proofs.Stepping

/-! Each lexeme moves the counters of the compiler by one at most, whether the compiler goes on after
it or not. -/

namespace FormulaCode

open State (depthOf opsOf)

/-- Events that emit instructions only, keep the depth within a bound and tell of no failed check, except
for counters once the bound itself is out of their range. -/
def Sound (n : Nat) : Int → List Event → Prop
  | _, [] => True
  | d, .emit e :: events => (∃ i, e = .ofInstruction i) ∧ (-n ≤ e.depthAfter d ∧ e.depthAfter d ≤ n) ∧
    Sound n (e.depthAfter d) events
  | d, .breach b :: events => (b = .counterRange ∧ 2 ^ 31 ≤ n) ∧ Sound n d events
  | d, _ :: events => Sound n d events

lemma sound_append {n : Nat} {d : Int} {xs ys : List Event} :
    Sound n d (xs ++ ys) ↔ Sound n d xs ∧ Sound n (depthOf d (emissionsOf xs)) ys := by
  induction xs generalizing d with
  | nil => simp [Sound, depthOf]
  | cons x xs ih => cases x <;> simp [Sound, ih, emissionsOf, depthOf, and_assoc]

lemma Sound.mono {m n : Nat} (h : m ≤ n) {d : Int} {xs : List Event} (hs : Sound m d xs) :
    Sound n d xs := by
  induction xs generalizing d with
  | nil => trivial
  | cons x xs ih =>
    cases x with
    | emit e =>
      obtain ⟨hi, hd, hs⟩ := hs
      exact ⟨hi, by omega, ih hs⟩
    | breach b => exact ⟨⟨hs.1.1, hs.1.2.trans h⟩, ih hs.2⟩
    | _ => exact ih hs

namespace Step

variable {α β : Type} {n : Nat} {d : Int}

structure Meets (n : Nat) (d : Int) (x : Step α) (post : α → Int → Prop) : Prop where
  sound : Sound n d x.events
  result : ∀ a, x.result = .ok a → post a (depthOf d x.emitted)

variable {x : Step α} {f : α → Step β} {P : α → Int → Prop} {Q : β → Int → Prop}

lemma Meets.bind (hx : x.Meets n d P) (hf : ∀ a d', P a d' → (f a).Meets n d' Q) :
    (x >>= f).Meets n d Q := by
  cases hr : x.result with
  | error k =>
    rw [bind_of_error hr]
    exact ⟨hx.sound, nofun⟩
  | ok a =>
    have hfa := hf a _ (hx.result a hr)
    rw [bind_of_ok hr]
    refine ⟨sound_append.2 ⟨hx.sound, hfa.sound⟩, fun b hb => ?_⟩
    rw [emitted, emissionsOf_append, State.depthOf_append]
    exact hfa.result b hb

lemma meets_pure {a : α} (h : P a d) : (pure a : Step α).Meets n d P :=
  ⟨trivial, fun b hb => by cases hb; exact h⟩

lemma meets_fail (k : ErrorKind) : (fail k : Step α).Meets n d P := ⟨trivial, nofun⟩

lemma meets_require (c : Bool) (k : ErrorKind) :
    (require c k).Meets n d fun _ d' => d' = d ∧ c = true := by
  cases c with
  | false => exact meets_fail k
  | true => exact meets_pure ⟨rfl, rfl⟩

lemma meets_check {c : Bool} (h : c = true) (b : Breach) :
    (check c b).Meets n d fun _ d' => d' = d := by
  rw [check, if_pos h]
  exact meets_pure rfl

lemma Meets.mono {m : Nat} {P' : α → Int → Prop} (hx : x.Meets m d P) (hn : m ≤ n)
    (hp : ∀ a d', P a d' → P' a d') : x.Meets n d P' :=
  ⟨hx.sound.mono hn, fun a ha => hp a _ (hx.result a ha)⟩

lemma meets_checkCounters {ns : List Int} (h : ∀ m ∈ ns, -n ≤ m ∧ m ≤ n) :
    (checkCounters ns).Meets n d fun _ d' => d' = d := by
  by_cases hc : ns.all inCounterRange = true
  · exact meets_check hc _
  · rw [checkCounters, check, if_neg hc]
    refine ⟨⟨⟨rfl, ?_⟩, trivial⟩, fun _ _ => rfl⟩
    by_contra hn
    refine hc (List.all_eq_true.2 fun m hm => ?_)
    have hm := h m hm
    simp only [inCounterRange, Bool.and_eq_true, decide_eq_true_eq]
    omega

end Step

structure Element.Waits (e : Element) : Prop where
  emits : e.isOpenParen = false → ∃ i, Emission.op e.code = .ofInstruction i
  effect : stackEffect e.code = 0 ∨ stackEffect e.code = -1
  inside : e.code ≠ Opcode.endExpr.byte
  paren : e.isOpenParen = true → e.stackPriority = 0

namespace State

open Step

variable {o : Options} {s : State} {k : Nat}

def debt (s : State) : Int := -(s.pending.map fun e => stackEffect e.code).sum

structure Within (k : Nat) (s : State) : Prop where
  pending : ∀ e ∈ s.pending, e.Waits
  depth_le : s.depth ≤ k
  le_depth : -k ≤ s.depth - s.debt
  lists : ∀ l ∈ s.lists, -k ≤ l.base ∧ 0 ≤ l.separated ∧ l.separated ≤ k ∧ l.base + l.separated ≤ k

lemma Within.mono {m n : Nat} (h : m ≤ n) (hs : s.Within m) : s.Within n where
  pending := hs.pending
  depth_le := hs.depth_le.trans (by omega)
  le_depth := le_trans (by omega) hs.le_depth
  lists := fun l hl => by
    have hb := hs.lists l hl
    omega

lemma sum_effect_le {es : List Element} (h : ∀ e ∈ es, e.Waits) :
    (es.map fun e => stackEffect e.code).sum ≤ 0 := by
  induction es with
  | nil => exact le_refl 0
  | cons e es ih =>
    obtain ⟨he, hes⟩ := List.forall_mem_cons.1 h
    have hi := ih hes
    have hd := he.effect
    rw [List.map_cons, List.sum_cons]
    omega

lemma Within.debt_nonneg (hs : s.Within k) : 0 ≤ s.debt := by
  have hn := sum_effect_le hs.pending
  rw [debt]
  omega

lemma depthAfter_op {e : Element} (h : e.Waits) (d : Int) :
    Emission.depthAfter d (.op e.code) = d + stackEffect e.code := by
  simp [Emission.depthAfter, h.inside]

lemma depthOf_ops {es : List Element} (h : ∀ e ∈ es, e.Waits) (d : Int) :
    depthOf d (opsOf es) = d + (es.map fun e => stackEffect e.code).sum := by
  induction es generalizing d with
  | nil => simp [opsOf, depthOf]
  | cons e es ih =>
    obtain ⟨he, hes⟩ := List.forall_mem_cons.1 h
    change depthOf (Emission.depthAfter d (.op e.code)) (opsOf es) = _
    rw [ih hes, depthAfter_op he, List.map_cons, List.sum_cons, add_assoc]

lemma sound_ops {n : Nat} {d : Int} {es : List Element}
    (h : ∀ e ∈ es, e.Waits ∧ e.isOpenParen = false) (hd : d ≤ n)
    (hn : -n ≤ d + (es.map fun e => stackEffect e.code).sum) :
    Sound n d ((opsOf es).map .emit) := by
  induction es generalizing d with
  | nil => trivial
  | cons e es ih =>
    obtain ⟨⟨he, hp⟩, hes⟩ := List.forall_mem_cons.1 h
    have hs := sum_effect_le fun x hx => (hes x hx).1
    have hf := he.effect
    rw [List.map_cons, List.sum_cons] at hn
    refine ⟨he.emits hp, ?_, ?_⟩
    · rw [depthAfter_op he]
      omega
    · rw [depthAfter_op he]
      exact ih hes (by omega) (by omega)

lemma within_unloaded (hs : s.Within k) (c : Element → Bool) : (s.unloaded c).Within k := by
  have hw := fun e (he : e ∈ s.pending.takeWhile c) => hs.pending e ((List.takeWhile_prefix c).subset he)
  have hn := sum_effect_le hw
  have hsum : (s.pending.map fun e => stackEffect e.code).sum =
      ((s.pending.takeWhile c).map fun e => stackEffect e.code).sum +
        ((s.pending.dropWhile c).map fun e => stackEffect e.code).sum := by
    rw [← List.sum_append, ← List.map_append, List.takeWhile_append_dropWhile]
  have hl := hs.le_depth
  have hd := hs.depth_le
  refine ⟨fun e he => hs.pending e ((List.dropWhile_suffix c).subset he), ?_, ?_, hs.lists⟩
  · simp only [unloaded, depthOf_ops hw]
    omega
  · simp only [unloaded, depthOf_ops hw, debt] at hl ⊢
    omega

lemma meets_emitWhile (hs : s.Within k) {c : Element → Bool}
    (hp : ∀ e ∈ s.pending.takeWhile c, e.isOpenParen = false) :
    (s.emitWhile c).Meets k s.depth fun t d => t = s.unloaded c ∧ d = t.depth := by
  have hw := fun e (he : e ∈ s.pending.takeWhile c) => hs.pending e ((List.takeWhile_prefix c).subset he)
  have hu := within_unloaded hs c
  have hn := hu.debt_nonneg
  have hb := hu.le_depth
  simp only [unloaded, depthOf_ops hw] at hb hn
  refine ⟨sound_ops (fun e he => ⟨hw e he, hp e he⟩) hs.depth_le (by omega), fun t ht => ?_⟩
  cases ht
  exact ⟨rfl, congrArg (depthOf s.depth) (emissionsOf_map_emit _)⟩

lemma meets_unwind (hs : s.Within k) (e : ErrorKind) : (s.unwind e).Meets k s.depth
    fun t d => t = s.unloaded (fun top => !top.isOpenParen) ∧ d = t.depth := by
  refine (meets_emitWhile hs fun x hx => by simpa using List.mem_takeWhile_imp hx).bind ?_
  rintro t _ ⟨rfl, rfl⟩
  refine (meets_require _ _).bind ?_
  rintro _ _ ⟨rfl, -⟩
  exact meets_pure ⟨rfl, rfl⟩

lemma meets_flush (hs : s.Within k) {c : Element → Bool}
    (hc : ∀ e : Element, e.stackPriority = 0 → c e = false) :
    (s.flush c).Meets k s.depth fun t d => t = s.unloaded c ∧ d = t.depth := by
  have hp : ∀ e ∈ s.pending.takeWhile c, e.isOpenParen = false := fun e he => by
    by_contra h
    have hw := hs.pending e ((List.takeWhile_prefix c).subset he)
    have hf := hc e (hw.paren (by simpa using h))
    simp [List.mem_takeWhile_imp he] at hf
  refine (meets_check (by simpa using hp) _).bind ?_
  rintro _ _ rfl
  exact meets_emitWhile hs hp

lemma meets_push (limit : Nat) (e : Element) {n : Nat} {d : Int} :
    (s.push limit e).Meets n d fun t d' => t = { s with pending := e :: s.pending } ∧ d' = d := by
  by_cases h : s.pending.length < limit
  · simp only [push, OperatorStack.push, if_pos h]
    exact meets_pure ⟨rfl, rfl⟩
  · simp only [push, OperatorStack.push, if_neg h]
    exact meets_fail _

def Keeps (k : Nat) (t : State) (d : Int) : Prop := t.Within k ∧ d = t.depth

lemma Within.push (hs : s.Within k) {e : Element} (he : e.Waits) :
    Within (k + 1) { s with pending := e :: s.pending } where
  pending := List.forall_mem_cons.2 ⟨he, hs.pending⟩
  depth_le := (hs.mono k.le_succ).depth_le
  le_depth := by
    have hd := hs.le_depth
    have hf := he.effect
    simp only [debt, List.map_cons, List.sum_cons] at hd ⊢
    push_cast
    omega
  lists := (hs.mono k.le_succ).lists

lemma weak_of_pos {p : Nat} (hp : 0 < p) (e : Element) (h : e.stackPriority = 0) :
    decide (p ≤ e.stackPriority) = false := by
  rw [h]
  exact decide_eq_false (by omega)

lemma meets_pushOperator (hs : s.Within k) {e : Element} (he : e.Waits) (hp : 0 < e.arrivalPriority)
    (limit : Nat) : (s.pushOperator limit e).Meets (k + 1) s.depth
      fun t d => Keeps (k + 1) t d ∧ t.lists = s.lists := by
  refine ((meets_flush hs (weak_of_pos hp)).mono k.le_succ fun _ _ h => h).bind ?_
  rintro t _ ⟨rfl, rfl⟩
  refine (meets_push limit e).mono le_rfl ?_
  rintro t _ ⟨rfl, rfl⟩
  exact ⟨⟨(within_unloaded hs _).push he, rfl⟩, rfl⟩

lemma Within.congr {t : State} (hs : s.Within k) (hp : t.pending = s.pending)
    (hd : t.depth = s.depth) (hl : t.lists = s.lists) : t.Within k :=
  ⟨hp ▸ hs.pending, hd ▸ hs.depth_le, by simpa only [debt, hp, hd] using hs.le_depth, hl ▸ hs.lists⟩

lemma Within.depth_ge (hs : s.Within k) : -k ≤ s.depth := by
  have hd := hs.le_depth
  have hn := hs.debt_nonneg
  omega

lemma meets_emit_one (hs : s.Within k) {i : Instruction} (hi : i ≠ .endExpr)
    (he : -1 ≤ i.opcode.stackEffect ∧ i.opcode.stackEffect ≤ 1) :
    (s.emit [.ofInstruction i]).Meets (k + 1) s.depth fun t d =>
      Keeps (k + 1) t d ∧ t = { s with depth := s.depth + i.opcode.stackEffect } := by
  have ha := Emission.depthAfter_ofInstruction hi s.depth
  have hd := hs.depth_le
  have hg := hs.depth_ge
  have hl := hs.le_depth
  refine ⟨⟨⟨i, rfl⟩, ?_, trivial⟩, fun t ht => ?_⟩
  · rw [ha]
    push_cast
    omega
  · cases ht
    have ht : depthOf s.depth [.ofInstruction i] = s.depth + i.opcode.stackEffect := ha
    refine ⟨⟨⟨hs.pending, ?_, ?_, (hs.mono k.le_succ).lists⟩, rfl⟩, ?_⟩
    · change Emission.depthAfter s.depth (.ofInstruction i) ≤ _
      rw [ha]
      push_cast
      omega
    · change _ ≤ Emission.depthAfter s.depth (.ofInstruction i) - s.debt
      rw [ha]
      push_cast
      omega
    · rw [← ha]
      rfl

end State

end FormulaCode
