import FormulaCode.Proofs.StackSafety

/-! Programs without jumps. Their instructions are run one after the other, and the effects of those behind
the last end of an expression add up to the height of the value stack, whatever the values are. -/

namespace FormulaCode

def Opcode.pops : Opcode → Nat
  | .unary _ | .branchIf => 1
  | .binary _ => 2
  | _ => 0

/-- The sum of the effects of the instructions behind the last end of an expression. -/
def effectOf (passed : List Instruction) : Int :=
  ((passed.rtakeWhile (· != .endExpr)).map fun i => stackEffect i.opcode.byte).sum

lemma effectOf_endExpr (passed : List Instruction) : effectOf (passed ++ [.endExpr]) = 0 := by
  rw [effectOf, List.rtakeWhile_concat_neg _ _ _ (by decide)]
  rfl

lemma effectOf_concat {i : Instruction} (hi : i ≠ .endExpr) (passed : List Instruction) :
    effectOf (passed ++ [i]) = effectOf passed + i.opcode.stackEffect := by
  rw [effectOf, List.rtakeWhile_concat_pos _ _ _ (by simpa using hi), List.map_append, List.sum_append]
  simp [effectOf, stackEffect_byte]

namespace Machine

variable {values : List Float} {m n : Machine} {i : Nat}

def Next.proceed (values : List Float) : Next → Next
  | .run m => m.step values
  | stopped => stopped

def after (values : List Float) (m : Machine) : Nat → Next
  | 0 => .run m
  | i + 1 => (m.after values i).proceed values

def Next.outcome (values : List Float) : Next → Except Fault Float
  | .run m => m.run values
  | .halt x => .ok x
  | .fault f => .error f

lemma outcome_after (values : List Float) (m : Machine) (i : Nat) :
    (m.after values i).outcome values = m.run values := by
  induction i with
  | zero => rfl
  | succ i ih =>
    rw [after, ← ih]
    cases m.after values i with
    | run n => exact (run_eq n).symm
    | halt x => rfl
    | fault f => rfl

lemma exists_run_of_succ (h : m.after values (i + 1) = .run n) :
    ∃ k, m.after values i = .run k ∧ k.step values = .run n := by
  rw [after] at h
  cases hi : m.after values i with
  | run k =>
    rw [hi] at h
    exact ⟨k, rfl, h⟩
  | halt x =>
    rw [hi] at h
    cases h
  | fault f =>
    rw [hi] at h
    cases h

lemma exists_run_of_le {j : Nat} (h : m.after values j = .run n) (hij : i ≤ j) :
    ∃ k, m.after values i = .run k := by
  induction j generalizing n with
  | zero =>
    obtain rfl := Nat.le_zero.1 hij
    exact ⟨n, h⟩
  | succ j ih =>
    rcases Nat.le_succ_iff.1 hij with hle | rfl
    · obtain ⟨k, hk, -⟩ := exists_run_of_succ h
      exact ih hk hle
    · exact ⟨n, h⟩

inductive Performs (i : Instruction) (code : List Instruction) (height : Nat) : Next → Prop
  | short (h : height < i.opcode.pops) : Performs i code height (.fault .emptyStack)
  | fault {f : Fault} (h : i.opcode.pops ≤ height) (hf : f ≠ .emptyStack) : Performs i code height (.fault f)
  | run {m : Machine} (h : i.opcode.pops ≤ height) (hc : m.code = code)
    (hl : (m.stack.length : Int) = if i = .endExpr then 0 else height + i.opcode.stackEffect) :
    Performs i code height (.run m)

lemma performs_step (values : List Float) {i : Instruction} (hif : i ≠ .branchIf) (helse : i ≠ .branchElse)
    (code : List Instruction) (stack : List Float) (result : Float) :
    Performs i code stack.length (step values ⟨i :: code, stack, result⟩) := by
  cases i with
  | fetch v => exact .run (Nat.zero_le _) rfl rfl
  | literal x => exact .run (Nat.zero_le _) rfl rfl
  | constant c => exact .run (Nat.zero_le _) rfl rfl
  | unary f =>
    cases stack with
    | nil => exact .short Nat.one_pos
    | cons x stack => exact .run (Nat.le_add_left 1 _) rfl rfl
  | binary f =>
    rcases stack with _ | ⟨y, _ | ⟨x, stack⟩⟩
    · exact .short Nat.two_pos
    · exact .short Nat.one_lt_two
    · have hne := f.apply_ne_emptyStack x y
      cases hz : f.apply x y with
      | ok z =>
        simp only [step, hz]
        exact .run (Nat.le_add_left 2 _) rfl (by simp [Instruction.opcode, Opcode.stackEffect])
      | error e =>
        simp only [step, hz]
        exact .fault (Nat.le_add_left 2 _) fun he => hne (he ▸ hz)
  | branchIf => exact absurd rfl hif
  | branchElse => exact absurd rfl helse
  | branchEnd => exact .run (Nat.zero_le _) rfl rfl
  | endExpr => exact .run (Nat.zero_le _) rfl rfl

end Machine

namespace Program

variable {p : Program} {values values' : List Float} {i j : Nat} {m : Machine}

def IsStraight (p : Program) : Prop := .branchIf ∉ p.body ∧ .branchElse ∉ p.body

/-- The operation at an index. Behind the last instruction stands the end mark. -/
def opcodeAt (p : Program) (i : Nat) : Opcode := p.body[i]?.elim .stop Instruction.opcode

def after (p : Program) (values : List Float) (i : Nat) : Machine.Next :=
  Machine.after values { code := p.body } i

def StopsAt (p : Program) (values : List Float) (i : Nat) : Prop :=
  (∃ m, p.after values i = .run m) ∧ ∀ m, p.after values (i + 1) ≠ .run m

lemma evaluate_eq (p : Program) (values : List Float) (i : Nat) :
    p.evaluate values = (p.after values i).outcome values :=
  (Machine.outcome_after values _ i).symm

lemma evaluate_of_fault {f : Fault} (h : p.after values i = .fault f) : p.evaluate values = .error f := by
  rw [p.evaluate_eq values i, h, Machine.Next.outcome]

lemma after_succ (p : Program) (values : List Float) (i : Nat) :
    p.after values (i + 1) = (p.after values i).proceed values := rfl

lemma exists_stopsAt (h : ∀ m, p.after values i ≠ .run m) : ∃ j < i, p.StopsAt values j := by
  induction i with
  | zero => exact absurd rfl (h _)
  | succ i ih =>
    by_cases hi : ∃ m, p.after values i = .run m
    · exact ⟨i, Nat.lt_succ_self i, hi, h⟩
    · obtain ⟨j, hj, hs⟩ := ih (not_exists.1 hi)
      exact ⟨j, Nat.lt_succ_of_lt hj, hs⟩

namespace IsStraight

variable (h : p.IsStraight)

include h

lemma step_cases (values : List Float) (hc : m.code = p.body.drop i) :
    (p.body[i]? = none ∧ m.step values = .halt m.ended) ∨ ∃ x, p.body[i]? = some x ∧
      Machine.Performs x (p.body.drop (i + 1)) m.stack.length (m.step values) := by
  rw [List.drop_eq_getElem?_toList_append] at hc
  obtain ⟨code, stack, result⟩ := m
  cases hx : p.body[i]? with
  | none =>
    rw [hx, List.drop_eq_nil_of_le (Nat.le_succ_of_le (List.getElem?_eq_none_iff.1 hx))] at hc
    cases hc
    exact .inl ⟨rfl, rfl⟩
  | some x =>
    have hmem : x ∈ p.body := List.mem_of_getElem? hx
    rw [hx] at hc
    cases hc
    refine .inr ⟨x, rfl, Machine.performs_step values ?_ ?_ _ stack result⟩
    · rintro rfl
      exact h.1 hmem
    · rintro rfl
      exact h.2 hmem

lemma of_after (hm : p.after values i = .run m) :
    m.code = p.body.drop i ∧ (m.stack.length : Int) = effectOf (p.body.take i) := by
  induction i generalizing m with
  | zero =>
    cases hm
    exact ⟨rfl, rfl⟩
  | succ i ih =>
    obtain ⟨n, hn, hs⟩ := Machine.exists_run_of_succ hm
    obtain ⟨hc, hl⟩ := ih hn
    rcases h.step_cases values hc with ⟨-, hhalt⟩ | ⟨x, hx, hp⟩
    · cases hhalt.symm.trans hs
    · rw [hs] at hp
      cases hp with
      | run _ hc' hl' =>
        refine ⟨hc', ?_⟩
        rw [List.take_add_one, hx, Option.toList_some, hl', hl]
        by_cases hend : x = .endExpr
        · rw [if_pos hend, hend, effectOf_endExpr]
        · rw [if_neg hend, effectOf_concat hend]

lemma emptyStack_iff (hm : p.after values i = .run m) :
    p.after values (i + 1) = .fault .emptyStack ↔ effectOf (p.body.take i) < (p.opcodeAt i).pops := by
  obtain ⟨hc, hl⟩ := h.of_after hm
  rw [after_succ, hm, Machine.Next.proceed, ← hl, Nat.cast_lt, opcodeAt]
  rcases h.step_cases values hc with ⟨hx, hhalt⟩ | ⟨x, hx, hp⟩
  · rw [hx, hhalt]
    exact iff_of_false (by simp) (Nat.not_lt_zero _)
  · rw [hx, Option.elim_some]
    generalize m.step values = next at hp
    cases hp with
    | short hlt => exact iff_of_true rfl hlt
    | fault hle hf => exact iff_of_false (by simpa using hf) (Nat.not_lt.2 hle)
    | run hle => exact iff_of_false (by simp) (Nat.not_lt.2 hle)

lemma pops_le (hm : p.after values (i + 1) = .run m) :
    (p.opcodeAt i).pops ≤ effectOf (p.body.take i) := by
  obtain ⟨n, hn, -⟩ := Machine.exists_run_of_succ hm
  rw [← Int.not_lt, ← h.emptyStack_iff hn, hm]
  simp

lemma lt_of_halt {v : Float} (hv : p.after values i = .halt v) : p.body.length < i := by
  induction i with
  | zero => cases hv
  | succ i ih =>
    apply Nat.lt_succ_of_le
    rw [after_succ] at hv
    cases hi : p.after values i with
    | run m =>
      rw [hi, Machine.Next.proceed] at hv
      rcases h.step_cases values (h.of_after hi).1 with ⟨hx, -⟩ | ⟨x, -, hp⟩
      · exact List.getElem?_eq_none_iff.1 hx
      · rw [hv] at hp
        cases hp
    | halt w =>
      rw [hi] at hv
      cases hv
      exact (ih hi).le
    | fault f =>
      rw [hi] at hv
      cases hv

lemma not_run_of_lt (hi : p.body.length < i) : p.after values i ≠ .run m := by
  intro hm
  obtain ⟨n, hn⟩ := Machine.exists_run_of_le hm (Nat.succ_le_of_lt hi)
  obtain ⟨k, hk, hs⟩ := Machine.exists_run_of_succ hn
  rcases h.step_cases values (h.of_after hk).1 with ⟨-, hhalt⟩ | ⟨x, hx, -⟩
  · cases hhalt.symm.trans hs
  · rw [List.getElem?_eq_none le_rfl] at hx
    cases hx

lemma height (values : List Float) (hi : i ≤ p.body.length) :
    (∃ m, p.after values i = .run m ∧ m.code = p.body.drop i ∧
      (m.stack.length : Int) = effectOf (p.body.take i)) ∨
      ∃ f, p.after values i = .fault f ∧ p.evaluate values = .error f := by
  cases hs : p.after values i with
  | run m => exact .inl ⟨m, rfl, h.of_after hs⟩
  | halt v => exact absurd hi (Nat.not_le.2 (h.lt_of_halt hs))
  | fault f => exact .inr ⟨f, rfl, evaluate_of_fault hs⟩

lemma evaluate_iff (hs : p.StopsAt values i) :
    p.evaluate values = .error .emptyStack ↔ effectOf (p.body.take i) < (p.opcodeAt i).pops := by
  obtain ⟨⟨m, hm⟩, hstop⟩ := hs
  rw [← h.emptyStack_iff hm, p.evaluate_eq values (i + 1)]
  cases hn : p.after values (i + 1) with
  | run n => exact absurd hn (hstop n)
  | halt v => exact iff_of_false (by simp [Machine.Next.outcome]) (by simp)
  | fault f => simp [Machine.Next.outcome]

lemma pops_le_of_lt (hi : p.StopsAt values i) (hj : j < i) :
    (p.opcodeAt j).pops ≤ effectOf (p.body.take j) := by
  obtain ⟨⟨m, hm⟩, -⟩ := hi
  obtain ⟨n, hn⟩ := Machine.exists_run_of_le hm (Nat.succ_le_of_lt hj)
  exact h.pops_le hn

lemma exists_fault (hi : p.StopsAt values i) (hl : i < p.body.length) :
    ∃ f, p.evaluate values = .error f := by
  cases hs : p.after values (i + 1) with
  | run m => exact absurd hs (hi.2 m)
  | halt v => exact absurd (h.lt_of_halt hs) (Nat.not_lt.2 hl)
  | fault f => exact ⟨f, evaluate_of_fault hs⟩

lemma independent (hi : p.StopsAt values i) (hj : p.StopsAt values' j)
    (he : p.evaluate values = .error .emptyStack) :
    j = i ∧ p.evaluate values' = .error .emptyStack ∨
      j < i ∧ (p.evaluate values' = .error .shiftRange ∨ p.evaluate values' = .error .remainderRange) := by
  have hlack := (h.evaluate_iff hi).1 he
  rcases Nat.lt_trichotomy j i with hlt | rfl | hlt
  · have hle := Int.not_lt.2 (h.pops_le_of_lt hi hlt)
    have hlength : j < p.body.length := by
      obtain ⟨m, hm⟩ := hi.1
      exact hlt.trans_le (Nat.not_lt.1 fun hl => h.not_run_of_lt hl hm)
    obtain ⟨f, hf⟩ := h.exists_fault hj hlength
    refine .inr ⟨hlt, ?_⟩
    cases f with
    | emptyStack => exact absurd ((h.evaluate_iff hj).1 hf) hle
    | shiftRange => exact .inl hf
    | remainderRange => exact .inr hf
  · exact .inl ⟨rfl, (h.evaluate_iff hj).2 hlack⟩
  · exact absurd hlack (Int.not_lt.2 (h.pops_le_of_lt hj hlt))

end IsStraight

/-- In a program without jumps, compiled or not, the stack is after the first instructions as high as their
effects say, unless one of them was a fault. A run stops for lack of a value if and only if the effects up to
there add up to less than the operation takes. Any other run then stops at the same place for the same
reason, unless it stops before at a shift or a remainder out of range. -/
theorem evaluate_straight {p : Program} (h : p.IsStraight) :
    (∀ values i, i ≤ p.body.length →
      (∃ m, p.after values i = .run m ∧ m.code = p.body.drop i ∧
        (m.stack.length : Int) = effectOf (p.body.take i)) ∨
        ∃ f, p.after values i = .fault f ∧ p.evaluate values = .error f) ∧
    (∀ values, ∃ i ≤ p.body.length, p.StopsAt values i) ∧
    (∀ values i, p.StopsAt values i →
      (p.evaluate values = .error .emptyStack ↔ effectOf (p.body.take i) < (p.opcodeAt i).pops)) ∧
    ∀ values values' i j, p.StopsAt values i → p.StopsAt values' j →
      p.evaluate values = .error .emptyStack →
        j = i ∧ p.evaluate values' = .error .emptyStack ∨
          j < i ∧
            (p.evaluate values' = .error .shiftRange ∨ p.evaluate values' = .error .remainderRange) := by
  refine ⟨fun values i => h.height values, fun values => ?_, fun values i => h.evaluate_iff,
    fun values values' i j => h.independent⟩
  have hstop (m : Machine) : p.after values (p.body.length + 1) ≠ .run m :=
    h.not_run_of_lt (Nat.lt_succ_self _)
  obtain ⟨i, hi, hs⟩ := exists_stopsAt hstop
  exact ⟨i, Nat.le_of_lt_succ hi, hs⟩

theorem evaluate_straight_short :
    let p : Program := ⟨[.fetch 0, .unary .neg, .fetch 1, .endExpr, .branchEnd, .constant .pi, .binary .add]⟩
    p.IsStraight ∧ p.evaluate [] = .error .emptyStack ∧ p.evaluate [1.5, 2.5] = .error .emptyStack := by
  intro p
  have h : p.IsStraight := by simp [p, IsStraight]
  have hs (values : List Float) : p.StopsAt values 6 := ⟨⟨_, rfl⟩, fun m hm => by cases hm⟩
  have he : p.evaluate [] = .error .emptyStack :=
    ((evaluate_straight h).2.2.1 [] 6 (hs [])).2 (by decide)
  refine ⟨h, he, ?_⟩
  rcases (evaluate_straight h).2.2.2 [] [1.5, 2.5] 6 6 (hs _) (hs _) he with ⟨-, hv⟩ | ⟨hlt, -⟩
  · exact hv
  · exact absurd hlt (Nat.lt_irrefl 6)

end Program

end FormulaCode
