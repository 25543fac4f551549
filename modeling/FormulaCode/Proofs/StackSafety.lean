import FormulaCode.Proofs.Evaluation

/-! Code that keeps the value stack in order whichever way its conditions turn out, and the runs of the
machine on it. -/

namespace FormulaCode

def Instruction.arity? : Instruction → Option Nat
  | .fetch _ | .literal _ | .constant _ => some 0
  | .unary _ => some 1
  | .binary _ => some 2
  | _ => none

lemma Instruction.ne_of_arity {i j : Instruction} {a : Nat} (hi : i.arity? = some a)
    (hj : j.arity? = none) : i ≠ j := by
  rintro rfl
  cases hi.symm.trans hj

def remains (empty : Bool) : Nat := if empty then 0 else 1

/-- From a stack of so many values the code runs to its end for either outcome of each condition: no
operation lacks a value, every jump has somewhere to go, and each expression leaves what it has to. The
flag tells whether the current expression is still empty. -/
inductive Secure : Bool → List Instruction → Nat → Prop
  | stop (empty : Bool) : Secure empty [] (remains empty)
  | operation {empty : Bool} {i : Instruction} {a n : Nat} {code : List Instruction}
    (ha : i.arity? = some a) (h : Secure false code (n + 1)) : Secure empty (i :: code) (n + a)
  | branchIf {empty : Bool} {n : Nat} {code target : List Instruction}
    (ht : skipTo .branchElse 0 code = some target) (h : Secure false code n)
    (hj : Secure false target n) : Secure empty (.branchIf :: code) (n + 1)
  | branchElse {empty : Bool} {n : Nat} {code target : List Instruction}
    (ht : skipTo .branchEnd 0 code = some target) (hj : Secure false target n) :
    Secure empty (.branchElse :: code) n
  | branchEnd {empty : Bool} {n : Nat} {code : List Instruction} (h : Secure false code n) :
    Secure empty (.branchEnd :: code) n
  | endExpr {empty : Bool} {code : List Instruction} (h : Secure true code 0) :
    Secure empty (.endExpr :: code) (remains empty)

def startsAfter (passed : List Instruction) : Bool := passed.getLast?.all (· = .endExpr)

/-- No run pops an empty stack, and where an expression ends the stack holds the value of the expression,
or none if the expression is empty. -/
def Program.StackSafe (p : Program) (values : List Float) : Prop :=
  ∀ m, Relation.ReflTransGen (fun m n : Machine => m.step values = .run n) { code := p.body } m →
    m.step values ≠ .fault .emptyStack ∧
      ∀ passed, p.body = passed ++ m.code → m.code.head?.all (· = .endExpr) = true →
        m.stack.length = remains (startsAfter passed)

namespace Secure

variable {empty : Bool} {i : Instruction} {n : Nat} {code : List Instruction}

lemma nil_iff : Secure empty [] n ↔ n = remains empty :=
  ⟨fun | .stop _ => rfl, fun h => h ▸ .stop empty⟩

lemma operation_iff {a : Nat} (ha : i.arity? = some a) :
    Secure empty (i :: code) n ↔ ∃ m, n = m + a ∧ Secure false code (m + 1) := by
  constructor
  · intro h
    cases h with
    | operation hb h =>
      cases ha.symm.trans hb
      exact ⟨_, rfl, h⟩
    | _ => cases ha
  · rintro ⟨m, rfl, h⟩
    exact .operation ha h

lemma branchIf_iff : Secure empty (.branchIf :: code) n ↔ ∃ m target, n = m + 1 ∧
    skipTo .branchElse 0 code = some target ∧ Secure false code m ∧ Secure false target m := by
  constructor
  · intro h
    cases h with
    | operation ha => cases ha
    | branchIf ht h hj => exact ⟨_, _, rfl, ht, h, hj⟩
  · rintro ⟨m, target, rfl, ht, h, hj⟩
    exact .branchIf ht h hj

lemma branchElse_iff : Secure empty (.branchElse :: code) n ↔
    ∃ target, skipTo .branchEnd 0 code = some target ∧ Secure false target n := by
  constructor
  · intro h
    cases h with
    | operation ha => cases ha
    | branchElse ht hj => exact ⟨_, ht, hj⟩
  · rintro ⟨target, ht, hj⟩
    exact .branchElse ht hj

lemma branchEnd_iff : Secure empty (.branchEnd :: code) n ↔ Secure false code n := by
  constructor
  · intro h
    cases h with
    | operation ha => cases ha
    | branchEnd h => exact h
  · exact .branchEnd

lemma endExpr_iff : Secure empty (.endExpr :: code) n ↔ n = remains empty ∧ Secure true code 0 := by
  constructor
  · intro h
    cases h with
    | operation ha => cases ha
    | endExpr h => exact ⟨rfl, h⟩
  · rintro ⟨rfl, h⟩
    exact .endExpr h

lemma unique {m : Nat} (h : Secure empty code m) (h' : Secure empty code n) : m = n := by
  induction h generalizing n with
  | stop => exact (nil_iff.1 h').symm
  | operation ha _ ih =>
    obtain ⟨k, rfl, hk⟩ := (operation_iff ha).1 h'
    have heq := ih hk
    omega
  | branchIf _ _ _ ih =>
    obtain ⟨k, _, rfl, _, hk, _⟩ := branchIf_iff.1 h'
    rw [ih hk]
  | branchElse ht _ ih =>
    obtain ⟨target, ht', hk⟩ := branchElse_iff.1 h'
    cases ht.symm.trans ht'
    exact ih hk
  | branchEnd _ ih => exact ih (branchEnd_iff.1 h')
  | endExpr => exact (endExpr_iff.1 h').1.symm

end Secure

lemma exists_of_skipTo {mark : Instruction} {n : Nat} {code target : List Instruction}
    (h : skipTo mark n code = some target) : ∃ skipped, code = skipped ++ mark :: target := by
  fun_induction skipTo mark n code with
  | case1 => cases h
  | case2 n rest ih =>
    obtain ⟨skipped, rfl⟩ := ih h
    exact ⟨.branchIf :: skipped, rfl⟩
  | case3 rest =>
    cases h
    exact ⟨[], rfl⟩
  | case4 rest _ n ih =>
    obtain ⟨skipped, rfl⟩ := ih h
    exact ⟨mark :: skipped, rfl⟩
  | case5 n i rest _ _ ih =>
    obtain ⟨skipped, rfl⟩ := ih h
    exact ⟨i :: skipped, rfl⟩

lemma BinaryOp.apply_ne_emptyStack (f : BinaryOp) (x y : Float) : f.apply x y ≠ .error .emptyStack := by
  cases f with
  | rem =>
    simp only [apply, remainder]
    repeat' split
    all_goals nofun
  | shiftRight | shiftLeft =>
    simp only [apply, shift]
    split <;> nofun
  | _ => nofun

lemma startsAfter_append {passed : List Instruction} (h : passed ≠ []) (before : List Instruction) :
    startsAfter (before ++ passed) = startsAfter passed := by
  rw [startsAfter, startsAfter, List.getLast?_append_of_ne_nil _ h]

lemma startsAfter_concat {i : Instruction} (hi : i ≠ .endExpr) (passed : List Instruction) :
    startsAfter (passed ++ [i]) = false := by
  simp [startsAfter, hi]

namespace Machine

variable {values : List Float} {m m' : Machine}

inductive Advances (m : Machine) : Next → Prop
  | halt (x : Float) : Advances m (.halt x)
  | fault {f : Fault} (hf : f ≠ .emptyStack) : Advances m (.fault f)
  | run {m' : Machine} (passed : List Instruction) (hne : passed ≠ [])
    (hc : m.code = passed ++ m'.code) (h : Secure (startsAfter passed) m'.code m'.stack.length) :
    Advances m (.run m')

lemma advances_jump {i mark : Instruction} {code target : List Instruction} {stack : List Float}
    {result : Float} {original : List Float} (hm : mark ≠ .endExpr)
    (ht : skipTo mark 0 code = some target) (h : Secure false target stack.length) :
    Advances ⟨i :: code, original, result⟩ (jump ⟨code, stack, result⟩ mark) := by
  obtain ⟨skipped, rfl⟩ := exists_of_skipTo ht
  rw [jump, ht]
  refine .run (i :: skipped ++ [mark]) (by simp) (by simp) ?_
  rw [startsAfter_concat hm]
  exact h

lemma advances_next {i : Instruction} {code : List Instruction} {original stack : List Float}
    {result : Float} (hi : i ≠ .endExpr) (h : Secure false code stack.length) :
    Advances ⟨i :: code, original, result⟩ (.run ⟨code, stack, result⟩) :=
  .run [i] (by simp) rfl ((startsAfter_concat hi []).symm ▸ h)

lemma advances_push {empty : Bool} {i : Instruction} {a : Nat} {code : List Instruction}
    {original stack : List Float} {result : Float} (ha : i.arity? = some a)
    (hl : original.length = stack.length + a) (h : Secure empty (i :: code) original.length) (x : Float) :
    Advances ⟨i :: code, original, result⟩ (.run ⟨code, x :: stack, result⟩) := by
  obtain ⟨n, hn, h⟩ := (Secure.operation_iff ha).1 h
  obtain rfl : n = stack.length := by omega
  exact advances_next (by rintro rfl; cases ha) h

lemma advances_step (values : List Float) {empty : Bool}
    (h : Secure empty m.code m.stack.length) : m.Advances (m.step values) := by
  obtain ⟨code, stack, result⟩ := m
  cases code with
  | nil => exact .halt _
  | cons i code =>
    change Secure empty (i :: code) stack.length at h
    cases i with
    | fetch v => exact advances_push rfl rfl h _
    | literal x => exact advances_push rfl rfl h _
    | constant c => exact advances_push rfl rfl h _
    | unary f =>
      obtain ⟨n, hn, -⟩ := (Secure.operation_iff rfl).1 h
      obtain ⟨x, stack, rfl⟩ := List.exists_of_length_succ stack hn
      exact advances_push rfl rfl h _
    | binary f =>
      obtain ⟨n, hn, -⟩ := (Secure.operation_iff rfl).1 h
      obtain ⟨y, rest, rfl⟩ := List.exists_of_length_succ stack hn
      obtain ⟨x, stack, rfl⟩ := List.exists_of_length_succ rest (Nat.succ.inj hn)
      have hne := f.apply_ne_emptyStack x y
      cases hz : f.apply x y with
      | ok z =>
        simp only [step, hz]
        exact advances_push rfl rfl h z
      | error e =>
        simp only [step, hz]
        exact .fault fun he => hne (he ▸ hz)
    | branchIf =>
      obtain ⟨n, target, hn, ht, h, hj⟩ := Secure.branchIf_iff.1 h
      obtain ⟨x, stack, rfl⟩ := List.exists_of_length_succ stack hn
      obtain rfl : stack.length = n := Nat.succ.inj hn
      by_cases hx : (x == 0.0) = true
      · simp only [step, hx, if_true]
        exact advances_jump (by simp) ht hj
      · simp only [step, hx]
        exact advances_next (by simp) h
    | branchElse =>
      obtain ⟨target, ht, hj⟩ := Secure.branchElse_iff.1 h
      exact advances_jump (by simp) ht hj
    | branchEnd => exact advances_next (by simp) (Secure.branchEnd_iff.1 h)
    | endExpr => exact .run [.endExpr] (by simp) rfl (Secure.endExpr_iff.1 h).2

def InOrder (p : Program) (m : Machine) : Prop :=
  ∃ passed, p.body = passed ++ m.code ∧ Secure (startsAfter passed) m.code m.stack.length

lemma InOrder.step {p : Program} (h : m.InOrder p) (hs : m.step values = .run m') : m'.InOrder p := by
  obtain ⟨before, hp, hsec⟩ := h
  have ha := advances_step values hsec
  rw [hs] at ha
  cases ha with
  | run passed hne hc h =>
    refine ⟨before ++ passed, by rw [hp, hc, List.append_assoc], ?_⟩
    rw [startsAfter_append hne]
    exact h

end Machine

lemma Program.stackSafe_of_secure {p : Program} (h : Secure true p.body 0) (values : List Float) :
    p.StackSafe values := by
  intro m hm
  have ho : m.InOrder p := by
    induction hm with
    | refl => exact ⟨[], rfl, h⟩
    | tail _ hs ih => exact ih.step hs
  obtain ⟨passed, hp, hsec⟩ := ho
  refine ⟨fun hfault => ?_, fun passed' hp' hend => ?_⟩
  · have ha := Machine.advances_step values hsec
    rw [hfault] at ha
    cases ha with
    | fault hf => exact hf rfl
  · obtain rfl : passed' = passed := List.append_cancel_right (hp'.symm.trans hp)
    cases hc : m.code with
    | nil => exact Secure.nil_iff.1 (hc ▸ hsec)
    | cons i code =>
      rw [hc] at hsec hend
      obtain rfl : i = .endExpr := by simpa using hend
      exact (Secure.endExpr_iff.1 hsec).1

end FormulaCode
