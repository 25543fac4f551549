import FormulaCode.Proofs.Formula

namespace FormulaCode

section Skipping

variable {mark i : Instruction}

@[simp] lemma skipTo_branchIf (n : Nat) (k : List Instruction) :
    skipTo mark n (.branchIf :: k) = skipTo mark (n + 1) k := by
  simp [skipTo]

lemma skipTo_cons_of_ne (hi : i ≠ .branchIf) (hm : i ≠ mark) (n : Nat) (k : List Instruction) :
    skipTo mark n (i :: k) = skipTo mark n k := by
  rw [skipTo.eq_def]
  simp [hi, hm]

lemma skipTo_mark_zero (hm : mark ≠ .branchIf) (k : List Instruction) :
    skipTo mark 0 (mark :: k) = some k := by
  rw [skipTo.eq_def]
  simp [hm]

lemma skipTo_mark_succ (hm : mark ≠ .branchIf) (n : Nat) (k : List Instruction) :
    skipTo mark (n + 1) (mark :: k) = skipTo mark n k := by
  rw [skipTo.eq_def]
  simp [hm]

lemma skipTo_branchEnd_replicate (m n : Nat) (k : List Instruction) :
    skipTo .branchEnd (n + m) (List.replicate m .branchEnd ++ k) = skipTo .branchEnd n k := by
  induction m with
  | zero => rfl
  | succ m ih =>
    rw [List.replicate_succ, List.cons_append, ← Nat.add_assoc, skipTo_mark_succ (by simp), ih]

lemma skipTo_branchEnd_inside {i n : Nat} (h : i < n) (k : List Instruction) :
    skipTo .branchEnd i (List.replicate n .branchEnd ++ k) =
      some (List.replicate (n - i - 1) .branchEnd ++ k) := by
  obtain ⟨m, rfl⟩ := Nat.exists_eq_add_of_lt h
  have hs : List.replicate (i + m + 1) Instruction.branchEnd ++ k =
      List.replicate i .branchEnd ++ .branchEnd :: (List.replicate m .branchEnd ++ k) := by
    rw [Nat.add_assoc, List.replicate_add, List.replicate_succ, List.append_assoc, List.cons_append]
  have hd : i + m + 1 - i - 1 = m := by omega
  have hz := skipTo_branchEnd_replicate i 0 (.branchEnd :: (List.replicate m .branchEnd ++ k))
  rw [Nat.zero_add, skipTo_mark_zero (by simp)] at hz
  rw [hs, hd, hz]

lemma skipTo_branchElse_replicate (m n : Nat) (k : List Instruction) :
    skipTo .branchElse n (List.replicate m .branchEnd ++ k) = skipTo .branchElse n k := by
  induction m with
  | zero => rfl
  | succ m ih => rw [List.replicate_succ, List.cons_append, skipTo_cons_of_ne (by simp) (by simp), ih]

end Skipping

namespace Formula

variable {policy : LiteralPolicy} {p : Nat}

lemma skipTo_branchElse_main (e : Formula policy p) (n : Nat) (k : List Instruction) :
    skipTo .branchElse n (e.main ++ k) = skipTo .branchElse n k := by
  induction e generalizing n k with
  | atom a =>
    cases a <;> exact skipTo_cons_of_ne (by simp [Atom.instruction]) (by simp [Atom.instruction]) n k
  | apply f e ih =>
    rw [main, List.append_assoc, ih]
    exact skipTo_cons_of_ne (by simp) (by simp) n k
  | call f a b iha ihb =>
    simp only [main, List.append_assoc]
    rw [iha, skipTo_branchElse_replicate, ihb, skipTo_branchElse_replicate]
    exact skipTo_cons_of_ne (by simp) (by simp) n k
  | paren e ih => rw [main, List.append_assoc, ih, skipTo_branchElse_replicate]
  | binary f l r hl hr ihl ihr =>
    simp only [main, List.append_assoc]
    rw [ihl, ihr]
    exact skipTo_cons_of_ne (by simp) (by simp) n k
  | conditional c t e hc ihc iht ihe =>
    simp only [main, List.append_assoc, List.cons_append]
    rw [ihc, skipTo_branchIf, iht, skipTo_mark_succ (by simp), ihe]

lemma skipTo_branchElse_over (e : Formula policy p) (k : List Instruction) :
    skipTo .branchElse 0 (e.main ++ .branchElse :: k) = some k := by
  rw [skipTo_branchElse_main, skipTo_mark_zero (by simp)]

lemma skipTo_branchEnd_main (e : Formula policy p) (n : Nat) (k : List Instruction) :
    skipTo .branchEnd n (e.main ++ k) = skipTo .branchEnd (n + e.ends) k := by
  induction e generalizing n k with
  | atom a =>
    cases a <;> exact skipTo_cons_of_ne (by simp [Atom.instruction]) (by simp [Atom.instruction]) n k
  | apply f e ih =>
    rw [main, List.append_assoc, ih, e.ends_eq_zero (by decide)]
    exact skipTo_cons_of_ne (by simp) (by simp) n k
  | call f a b iha ihb =>
    simp only [main, List.append_assoc]
    rw [iha, skipTo_branchEnd_replicate, ihb, skipTo_branchEnd_replicate]
    exact skipTo_cons_of_ne (by simp) (by simp) n k
  | paren e ih => rw [main, List.append_assoc, ih, skipTo_branchEnd_replicate]; rfl
  | binary f l r hl hr ihl ihr =>
    have hp := f.priority_pos
    simp only [main, List.append_assoc]
    rw [ihl, ihr, l.ends_eq_zero (by omega), r.ends_eq_zero (by omega)]
    exact skipTo_cons_of_ne (by simp) (by simp) n k
  | conditional c t e hc ihc iht ihe =>
    simp only [main, List.append_assoc, List.cons_append]
    rw [ihc, c.ends_eq_zero hc, skipTo_branchIf, iht, skipTo_cons_of_ne (by simp) (by simp), ihe]
    congr 1
    simp only [ends]
    omega

end Formula

namespace Machine

variable {values : List Float}

lemma run_eq (m : Machine) : m.run values = match m.step values with
    | .run n => n.run values
    | .halt x => .ok x
    | .fault f => .error f := by
  rw [run]
  split <;> simp_all

lemma run_of_step {m n : Machine} (h : m.step values = .run n) : m.run values = n.run values := by
  rw [run_eq, h]

/-- Code in which the ends of so many branches lead to the same as going on. -/
def Joins (values : List Float) (n : Nat) (k : List Instruction) : Prop :=
  ∀ i < n, ∃ k', skipTo .branchEnd i k = some k' ∧ ∀ stack result,
    (Machine.mk k' stack result).run values = (Machine.mk k stack result).run values

lemma Joins.mono {n m : Nat} {k : List Instruction} (h : Joins values n k) (hm : m ≤ n) :
    Joins values m k :=
  fun i hi => h i (hi.trans_le hm)

lemma joins_zero (k : List Instruction) : Joins values 0 k := fun _ h => absurd h (Nat.not_lt_zero _)

lemma run_replicate_branchEnd (n : Nat) (k : List Instruction) (stack : List Float) (result : Float) :
    (Machine.mk (List.replicate n .branchEnd ++ k) stack result).run values =
      (Machine.mk k stack result).run values := by
  induction n with
  | zero => rfl
  | succ n ih => exact (run_of_step rfl).trans ih

lemma joins_replicate (n : Nat) (k : List Instruction) :
    Joins values n (List.replicate n .branchEnd ++ k) := by
  intro i hi
  refine ⟨_, skipTo_branchEnd_inside hi k, ?_⟩
  intro stack result
  rw [run_replicate_branchEnd, run_replicate_branchEnd]

lemma run_binary (f : BinaryOp) (k : List Instruction) (x y : Float) (stack : List Float)
    (result : Float) :
    (Machine.mk (.binary f :: k) (y :: x :: stack) result).run values = (do
      let z ← f.apply x y
      (Machine.mk k (z :: stack) result).run values) := by
  rw [run_eq]
  cases h : f.apply x y with
  | error e => simp only [Machine.step, h]; rfl
  | ok z => simp only [Machine.step, h]; rfl

end Machine

namespace Formula

open Machine

variable {policy : LiteralPolicy} {p : Nat} {values : List Float}

section BranchElse

variable (e : Formula policy p) {m : Nat} {k : List Instruction} (hk : Joins values (m + 1 + e.ends) k)

include hk

lemma run_branchElse (stack : List Float) (result : Float) :
    (Machine.mk (.branchElse :: (e.main ++ k)) stack result).run values =
      (Machine.mk k stack result).run values := by
  obtain ⟨k', hk', hrun⟩ := hk e.ends (by omega)
  have hskip := skipTo_branchEnd_main e 0 k
  rw [Nat.zero_add, hk'] at hskip
  rw [← hrun stack result]
  exact run_of_step (by simp [Machine.step, jump, hskip])

lemma joins_branchElse : Joins values m (.branchElse :: (e.main ++ k)) := by
  intro i hi
  obtain ⟨k', hk', hrun⟩ := hk (i + e.ends) (by omega)
  refine ⟨k', ?_, ?_⟩
  · rw [skipTo_cons_of_ne (by simp) (by simp), skipTo_branchEnd_main, hk']
  · intro stack result
    rw [hrun, run_branchElse e hk]

end BranchElse

lemma run_main (e : Formula policy p) (k : List Instruction) (stack : List Float) (result : Float)
    (hk : Joins values e.ends k) :
    (Machine.mk (e.main ++ k) stack result).run values = (do
      let x ← e.eval values
      (Machine.mk k (x :: stack) result).run values) := by
  induction e generalizing k stack with
  | atom a => cases a <;> exact run_of_step rfl
  | apply f e ih =>
    rw [main, List.append_assoc, ih _ _ (by rw [e.ends_eq_zero (by decide)]; exact joins_zero _), eval,
      bind_assoc]
    congr 1
    funext x
    exact run_of_step rfl
  | call f a b iha ihb =>
    simp only [main, List.append_assoc]
    rw [iha _ _ (joins_replicate _ _), eval, bind_assoc]
    congr 1
    funext x
    rw [run_replicate_branchEnd, ihb _ _ (joins_replicate _ _), bind_assoc]
    congr 1
    funext y
    rw [run_replicate_branchEnd]
    exact run_binary f.op k x y stack result
  | paren e ih =>
    rw [main, List.append_assoc, ih _ _ (joins_replicate _ _), eval]
    congr 1
    funext x
    rw [run_replicate_branchEnd]
  | binary f l r hl hr ihl ihr =>
    have hp := f.priority_pos
    simp only [main, List.append_assoc]
    rw [ihl _ _ (by rw [l.ends_eq_zero (by omega)]; exact joins_zero _), eval, bind_assoc]
    congr 1
    funext x
    rw [ihr _ _ (by rw [r.ends_eq_zero (by omega)]; exact joins_zero _), bind_assoc]
    congr 1
    funext y
    exact run_binary f.op k x y stack result
  | conditional c t e hc ihc iht ihe =>
    have helse := run_branchElse e (m := t.ends) hk
    have hjoins := joins_branchElse e (m := t.ends) hk
    simp only [main, List.append_assoc, List.cons_append]
    rw [ihc _ _ (by rw [c.ends_eq_zero hc]; exact joins_zero _), eval, bind_assoc]
    congr 1
    funext x
    by_cases hx : (x == 0.0) = true
    · rw [if_pos hx, ← ihe k stack (hk.mono (by simp only [ends]; omega))]
      exact run_of_step (by simp [Machine.step, jump, hx, skipTo_branchElse_over])
    · rw [if_neg hx, run_of_step (n := ⟨t.main ++ .branchElse :: (e.main ++ k), stack, result⟩)
        (by simp [Machine.step, hx]), iht _ _ hjoins]
      congr 1
      funext y
      rw [helse]

lemma run_code (e : Formula policy p) (k : List Instruction) (stack : List Float) (result : Float) :
    (Machine.mk (e.code ++ k) stack result).run values = (do
      let x ← e.eval values
      (Machine.mk k (x :: stack) result).run values) := by
  rw [code, List.append_assoc, run_main e _ _ _ (joins_replicate _ _)]
  congr 1
  funext x
  rw [run_replicate_branchEnd]

end Formula

end FormulaCode
