import FormulaCode.Proofs.Jumps

/-! A single pass over code that decides whether the code keeps the value stack in order. -/

namespace FormulaCode

/-- Whether all ways to each place in the code bring the same number of values to it, enough of them for
what stands there. `heights` has those behind the marks that the open conditionals jump to. Each of
`jumps` is on its way to the end of a branch, with the ends to pass over and the values it brings. -/
def level (empty : Bool) (n : Nat) (heights : List Nat) (jumps : List (Nat × Nat)) :
    List Instruction → Bool
  | [] => n = remains empty ∧ heights = [] ∧ jumps = []
  | i :: code =>
    match i with
    | .branchIf => match n with
      | 0 => false
      | n + 1 => level false n (n :: heights) (jumps.map fun j => (j.1 + 1, j.2)) code
    | .branchElse => match heights with
      | [] => false
      | k :: heights => level false k heights ((0, n) :: jumps) code
    | .branchEnd =>
      jumps.all (fun j => j.1 = 0 → j.2 = n) &&
        level false n heights ((jumps.filter fun j => j.1 ≠ 0).map fun j => (j.1 - 1, j.2)) code
    | .endExpr => n = remains empty && level true 0 heights jumps code
    | i => i.arity?.any fun a => a ≤ n && level false (n - a + 1) heights jumps code

def Program.isLevel (p : Program) : Bool := level true 0 [] [] p.body

def Lands (mark : Instruction) (code : List Instruction) (passes n : Nat) : Prop :=
  ∃ target, skipTo mark passes code = some target ∧ Secure false target n

section Lands

variable {mark i : Instruction} {code : List Instruction} {passes n : Nat}

lemma lands_nil : ¬ Lands mark [] passes n := by
  rintro ⟨target, ht, -⟩
  cases ht

lemma lands_cons (hi : i ≠ .branchIf) (hm : i ≠ mark) :
    Lands mark (i :: code) passes n ↔ Lands mark code passes n := by
  rw [Lands, skipTo_cons_of_ne hi hm, Lands]

lemma lands_branchIf : Lands mark (.branchIf :: code) passes n ↔ Lands mark code (passes + 1) n := by
  rw [Lands, skipTo_branchIf, Lands]

lemma lands_mark_zero (hm : mark ≠ .branchIf) : Lands mark (mark :: code) 0 n ↔ Secure false code n := by
  simp [Lands, skipTo_mark_zero hm]

lemma lands_mark_succ (hm : mark ≠ .branchIf) :
    Lands mark (mark :: code) (passes + 1) n ↔ Lands mark code passes n := by
  rw [Lands, skipTo_mark_succ hm, Lands]

end Lands

structure Ordered (empty : Bool) (n : Nat) (heights : List Nat) (jumps : List (Nat × Nat))
    (code : List Instruction) : Prop where
  secure : Secure empty code n
  heights : ∀ k m, heights[k]? = some m → Lands .branchElse code k m
  jumps : ∀ j ∈ jumps, Lands .branchEnd code j.1 j.2

section Ordered

variable {empty : Bool} {n : Nat} {heights : List Nat} {jumps : List (Nat × Nat)}
  {code : List Instruction}

lemma ordered_nil : Ordered empty n heights jumps [] ↔ n = remains empty ∧ heights = [] ∧ jumps = [] := by
  constructor
  · rintro ⟨h, hh, hj⟩
    refine ⟨Secure.nil_iff.1 h, ?_, ?_⟩
    · cases heights with
      | nil => rfl
      | cons m heights => exact absurd (hh 0 m rfl) lands_nil
    · cases jumps with
      | nil => rfl
      | cons j jumps => exact absurd (hj j List.mem_cons_self) lands_nil
  · rintro ⟨rfl, rfl, rfl⟩
    exact ⟨.stop empty, nofun, nofun⟩

lemma ordered_operation {i : Instruction} {a : Nat} (ha : i.arity? = some a) :
    Ordered empty n heights jumps (i :: code) ↔
      a ≤ n ∧ Ordered false (n - a + 1) heights jumps code := by
  have hi {j : Instruction} (hj : j.arity? = none) : i ≠ j := Instruction.ne_of_arity ha hj
  constructor
  · rintro ⟨h, hh, hj⟩
    obtain ⟨m, rfl, h⟩ := (Secure.operation_iff ha).1 h
    refine ⟨Nat.le_add_left a m, by rwa [Nat.add_sub_cancel], fun k x hk => ?_, fun j hm => ?_⟩
    · exact (lands_cons (hi rfl) (hi rfl)).1 (hh k x hk)
    · exact (lands_cons (hi rfl) (hi rfl)).1 (hj j hm)
  · rintro ⟨hn, h, hh, hj⟩
    refine ⟨(Secure.operation_iff ha).2 ⟨n - a, by omega, h⟩, fun k x hk => ?_, fun j hm => ?_⟩
    · exact (lands_cons (hi rfl) (hi rfl)).2 (hh k x hk)
    · exact (lands_cons (hi rfl) (hi rfl)).2 (hj j hm)

lemma ordered_branchIf : Ordered empty (n + 1) heights jumps (.branchIf :: code) ↔
    Ordered false n (n :: heights) (jumps.map fun j => (j.1 + 1, j.2)) code := by
  constructor
  · rintro ⟨h, hh, hj⟩
    obtain ⟨m, target, hm, ht, h, hjump⟩ := Secure.branchIf_iff.1 h
    cases hm
    refine ⟨h, fun k x hk => ?_, fun j hm => ?_⟩
    · cases k with
      | zero =>
        cases hk
        exact ⟨target, ht, hjump⟩
      | succ k => exact lands_branchIf.1 (hh k x hk)
    · obtain ⟨j, hj', rfl⟩ := List.mem_map.1 hm
      exact lands_branchIf.1 (hj j hj')
  · rintro ⟨h, hh, hj⟩
    obtain ⟨target, ht, hjump⟩ := hh 0 n rfl
    refine ⟨Secure.branchIf_iff.2 ⟨n, target, rfl, ht, h, hjump⟩, fun k x hk => ?_, fun j hm => ?_⟩
    · exact lands_branchIf.2 (hh (k + 1) x hk)
    · exact lands_branchIf.2 (hj _ (List.mem_map_of_mem hm))

lemma ordered_branchElse {k : Nat} : Ordered empty n (k :: heights) jumps (.branchElse :: code) ↔
    Ordered false k heights ((0, n) :: jumps) code := by
  constructor
  · rintro ⟨h, hh, hj⟩
    refine ⟨(lands_mark_zero (by decide)).1 (hh 0 k rfl), fun l x hl => ?_, fun j hm => ?_⟩
    · exact (lands_mark_succ (by decide)).1 (hh (l + 1) x hl)
    · rcases List.mem_cons.1 hm with rfl | hm
      · exact Secure.branchElse_iff.1 h
      · exact (lands_cons (by decide) (by decide)).1 (hj j hm)
  · rintro ⟨h, hh, hj⟩
    refine ⟨Secure.branchElse_iff.2 (hj (0, n) List.mem_cons_self), fun l x hl => ?_, fun j hm => ?_⟩
    · cases l with
      | zero =>
        cases hl
        exact (lands_mark_zero (by decide)).2 h
      | succ l => exact (lands_mark_succ (by decide)).2 (hh l x hl)
    · exact (lands_cons (by decide) (by decide)).2 (hj j (List.mem_cons_of_mem _ hm))

lemma ordered_branchEnd : Ordered empty n heights jumps (.branchEnd :: code) ↔
    (∀ j ∈ jumps, j.1 = 0 → j.2 = n) ∧
      Ordered false n heights ((jumps.filter fun j => j.1 ≠ 0).map fun j => (j.1 - 1, j.2)) code := by
  constructor
  · rintro ⟨h, hh, hj⟩
    have h := Secure.branchEnd_iff.1 h
    refine ⟨?_, h, fun k x hk => (lands_cons (by decide) (by decide)).1 (hh k x hk), ?_⟩
    · rintro ⟨_, m⟩ hm rfl
      exact ((lands_mark_zero (by decide)).1 (hj _ hm)).unique h
    · simp only [List.mem_map, List.mem_filter, decide_eq_true_eq]
      rintro _ ⟨⟨p, m⟩, ⟨hm, hp⟩, rfl⟩
      obtain ⟨p, rfl⟩ := Nat.exists_eq_succ_of_ne_zero hp
      exact (lands_mark_succ (by decide)).1 (hj _ hm)
  · rintro ⟨hz, h, hh, hj⟩
    refine ⟨.branchEnd h, fun k x hk => (lands_cons (by decide) (by decide)).2 (hh k x hk), ?_⟩
    rintro ⟨p, m⟩ hm
    cases p with
    | zero =>
      obtain rfl := hz _ hm rfl
      exact (lands_mark_zero (by decide)).2 h
    | succ p =>
      refine (lands_mark_succ (by decide)).2 (hj (p, m) ?_)
      exact List.mem_map.2 ⟨(p + 1, m), List.mem_filter.2 ⟨hm, by simp⟩, rfl⟩

lemma ordered_endExpr : Ordered empty n heights jumps (.endExpr :: code) ↔
    n = remains empty ∧ Ordered true 0 heights jumps code := by
  constructor
  · rintro ⟨h, hh, hj⟩
    obtain ⟨hn, h⟩ := Secure.endExpr_iff.1 h
    exact ⟨hn, h, fun k x hk => (lands_cons (by decide) (by decide)).1 (hh k x hk),
      fun j hm => (lands_cons (by decide) (by decide)).1 (hj j hm)⟩
  · rintro ⟨hn, h, hh, hj⟩
    exact ⟨Secure.endExpr_iff.2 ⟨hn, h⟩, fun k x hk => (lands_cons (by decide) (by decide)).2 (hh k x hk),
      fun j hm => (lands_cons (by decide) (by decide)).2 (hj j hm)⟩

lemma level_operation {i : Instruction} {a : Nat} (ha : i.arity? = some a) :
    level empty n heights jumps (i :: code) =
      (a ≤ n && level false (n - a + 1) heights jumps code) := by
  cases i <;> cases ha <;> rfl

lemma level_iff (hw : (surplus .branchIf .branchElse heights.length code).isSome = true) :
    level empty n heights jumps code = true ↔ Ordered empty n heights jumps code := by
  induction code generalizing empty n heights jumps with
  | nil => simp [level, ordered_nil]
  | cons i code ih =>
    cases ha : i.arity? with
    | some a =>
      rw [surplus_of_ne (Instruction.ne_of_arity ha rfl) (Instruction.ne_of_arity ha rfl)] at hw
      rw [level_operation ha, ordered_operation ha, ← ih hw, Bool.and_eq_true, decide_eq_true_eq]
    | none =>
      cases i with
      | branchIf =>
        rw [surplus_up] at hw
        cases n with
        | zero =>
          simp only [level, Bool.false_eq_true, false_iff]
          rintro ⟨h, -, -⟩
          obtain ⟨m, _, hm, _⟩ := Secure.branchIf_iff.1 h
          cases hm
        | succ n =>
          refine Iff.trans ?_ ordered_branchIf.symm
          exact ih hw
      | branchElse =>
        cases heights with
        | nil => cases hw
        | cons k heights =>
          rw [List.length_cons, surplus_down_succ (by decide)] at hw
          refine Iff.trans ?_ ordered_branchElse.symm
          exact ih hw
      | branchEnd =>
        rw [surplus_of_ne (by decide) (by decide)] at hw
        rw [ordered_branchEnd, ← ih hw, level, Bool.and_eq_true, List.all_eq_true]
        simp only [decide_eq_true_eq]
      | endExpr =>
        rw [surplus_of_ne (by decide) (by decide)] at hw
        rw [ordered_endExpr, ← ih hw, level, Bool.and_eq_true, decide_eq_true_eq]
      | _ => cases ha

end Ordered

lemma Program.isLevel_iff {p : Program} (hp : Matched p.body) :
    p.isLevel = true ↔ Secure true p.body 0 := by
  refine Iff.trans (level_iff ?_) ⟨fun h => h.secure, fun h => ⟨h, nofun, nofun⟩⟩
  rw [List.length_nil, hp.1, Option.isSome_some]

end FormulaCode
