import FormulaCode.Proofs.SafePrograms
import FormulaCode.Proofs.Segments
import FormulaCode.Proofs.Sequence

/-! The program for two texts with a `;` between them runs as that for the first and then that for the
second, which is left nothing of the first but its value. -/

namespace FormulaCode

structure Grounded (code : List Instruction) : Prop where
  branchIf : ∀ passed rest, code = passed ++ .branchIf :: rest →
    (skipTo .branchElse 0 rest).isSome = true
  branchElse : ∀ passed rest, code = passed ++ .branchElse :: rest →
    (skipTo .branchEnd 0 rest).isSome = true

lemma Grounded.suffix {code target : List Instruction} (h : Grounded code) (hs : target <:+ code) :
    Grounded target := by
  obtain ⟨before, rfl⟩ := hs
  refine ⟨fun passed rest hp => ?_, fun passed rest hp => ?_⟩
  · exact h.branchIf (before ++ passed) rest (by rw [hp, List.append_assoc])
  · exact h.branchElse (before ++ passed) rest (by rw [hp, List.append_assoc])

lemma Matched.grounded {code : List Instruction} (h : Matched code) : Grounded code := by
  refine ⟨fun passed rest hp => ?_, fun passed rest hp => ?_⟩
  · exact (hp ▸ h : Matched _).isSome_branchIf
  · exact (hp ▸ h : Matched _).isSome_branchElse

lemma suffix_of_skipTo {mark : Instruction} {n : Nat} {code target : List Instruction}
    (h : skipTo mark n code = some target) : target <:+ code := by
  obtain ⟨skipped, rfl⟩ := exists_of_skipTo h
  exact ⟨skipped ++ [mark], by simp⟩

namespace Machine

variable {values : List Float}

lemma run_of_halt {m : Machine} {x : Float} (h : m.step values = .halt x) : m.run values = .ok x := by
  rw [run_eq, h]

lemma run_of_fault {m : Machine} {f : Fault} (h : m.step values = .fault f) : m.run values = .error f := by
  rw [run_eq, h]

lemma suffix_of_jump {m n : Machine} {mark : Instruction} (h : m.jump mark = .run n) :
    n.code <:+ m.code := by
  rw [jump] at h
  split at h
  · rename_i hs
    cases h
    exact suffix_of_skipTo hs
  · cases h

lemma suffix_of_step {m n : Machine} (h : m.step values = .run n) : n.code <:+ m.code := by
  obtain ⟨code, stack, result⟩ := m
  cases code with
  | nil => cases h
  | cons i code =>
    have hnext : code <:+ i :: code := List.suffix_cons i code
    cases i with
    | fetch v => cases h; exact hnext
    | literal x => cases h; exact hnext
    | constant c => cases h; exact hnext
    | unary f =>
      cases stack with
      | nil => cases h
      | cons a stack => cases h; exact hnext
    | binary f =>
      rcases stack with _ | ⟨b, _ | ⟨a, stack⟩⟩
      · cases h
      · cases h
      · simp only [step] at h
        split at h <;> cases h
        exact hnext
    | branchIf =>
      cases stack with
      | nil => cases h
      | cons a stack =>
        simp only [step] at h
        split at h
        · exact (suffix_of_jump h).trans hnext
        · cases h
          exact hnext
    | branchElse => exact (suffix_of_jump h).trans hnext
    | branchEnd => cases h; exact hnext
    | endExpr => cases h; exact hnext

section Followed

def followed (k : List Instruction) (m : Machine) : Machine := { m with code := m.code ++ .endExpr :: k }

def Next.followed (k : List Instruction) : Next → Next
  | .run m => .run (m.followed k)
  | .halt x => .run ⟨k, [], x⟩
  | .fault f => .fault f

variable (k : List Instruction)

lemma jump_followed {m : Machine} {mark : Instruction} (h : (skipTo mark 0 m.code).isSome = true) :
    (m.followed k).jump mark = (m.jump mark).followed k := by
  obtain ⟨target, ht⟩ := Option.isSome_iff_exists.1 h
  have hk : skipTo mark 0 (m.followed k).code = some (target ++ .endExpr :: k) := skipTo_append ht _
  simp only [jump, ht, hk]
  rfl

lemma step_followed (values : List Float) {m : Machine} (h : Grounded m.code) :
    (m.followed k).step values = (m.step values).followed k := by
  obtain ⟨code, stack, result⟩ := m
  cases code with
  | nil => rfl
  | cons i code =>
    cases i with
    | unary f => cases stack <;> rfl
    | binary f =>
      rcases stack with _ | ⟨b, _ | ⟨a, stack⟩⟩
      · rfl
      · rfl
      · simp only [followed, step, List.cons_append]
        cases f.apply a b <;> rfl
    | branchIf =>
      cases stack with
      | nil => rfl
      | cons a stack =>
        simp only [followed, step, List.cons_append]
        split
        · exact jump_followed k (m := ⟨code, stack, result⟩) (h.branchIf [] code rfl)
        · rfl
    | branchElse => exact jump_followed k (m := ⟨code, stack, result⟩) (h.branchElse [] code rfl)
    | _ => rfl

lemma run_followed {m : Machine} (h : Grounded m.code) :
    (m.followed k).run values = (do
      let x ← m.run values
      (Machine.mk k [] x).run values) := by
  fun_induction run values m with
  | case1 m n hs ih =>
    have hk : (m.followed k).step values = .run (n.followed k) := by rw [step_followed k values h, hs]; rfl
    rw [run_of_step hk, ih (h.suffix (suffix_of_step hs))]
  | case2 m x hs =>
    have hk : (m.followed k).step values = .run ⟨k, [], x⟩ := by rw [step_followed k values h, hs]; rfl
    exact run_of_step hk
  | case3 m f hs =>
    have hk : (m.followed k).step values = .fault f := by rw [step_followed k values h, hs]; rfl
    rw [run_of_fault hk]
    rfl

end Followed

section Result

inductive Carries (step : Float → Next) : Prop
  | fault (f : Fault) (h : ∀ r, step r = .fault f)
  | halt (x : Float) (h : ∀ r, step r = .halt x)
  | keep (h : ∀ r, step r = .halt r)
  | replace (m : Machine) (h : ∀ r, step r = .run m)
  | run (code : List Instruction) (stack : List Float) (h : ∀ r, step r = .run ⟨code, stack, r⟩)

lemma carries_jump (code : List Instruction) (stack : List Float) (mark : Instruction) :
    Carries fun r => jump ⟨code, stack, r⟩ mark := by
  cases ht : skipTo mark 0 code with
  | some target => exact .run target stack fun r => by simp only [jump, ht]
  | none => exact .keep fun r => by simp only [jump, ht]

lemma carries_step (values : List Float) (code : List Instruction) (stack : List Float) :
    Carries fun r => (Machine.mk code stack r).step values := by
  cases code with
  | nil =>
    cases stack with
    | nil => exact .keep fun _ => rfl
    | cons x stack => exact .halt x fun _ => rfl
  | cons i code =>
    cases i with
    | fetch v => exact .run code (values.getD v.val 0.0 :: stack) fun _ => rfl
    | literal x => exact .run code (x.toFloat :: stack) fun _ => rfl
    | constant c => exact .run code (c.value :: stack) fun _ => rfl
    | unary f =>
      cases stack with
      | nil => exact .fault .emptyStack fun _ => rfl
      | cons a stack => exact .run code (f.apply a :: stack) fun _ => rfl
    | binary f =>
      rcases stack with _ | ⟨b, _ | ⟨a, stack⟩⟩
      · exact .fault .emptyStack fun _ => rfl
      · exact .fault .emptyStack fun _ => rfl
      · cases hx : f.apply a b with
        | ok x => exact .run code (x :: stack) fun _ => by simp only [step, hx, push]
        | error e => exact .fault e fun _ => by simp only [step, hx]
    | branchIf =>
      cases stack with
      | nil => exact .fault .emptyStack fun _ => rfl
      | cons a stack =>
        by_cases ha : (a == 0.0) = true
        · simp only [step, ha, if_true]
          exact carries_jump code stack .branchElse
        · exact .run code stack fun _ => by simp only [step, ha]; rfl
    | branchElse => exact carries_jump code stack .branchEnd
    | branchEnd => exact .run code stack fun _ => rfl
    | endExpr =>
      cases stack with
      | nil => exact .run code [] fun _ => rfl
      | cons x stack => exact .replace ⟨code, [], x⟩ fun _ => rfl

/-- The value at the start comes out unchanged, or it has no bearing on what comes out. -/
def Passes (run : Float → Except Fault Float) : Prop :=
  (∃ f, ∀ r, run r = .error f) ∨ (∃ x, ∀ r, run r = .ok x) ∨ ∀ r, run r = .ok r

lemma passes_run (values : List Float) (code : List Instruction) (stack : List Float) :
    Passes fun r => (Machine.mk code stack r).run values := by
  induction hn : code.length using Nat.strong_induction_on generalizing code stack with
  | h n ih =>
    cases carries_step values code stack with
    | fault f h => exact .inl ⟨f, fun r => run_of_fault (h r)⟩
    | halt x h => exact .inr (.inl ⟨x, fun r => run_of_halt (h r)⟩)
    | keep h => exact .inr (.inr fun r => run_of_halt (h r))
    | replace m h =>
      cases hm : m.run values with
      | error f => exact .inl ⟨f, fun r => (run_of_step (h r)).trans hm⟩
      | ok x => exact .inr (.inl ⟨x, fun r => (run_of_step (h r)).trans hm⟩)
    | run target rest h =>
      have hlt : target.length < code.length := length_of_step (h 0.0)
      have hnext := ih target.length (hn ▸ hlt) target rest rfl
      have heq : (fun r => (Machine.mk code stack r).run values) =
          fun r => (Machine.mk target rest r).run values := funext fun r => run_of_step (h r)
      rwa [heq]

lemma Passes.fault_iff {run : Float → Except Fault Float} (h : Passes run) (r r' : Float) :
    (∃ f, run r = .error f) ↔ ∃ f, run r' = .error f := by
  rcases h with ⟨f, h⟩ | ⟨x, h⟩ | h
  · exact ⟨fun _ => ⟨f, h r'⟩, fun _ => ⟨f, h r⟩⟩
  · simp [h]
  · simp [h]

end Result

end Machine

/-- The value of a program when that of the last expression before it is given. -/
def Program.evaluateAfter (p : Program) (result : Float) (values : List Float) : Except Fault Float :=
  ({ code := p.body, result : Machine }).run values

section Compile

variable {o : Options} {e₁ e₂ : String} {p₁ p₂ : Program}

lemma evaluate_joined (h : compile o e₁ = .program p₁) (k : List Instruction) (values : List Float) :
    Program.evaluate ⟨p₁.body ++ .endExpr :: k⟩ values = (do
      let x ← p₁.evaluate values
      Program.evaluateAfter ⟨k⟩ x values) :=
  Machine.run_followed k (m := { code := p₁.body }) (matched_of_compile h).grounded

/-- The program for two texts with a `;` between them faults where that for one of them faults, and otherwise
has the value that the second has after that of the first. The value of the first can only be that of the
whole, or else it has no bearing on what comes out of the second. -/
theorem evaluate_semicolon (h₁ : compile o e₁ = .program p₁) (h₂ : compile o e₂ = .program p₂) :
    ∃ p, compile o (e₁ ++ ";" ++ e₂) = .program p ∧ ∀ values,
      ((∃ f, p.evaluate values = .error f) ↔
        (∃ f, p₁.evaluate values = .error f) ∨ ∃ f, p₂.evaluate values = .error f) ∧
      p.evaluate values = (do
        let x ← p₁.evaluate values
        p₂.evaluateAfter x values) ∧
      Machine.Passes fun x => p₂.evaluateAfter x values := by
  refine ⟨_, compile_semicolon_of_programs h₁ h₂, fun values => ?_⟩
  have hj := evaluate_joined h₁ p₂.body values
  have hp := Machine.passes_run values p₂.body []
  refine ⟨?_, hj, hp⟩
  rw [hj]
  cases hv : p₁.evaluate values with
  | error f => exact ⟨fun _ => .inl ⟨f, rfl⟩, fun _ => ⟨f, rfl⟩⟩
  | ok x =>
    have hiff := hp.fault_iff x 0.0
    refine hiff.trans ⟨.inr, ?_⟩
    rintro (⟨f, hf⟩ | hf)
    · cases hf
    · exact hf

theorem evaluate_semicolon_skipped : ∃ p₁ p₂ p, compile {} "A?MAX(B,C:D)" = .program p₁ ∧
    compile {} ";B?C:D;" = .program p₂ ∧ compile {} ("A?MAX(B,C:D)" ++ ";" ++ ";B?C:D;") = .program p ∧
      ∀ values, p.evaluate values = (do
        let x ← p₁.evaluate values
        p₂.evaluateAfter x values) := by
  have h₁ : compile {} "A?MAX(B,C:D)" = .program ⟨[.fetch 0, .branchIf, .fetch 1, .fetch 2, .branchElse,
      .fetch 3, .branchEnd, .binary .max]⟩ := by
    decide +kernel
  have h₂ : compile {} ";B?C:D;" = .program ⟨[.endExpr, .fetch 1, .branchIf, .fetch 2, .branchElse, .fetch 3,
      .branchEnd, .endExpr]⟩ := by
    decide +kernel
  obtain ⟨p, hp, h⟩ := evaluate_semicolon h₁ h₂
  exact ⟨_, _, p, h₁, h₂, hp, fun values => (h values).2.1⟩

end Compile

end FormulaCode
