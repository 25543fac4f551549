import FormulaCode.Proofs.Accepted
import FormulaCode.Proofs.StackSafety

/-! In the code of accepted expressions each mark of a branch follows the mark it belongs to, so that
every jump has somewhere to go. -/

namespace FormulaCode

/-- How often `up` stands in some code beyond `down`, counted from a number on, unless `down` comes too
early at some point. -/
def surplus (up down : Instruction) (n : Nat) : List Instruction → Option Nat
  | [] => some n
  | i :: code =>
    if i = up then surplus up down (n + 1) code
    else if i = down then (if n = 0 then none else surplus up down (n - 1) code)
    else surplus up down n code

section Surplus

variable {up down i : Instruction} {n : Nat} {code : List Instruction}

lemma surplus_up : surplus up down n (up :: code) = surplus up down (n + 1) code := by
  simp [surplus]

lemma surplus_down_zero (h : down ≠ up) : surplus up down 0 (down :: code) = none := by
  simp [surplus, h]

lemma surplus_down_succ (h : down ≠ up) :
    surplus up down (n + 1) (down :: code) = surplus up down n code := by
  simp [surplus, h]

lemma surplus_of_ne (hu : i ≠ up) (hd : i ≠ down) :
    surplus up down n (i :: code) = surplus up down n code := by
  simp [surplus, hu, hd]

lemma surplus_append (is js : List Instruction) :
    surplus up down n (is ++ js) = (surplus up down n is).bind (surplus up down · js) := by
  induction is generalizing n with
  | nil => rfl
  | cons i is ih =>
    simp only [List.cons_append, surplus]
    split_ifs <;> simp [ih]

lemma surplus_replicate (m : Nat) (hu : i ≠ up) (hd : i ≠ down) :
    surplus up down n (List.replicate m i) = some n := by
  induction m with
  | zero => rfl
  | succ m ih => rw [List.replicate_succ, surplus_of_ne hu hd, ih]

lemma surplus_replicate_down (h : down ≠ up) (m : Nat) :
    surplus up down (n + m) (List.replicate m down) = some n := by
  induction m with
  | zero => rfl
  | succ m ih => rw [List.replicate_succ, ← Nat.add_assoc, surplus_down_succ h, ih]

end Surplus

section Landing

variable {code : List Instruction}

lemma isSome_skipTo_branchElse {n : Nat} (h : surplus .branchIf .branchElse n code = some 0) {i : Nat}
    (hi : i < n) : (skipTo .branchElse i code).isSome = true := by
  induction code generalizing n i with
  | nil =>
    cases h
    exact absurd hi (Nat.not_lt_zero i)
  | cons x code ih =>
    by_cases hx : x = .branchIf
    · rw [hx, surplus_up] at h
      rw [hx, skipTo_branchIf]
      exact ih h (Nat.succ_lt_succ hi)
    by_cases hy : x = .branchElse
    · obtain ⟨n, rfl⟩ := Nat.exists_eq_succ_of_ne_zero (Nat.ne_zero_of_lt hi)
      rw [hy, surplus_down_succ (by decide)] at h
      rw [hy]
      cases i with
      | zero => rw [skipTo_mark_zero (by decide), Option.isSome_some]
      | succ i =>
        rw [skipTo_mark_succ (by decide)]
        exact ih h (Nat.lt_of_succ_lt_succ hi)
    · rw [surplus_of_ne hx hy] at h
      rw [skipTo_cons_of_ne hx hy]
      exact ih h hi

lemma isSome_skipTo_branchEnd {m n : Nat} (hm : surplus .branchIf .branchElse m code = some 0)
    (hn : surplus .branchElse .branchEnd n code = some 0) {i : Nat} (hi : i < m + n) :
    (skipTo .branchEnd i code).isSome = true := by
  induction code generalizing m n i with
  | nil =>
    cases hm
    cases hn
    exact absurd hi (Nat.not_lt_zero i)
  | cons x code ih =>
    by_cases hx : x = .branchIf
    · rw [hx, surplus_up] at hm
      rw [hx, surplus_of_ne (by decide) (by decide)] at hn
      rw [hx, skipTo_branchIf]
      exact ih hm hn (by omega)
    by_cases hy : x = .branchElse
    · rw [hy, surplus_up] at hn
      rw [hy] at hm
      rw [hy, skipTo_cons_of_ne (by decide) (by decide)]
      cases m with
      | zero => cases (surplus_down_zero (by decide)).symm.trans hm
      | succ m =>
        rw [surplus_down_succ (by decide)] at hm
        exact ih hm hn (by omega)
    by_cases hz : x = .branchEnd
    · rw [hz, surplus_of_ne (by decide) (by decide)] at hm
      rw [hz] at hn ⊢
      cases n with
      | zero => cases (surplus_down_zero (by decide)).symm.trans hn
      | succ n =>
        rw [surplus_down_succ (by decide)] at hn
        cases i with
        | zero => rw [skipTo_mark_zero (by decide), Option.isSome_some]
        | succ i =>
          rw [skipTo_mark_succ (by decide)]
          exact ih hm hn (by omega)
    · rw [surplus_of_ne hx hy] at hm
      rw [surplus_of_ne hy hz] at hn
      rw [skipTo_cons_of_ne hx hz]
      exact ih hm hn hi

end Landing

namespace Phrase

variable {policy : LiteralPolicy}

lemma arity_atom (a : Atom policy) : a.instruction.arity? = some 0 := by
  cases a <;> rfl

lemma arity_function (f : Function) : f.instruction.arity? = some f.arity := by
  cases f <;> rfl

section Operation

variable {up down i : Instruction} {a n : Nat} (ha : i.arity? = some a) (hu : up.arity? = none)
  (hd : down.arity? = none)

include ha hu hd

lemma surplus_operation : surplus up down n [i] = some n :=
  surplus_of_ne (Instruction.ne_of_arity ha hu) (Instruction.ne_of_arity ha hd)

lemma surplus_append_operation (code : List Instruction) :
    surplus up down n (code ++ [i]) = surplus up down n code := by
  rw [surplus_append]
  have hi : (surplus up down · [i]) = some := funext fun n => surplus_operation ha hu hd
  rw [hi, Option.bind_fun_some]

end Operation

lemma surplus_append_ends (m n : Nat) (code : List Instruction) :
    surplus .branchIf .branchElse n (code ++ List.replicate m .branchEnd) =
      surplus .branchIf .branchElse n code := by
  rw [surplus_append]
  have hi : (surplus .branchIf .branchElse · (List.replicate m .branchEnd)) = some :=
    funext fun n => surplus_replicate m (by decide) (by decide)
  rw [hi, Option.bind_fun_some]

lemma surplus_branchIf (e : Phrase policy) (n : Nat) :
    surplus .branchIf .branchElse n e.main = waitAfter n e.words := by
  induction e generalizing n with
  | atom a => exact surplus_operation (arity_atom a) rfl rfl
  | apply f e ih =>
    rw [main, surplus_append_operation (arity_function f) rfl rfl, ih, words, waitAfter_cons, f.wait_word,
      Option.bind_some]
  | binary f l r ihl ihr =>
    rw [main, surplus_append_operation rfl rfl rfl, surplus_append, ihl, words, waitAfter_append]
    congr 1
    funext m
    rw [ihr, waitAfter_cons, f.wait_word, Option.bind_some]
  | mark m l r ihl ihr =>
    rw [main, surplus_append, ihl, words, waitAfter_append]
    congr 1
    funext k
    rw [waitAfter_cons]
    cases m with
    | question => rw [Mark.instruction, surplus_up, ihr]; rfl
    | colon =>
      cases k with
      | zero => rfl
      | succ k => rw [Mark.instruction, surplus_down_succ (by decide), ihr]; rfl
  | paren e ih =>
    rw [main, surplus_append_ends, ih, words, List.cons_append, waitAfter_openParen, waitAfter_append]
    exact (Option.bind_fun_some _).symm
  | pair a b iha ihb =>
    rw [main, surplus_append, surplus_append_ends, iha, words, List.append_assoc, List.cons_append,
      waitAfter_openParen, waitAfter_append]
    congr 1
    funext k
    rw [surplus_append_ends, ihb, List.cons_append, waitAfter_separator, waitAfter_append]
    exact (Option.bind_fun_some _).symm

lemma surplus_branchElse (e : Phrase policy) (he : e.Formed) (n : Nat) :
    surplus .branchElse .branchEnd n e.main = some (n + e.ends) := by
  induction e generalizing n with
  | atom a => exact surplus_operation (arity_atom a) rfl rfl
  | apply f e ih =>
    obtain ⟨he, hr, -⟩ := he
    rw [main, surplus_append_operation (arity_function f) rfl rfl, ih he, e.ends_eq_zero (by omega)]
    rfl
  | binary f l r ihl ihr =>
    obtain ⟨hl, hr, hpl, hpr, -⟩ := he
    have hp := f.priority_pos
    rw [main, surplus_append_operation rfl rfl rfl, surplus_append, ihl hl, Option.bind_some, ihr hr,
      l.ends_eq_zero (by omega), r.ends_eq_zero (by omega)]
    rfl
  | mark m l r ihl ihr =>
    obtain ⟨hl, hr, hp, -⟩ := he
    rw [main, surplus_append, ihl hl, Option.bind_some, ends]
    cases m with
    | question =>
      rw [Mark.instruction, surplus_of_ne (by decide) (by decide), ihr hr, r.ends_eq_zero hp]
      rfl
    | colon =>
      rw [Mark.instruction, surplus_up, ihr hr, r.ends_eq_zero hp]
      rfl
  | paren e ih =>
    rw [main, surplus_append, ih he.1, Option.bind_some, surplus_replicate_down (by decide)]
    rfl
  | pair a b iha ihb =>
    rw [main, surplus_append, surplus_append, iha he.1.1, Option.bind_some,
      surplus_replicate_down (by decide), Option.bind_some, surplus_append, ihb he.2.1, Option.bind_some,
      surplus_replicate_down (by decide)]
    rfl

end Phrase

def Matched (code : List Instruction) : Prop :=
  surplus .branchIf .branchElse 0 code = some 0 ∧ surplus .branchElse .branchEnd 0 code = some 0

namespace Matched

variable {passed code rest : List Instruction}

lemma append_endExpr (hc : Matched code) (hr : Matched rest) : Matched (code ++ .endExpr :: rest) := by
  refine ⟨?_, ?_⟩
  · rw [surplus_append, hc.1, Option.bind_some, surplus_of_ne (by decide) (by decide), hr.1]
  · rw [surplus_append, hc.2, Option.bind_some, surplus_of_ne (by decide) (by decide), hr.2]

lemma joined {codes : List (List Instruction)} (h : ∀ c ∈ codes, Matched c) : Matched (joined codes) := by
  induction codes with
  | nil => exact ⟨rfl, rfl⟩
  | cons c codes ih =>
    obtain ⟨hc, hcodes⟩ := List.forall_mem_cons.1 h
    cases codes with
    | nil => rwa [joined_singleton]
    | cons d codes =>
      rw [joined_cons_cons]
      exact hc.append_endExpr (ih hcodes)

lemma isSome_branchIf (h : Matched (passed ++ .branchIf :: code)) :
    (skipTo .branchElse 0 code).isSome = true := by
  obtain ⟨n, -, hn⟩ := Option.bind_eq_some_iff.1 ((surplus_append _ _).symm.trans h.1)
  rw [surplus_up] at hn
  exact isSome_skipTo_branchElse hn n.succ_pos

lemma isSome_branchElse (h : Matched (passed ++ .branchElse :: code)) :
    (skipTo .branchEnd 0 code).isSome = true := by
  obtain ⟨m, -, hm⟩ := Option.bind_eq_some_iff.1 ((surplus_append _ _).symm.trans h.1)
  obtain ⟨n, -, hn⟩ := Option.bind_eq_some_iff.1 ((surplus_append _ _).symm.trans h.2)
  rw [surplus_up] at hn
  cases m with
  | zero => cases (surplus_down_zero (by decide)).symm.trans hm
  | succ m =>
    rw [surplus_down_succ (by decide)] at hm
    exact isSome_skipTo_branchEnd hm hn (Nat.add_pos_right m n.succ_pos)

end Matched

lemma Phrase.matched_code {policy : LiteralPolicy} {e : Phrase policy} (h : e.Closed) :
    Matched e.code := by
  refine ⟨?_, ?_⟩
  · rw [code, surplus_append_ends, surplus_branchIf, h.2]
  · rw [code, surplus_append, surplus_branchElse e h.1.1, Option.bind_some,
      surplus_replicate_down (by decide)]

lemma Accepted.matched {policy : LiteralPolicy} {symbols : List Symbol}
    {es : List (Option (Phrase policy))} (h : Accepted policy symbols es) :
    Matched (joined (codesOf es)) := by
  refine Matched.joined fun c hc => ?_
  obtain ⟨e, he, rfl⟩ := List.mem_map.1 hc
  cases e with
  | none => exact ⟨rfl, rfl⟩
  | some e => exact Phrase.matched_code (h.closed e he)

end FormulaCode
