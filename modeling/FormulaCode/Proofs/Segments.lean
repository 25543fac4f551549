import FormulaCode.Proofs.Jumps
import FormulaCode.Proofs.Outcome

namespace FormulaCode

section Counts

variable {up down : Instruction} {n m : Nat} {code start : List Instruction}

lemma count_of_surplus (hne : down ≠ up) (h : surplus up down n code = some m) :
    m + code.count down = n + code.count up := by
  induction code generalizing n with
  | nil =>
    cases h
    rfl
  | cons i code ih =>
    by_cases hu : i = up
    · rw [hu, surplus_up] at h
      have hc := ih h
      rw [hu, List.count_cons_self, List.count_cons_of_ne hne.symm]
      omega
    by_cases hd : i = down
    · rw [hd] at h
      cases n with
      | zero => cases (surplus_down_zero hne).symm.trans h
      | succ n =>
        rw [surplus_down_succ hne] at h
        have hc := ih h
        rw [hd, List.count_cons_self, List.count_cons_of_ne hne]
        omega
    · rw [surplus_of_ne hu hd] at h
      rw [List.count_cons_of_ne hd, List.count_cons_of_ne hu]
      exact ih h

lemma count_le_of_surplus (hne : down ≠ up) (h : surplus up down 0 code = some m)
    (hs : start <+: code) : start.count down ≤ start.count up := by
  obtain ⟨rest, rfl⟩ := hs
  obtain ⟨k, hk, -⟩ := Option.bind_eq_some_iff.1 ((surplus_append _ _).symm.trans h)
  have hc := count_of_surplus hne hk
  omega

end Counts

/-- Up to every point there are no more ends of branches than branches and no more branches than
conditions, and in all there are as many of each. -/
def Balanced (code : List Instruction) : Prop :=
  (∀ start, start <+: code → start.count .branchElse ≤ start.count .branchIf ∧
      start.count .branchEnd ≤ start.count .branchElse) ∧
    code.count .branchElse = code.count .branchIf ∧ code.count .branchEnd = code.count .branchElse

/-- Right behind a mark of the kind, which no end of an expression comes before, the code goes on. -/
def LandsInside (mark : Instruction) (code : List Instruction) : Prop :=
  ∃ inside after, code = inside ++ mark :: after ∧ .endExpr ∉ inside ∧ skipTo mark 0 code = some after

lemma Matched.balanced {code : List Instruction} (h : Matched code) : Balanced code := by
  refine ⟨fun start hs => ⟨?_, ?_⟩, ?_, ?_⟩
  · exact count_le_of_surplus (by decide) h.1 hs
  · exact count_le_of_surplus (by decide) h.2 hs
  · simpa using count_of_surplus (by decide) h.1
  · simpa using count_of_surplus (by decide) h.2

lemma skipTo_append {mark : Instruction} {n : Nat} {code target : List Instruction}
    (h : skipTo mark n code = some target) (rest : List Instruction) :
    skipTo mark n (code ++ rest) = some (target ++ rest) := by
  fun_induction skipTo mark n code with
  | case1 => cases h
  | case2 n code ih => rw [List.cons_append, skipTo_branchIf, ih h]
  | case3 code hm =>
    cases h
    rw [List.cons_append, skipTo_mark_zero hm]
  | case4 code n hm ih => rw [List.cons_append, skipTo_mark_succ hm, ih h]
  | case5 n i code hi hm ih => rw [List.cons_append, skipTo_cons_of_ne hi hm, ih h]

/-- The same search with a counter of 32 bits, which wraps around. -/
def skipToWord (mark : Instruction) : Int32 → List Instruction → Option (List Instruction)
  | _, [] => none
  | depth, i :: rest =>
    if i = .branchIf then skipToWord mark (depth + 1) rest
    else if i = mark then
      if depth = 0 then some rest else skipToWord mark (depth - 1) rest
    else skipToWord mark depth rest

lemma toInt_add_one {w : Int32} {n : Nat} (hw : w.toInt = n) (hn : n + 1 < 2 ^ 31) :
    (w + 1).toInt = (n + 1 : Nat) := by
  have hone : Int32.toInt 1 = 1 := rfl
  rw [Int32.toInt_add, hw, hone]
  exact Int.bmod_eq_of_le (by omega) (by omega)

lemma toInt_sub_one {w : Int32} {n : Nat} (hw : w.toInt = (n + 1 : Nat)) (hn : n + 1 < 2 ^ 31) :
    (w - 1).toInt = n := by
  have hone : Int32.toInt 1 = 1 := rfl
  rw [Int32.toInt_sub, hw, hone, Int.bmod_eq_of_le (by omega) (by omega)]
  omega

/-- The counter keeps the nesting as long as there are fewer than `2 ^ 31` conditionals. -/
lemma skipToWord_eq_skipTo {mark : Instruction} {n : Nat} {code : List Instruction} {w : Int32}
    (hw : w.toInt = n) (hn : n + code.count .branchIf < 2 ^ 31) :
    skipToWord mark w code = skipTo mark n code := by
  fun_induction skipTo mark n code generalizing w with
  | case1 => rfl
  | case2 n code ih =>
    rw [List.count_cons_self] at hn
    rw [skipToWord, if_pos rfl, ih (toInt_add_one hw (by omega)) (by omega)]
  | case3 code hm =>
    have hzero : w = 0 := Int32.toInt_inj.1 hw
    rw [skipToWord, if_neg hm, if_pos rfl, if_pos hzero]
  | case4 code n hm ih =>
    rw [List.count_cons_of_ne hm] at hn
    have hne : w ≠ 0 := by
      rintro rfl
      cases hw
    rw [skipToWord, if_neg hm, if_pos rfl, if_neg hne, ih (toInt_sub_one hw (by omega)) (by omega)]
  | case5 n i code hi hm ih =>
    rw [List.count_cons_of_ne hi] at hn
    rw [skipToWord, if_neg hi, if_neg hm, ih hw hn]
lemma landsInside_append {mark : Instruction} {code : List Instruction} (he : .endExpr ∉ code)
    (h : (skipTo mark 0 code).isSome = true) (rest : List Instruction) :
    LandsInside mark (code ++ rest) := by
  obtain ⟨target, ht⟩ := Option.isSome_iff_exists.1 h
  obtain ⟨inside, rfl⟩ := exists_of_skipTo ht
  refine ⟨inside, target ++ rest, by simp, ?_, skipTo_append ht rest⟩
  exact fun hi => he (List.mem_append_left _ hi)

lemma exists_segment {i : Instruction} {codes : List (List Instruction)} {passed code : List Instruction}
    (hi : i ≠ .endExpr) (h : joined codes = passed ++ i :: code) :
    ∃ c ∈ codes, ∃ before inside rest, c = before ++ i :: inside ∧ code = inside ++ rest := by
  induction codes generalizing passed with
  | nil => simp [joined] at h
  | cons c codes ih =>
    cases codes with
    | nil =>
      rw [joined_singleton] at h
      exact ⟨c, List.mem_cons_self, passed, code, [], h, (List.append_nil code).symm⟩
    | cons d codes =>
      rw [joined_cons_cons] at h
      rcases List.append_eq_append_iff.1 h with ⟨t, rfl, ht⟩ | ⟨t, rfl, ht⟩
      · cases t with
        | nil => exact absurd (List.cons.inj ht).1.symm hi
        | cons x t =>
          obtain ⟨b, hb, hrest⟩ := ih (List.cons.inj ht).2
          exact ⟨b, List.mem_cons_of_mem c hb, hrest⟩
      · cases t with
        | nil => exact absurd (List.cons.inj ht).1 hi
        | cons x t =>
          obtain ⟨rfl, rfl⟩ := List.cons.inj ht
          exact ⟨_, List.mem_cons_self, passed, t, _, rfl, rfl⟩

namespace Phrase

variable {policy : LiteralPolicy}

lemma endExpr_notMem_main (e : Phrase policy) : .endExpr ∉ e.main := by
  induction e with
  | atom a => cases a <;> simp [main, Atom.instruction]
  | apply f e ih => cases f <;> simp [main, Function.instruction, ih]
  | binary f l r ihl ihr => simp [main, ihl, ihr]
  | mark m l r ihl ihr => cases m <;> simp [main, Mark.instruction, ihl, ihr]
  | paren e ih => simp [main, ih]
  | pair a b iha ihb => simp [main, iha, ihb]

lemma endExpr_notMem_code (e : Phrase policy) : .endExpr ∉ e.code := by
  simp [code, endExpr_notMem_main]

end Phrase

section Compile

variable {o : Options} {expression : String} {p : Program}

lemma segments_of_compile (h : compile o expression = .program p) : ∃ codes, codes ≠ [] ∧
    p.body = joined codes ∧ ∀ c ∈ codes, Matched c ∧ .endExpr ∉ c := by
  obtain ⟨-, es, ha, rfl⟩ := accepted_of_compile h
  refine ⟨codesOf es, by simpa [codesOf] using ha.ne_nil, rfl, fun c hc => ?_⟩
  obtain ⟨e, he, rfl⟩ := List.mem_map.1 hc
  cases e with
  | none => exact ⟨⟨rfl, rfl⟩, List.not_mem_nil⟩
  | some e => exact ⟨Phrase.matched_code (ha.closed e he), e.endExpr_notMem_code⟩

/-- In a program of the compiler, the marks between two ends of expressions are balanced. A jump from a
condition lands behind the start of a branch, and a jump from there behind the end of a branch, of the same
expression. With fewer than `2 ^ 31` conditions, counting in 32 bits lands no jump elsewhere. -/
theorem compile_jumps_inside (h : compile o expression = .program p) :
    (∀ segment ∈ p.body.splitOn .endExpr, Balanced segment) ∧
      (∀ passed code, p.body = passed ++ .branchIf :: code → LandsInside .branchElse code) ∧
      (∀ passed code, p.body = passed ++ .branchElse :: code → LandsInside .branchEnd code) ∧
      (p.body.count .branchIf < 2 ^ 31 →
        ∀ mark passed code, p.body = passed ++ code → skipToWord mark 0 code = skipTo mark 0 code) := by
  obtain ⟨codes, hne, hp, hc⟩ := segments_of_compile h
  refine ⟨fun segment hs => ?_, fun passed code hb => ?_, fun passed code hb => ?_,
    fun hn mark passed code hb => ?_⟩
  · rw [hp, joined, List.splitOn_intercalate _ (fun c hm => (hc c hm).2) hne] at hs
    exact (hc segment hs).1.balanced
  · obtain ⟨c, hm, before, inside, rest, rfl, rfl⟩ := exists_segment (i := .branchIf) (by simp)
      (hp.symm.trans hb)
    obtain ⟨hmatch, he⟩ := hc _ hm
    exact landsInside_append (fun hi => he (by simp [hi])) hmatch.isSome_branchIf rest
  · obtain ⟨c, hm, before, inside, rest, rfl, rfl⟩ := exists_segment (i := .branchElse) (by simp)
      (hp.symm.trans hb)
    obtain ⟨hmatch, he⟩ := hc _ hm
    exact landsInside_append (fun hi => he (by simp [hi])) hmatch.isSome_branchElse rest
  · rw [hb, List.count_append] at hn
    exact skipToWord_eq_skipTo rfl (by omega)

theorem compile_jumps_inside_parenthesis : ∃ p, compile {} "A?MAX(B,C:D);(A?B):C;" = .program p ∧
    LandsInside .branchElse (p.body.drop 2) ∧ LandsInside .branchEnd (p.body.drop 5) ∧
      skipToWord .branchEnd 0 (p.body.drop 5) = skipTo .branchEnd 0 (p.body.drop 5) := by
  have hp : compile {} "A?MAX(B,C:D);(A?B):C;" = .program ⟨[.fetch 0, .branchIf, .fetch 1, .fetch 2,
      .branchElse, .fetch 3, .branchEnd, .binary .max, .endExpr, .fetch 0, .branchIf, .fetch 1,
      .branchElse, .fetch 2, .branchEnd, .endExpr]⟩ := by
    decide +kernel
  have h := compile_jumps_inside hp
  exact ⟨_, hp, h.2.1 [.fetch 0] _ rfl, h.2.2.1 [.fetch 0, .branchIf, .fetch 1, .fetch 2] _ rfl,
    h.2.2.2 (by decide) .branchEnd _ _ (List.take_append_drop 5 _).symm⟩

end Compile

end FormulaCode
