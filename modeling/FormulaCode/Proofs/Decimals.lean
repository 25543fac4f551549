import FormulaCode.Proofs.Rounding
import FormulaCode.Double.Text
import FormulaCode.Text.Offset

namespace FormulaCode.Double

variable {x y : Double}

-- The text of a decimal gives back its digits, and the point tells how many of them are behind it.

def fractionOf (cs : List Char) : Nat × Nat :=
  (Nat.ofDigitChars 10 (cs.filter (· != '.')) 0, 10 ^ (cs.dropWhile (· != '.')).tail.length)

lemma isDigit_of_mem {n : Nat} {c : Char} (h : c ∈ Nat.toDigits 10 n) : c.isDigit = true :=
  Nat.isDigit_of_mem_toDigits (by decide) le_rfl h

lemma ne_point_of_isDigit {c : Char} (h : c.isDigit = true) : (c != '.') = true := by
  rw [bne_iff_ne]
  rintro rfl
  cases h

lemma fractionOf_append_point {whole rest : List Char} (hw : ∀ c ∈ whole, c.isDigit = true)
    (hr : ∀ c ∈ rest, c.isDigit = true) :
    fractionOf (whole ++ '.' :: rest) = (Nat.ofDigitChars 10 (whole ++ rest) 0, 10 ^ rest.length) := by
  have hw' : ∀ c ∈ whole, (c != '.') = true := fun c hc => ne_point_of_isDigit (hw c hc)
  have hr' : ∀ c ∈ rest, (c != '.') = true := fun c hc => ne_point_of_isDigit (hr c hc)
  simp [fractionOf, List.dropWhile_append_of_pos hw', List.filter_eq_self.2 hw', List.filter_eq_self.2 hr']

lemma fractionOf_whole {whole : List Char} (hw : ∀ c ∈ whole, c.isDigit = true) :
    fractionOf whole = (Nat.ofDigitChars 10 whole 0, 1) := by
  have hw' : ∀ c ∈ whole, (c != '.') = true := fun c hc => ne_point_of_isDigit (hw c hc)
  simp [fractionOf, List.dropWhile_eq_nil_iff.2 hw', List.filter_eq_self.2 hw']

lemma fractionOf_positional (d : Decimal) :
    fractionOf (positional (Nat.toDigits 10 d.digits) d.exponent []) = d.fraction := by
  have hdigits : ∀ c ∈ Nat.toDigits 10 d.digits, c.isDigit = true := fun c => isDigit_of_mem
  have hzeros (n : Nat) : ∀ c ∈ List.replicate n '0', c.isDigit = true := by simp +decide
  have hvalue : Nat.ofDigitChars 10 (Nat.toDigits 10 d.digits) 0 = d.digits :=
    Nat.ofDigitChars_toDigits (by decide) le_rfl
  simp only [positional, List.append_nil, Decimal.fraction]
  split_ifs with hk hwhole
  · have hneg : (-d.exponent).toNat = 0 := by omega
    rw [fractionOf_whole (List.forall_mem_append.2 ⟨hdigits, hzeros _⟩), Nat.ofDigitChars_append, hvalue,
      Nat.ofDigitChars_replicate_zero, hneg, pow_zero, Nat.mul_comm]
  · have hpos : d.exponent.toNat = 0 := by omega
    rw [fractionOf_append_point (fun c hc => hdigits c (List.mem_of_mem_take hc))
      (fun c hc => hdigits c (List.mem_of_mem_drop hc)), List.take_append_drop, hvalue, hpos, pow_zero,
      Nat.mul_one, List.length_drop]
    congr 2
    omega
  · have hpos : d.exponent.toNat = 0 := by omega
    have hrest : ∀ c ∈ List.replicate (-(((Nat.toDigits 10 d.digits).length : Int) + d.exponent)).toNat '0' ++
        Nat.toDigits 10 d.digits, c.isDigit = true := List.forall_mem_append.2 ⟨hzeros _, hdigits⟩
    have hfront := fractionOf_append_point (hzeros 1) hrest
    rw [List.replicate_one, List.singleton_append] at hfront
    rw [List.cons_append, List.cons_append, hfront, List.singleton_append, Nat.ofDigitChars_cons,
      Nat.ofDigitChars_append, Nat.ofDigitChars_replicate_zero, hpos, pow_zero, Nat.mul_one,
      List.length_append, List.length_replicate]
    have hzero : 10 * 0 + ('0'.toNat - '0'.toNat) = 0 := rfl
    rw [hzero, Nat.mul_zero, hvalue]
    congr 2
    omega

def isMark (c : Char) : Bool := c.isDigit || c == '.'

lemma isMark_positional {mark : List Char} (hm : ∀ c ∈ mark, isMark c = true) (n : Nat) (k : Int) :
    ∀ c ∈ positional (Nat.toDigits 10 n) k mark, isMark c = true := by
  have hdigits : ∀ c ∈ Nat.toDigits 10 n, isMark c = true := fun c hc => by simp [isMark, isDigit_of_mem hc]
  have hzeros (j : Nat) : ∀ c ∈ List.replicate j '0', isMark c = true := by simp +decide
  simp only [positional]
  split_ifs
  · exact List.forall_mem_append.2 ⟨List.forall_mem_append.2 ⟨hdigits, hzeros _⟩, hm⟩
  · exact List.forall_mem_append.2 ⟨fun c hc => hdigits c (List.mem_of_mem_take hc),
      List.forall_mem_cons.2 ⟨by decide, fun c hc => hdigits c (List.mem_of_mem_drop hc)⟩⟩
  · exact List.forall_mem_append.2
      ⟨List.forall_mem_cons.2 ⟨by decide, List.forall_mem_cons.2 ⟨by decide, hzeros _⟩⟩, hdigits⟩

def unsigned (x : Double) : List Char :=
  if x.isInfinite then "inf".toList
  else positional (Nat.toDigits 10 (x.shortest .up).digits) (x.shortest .up).exponent []

lemma display_of_number (h : x.isNaN = false) : x.display.toList =
    if x.negative then '-' :: x.unsigned else x.unsigned := by
  rw [display, if_neg (by simp [h]), unsigned, signed]
  split_ifs <;> simp [signed, *]

lemma mem_unsigned {c : Char} (h : c ∈ x.unsigned) : isMark c = true ∨ c ∈ "inf".toList := by
  rw [unsigned] at h
  split_ifs at h
  · exact .inr h
  · exact .inl (isMark_positional (List.forall_mem_nil _) _ _ c h)

lemma place_eq_of_unsigned (h : x.unsigned = y.unsigned) : x.place = y.place := by
  have hi : 'i' ∈ "inf".toList := by decide
  have hletter (n : Nat) (k : Int) : 'i' ∉ positional (Nat.toDigits 10 n) k [] := fun hmem =>
    absurd (isMark_positional (List.forall_mem_nil _) n k 'i' hmem) (by decide)
  have hinf {z : Double} (hz : z.isInfinite = true) : z.place = 2047 * 2 ^ 52 := by
    rw [isInfinite, Bool.and_eq_true_iff, beq_iff_eq, beq_iff_eq] at hz
    rw [place, hz.1, hz.2, Nat.add_zero]
  rw [unsigned, unsigned] at h
  split_ifs at h with hx hy hy
  · rw [hinf hx, hinf hy]
  · exact absurd (h ▸ hi) (hletter _ _)
  · exact absurd (h.symm ▸ hi) (hletter _ _)
  · have hs : (x.shortest .up).fraction = (y.shortest .up).fraction := by
      rw [← fractionOf_positional, ← fractionOf_positional, h]
    exact place_eq_of_shortest hs

lemma minus_notMem_unsigned (x : Double) : '-' ∉ x.unsigned := fun h =>
  (mem_unsigned h).elim (by decide) (by decide)

lemma eq_of_display (hx : x.isNaN = false) (hy : y.isNaN = false) (h : x.display = y.display) : x = y := by
  have hlist := congrArg String.toList h
  rw [display_of_number hx, display_of_number hy] at hlist
  split_ifs at hlist with hxs hys hys
  · exact eq_of_place (by rw [hxs, hys]) (place_eq_of_unsigned (List.cons.inj hlist).2)
  · exact absurd (hlist ▸ List.mem_cons_self) y.minus_notMem_unsigned
  · exact absurd (hlist ▸ List.mem_cons_self) x.minus_notMem_unsigned
  · rw [Bool.not_eq_true] at hxs hys
    exact eq_of_place (by rw [hxs, hys]) (place_eq_of_unsigned hlist)

lemma display_of_isNaN (h : x.isNaN = true) : x.display = "NaN" := if_pos h

lemma display_ne_of_number (h : x.isNaN = false) : x.display ≠ "NaN" := by
  intro hd
  have hN : 'N' ∈ x.display.toList := by rw [hd]; decide
  have hmem : 'N' ∈ x.unsigned := by
    rw [display_of_number h] at hN
    split_ifs at hN
    · exact (List.mem_cons.1 hN).resolve_left (by decide)
    · exact hN
  exact (mem_unsigned hmem).elim (by decide) (by decide)

lemma display_eq_iff : x.display = y.display ↔ x = y ∨ x.isNaN = true ∧ y.isNaN = true := by
  constructor
  · intro h
    cases hx : x.isNaN with
    | false =>
      cases hy : y.isNaN with
      | false => exact .inl (eq_of_display hx hy h)
      | true => exact absurd (h.trans (display_of_isNaN hy)) (display_ne_of_number hx)
    | true =>
      cases hy : y.isNaN with
      | false => exact absurd (h.symm.trans (display_of_isNaN hx)) (display_ne_of_number hy)
      | true => exact .inr ⟨rfl, rfl⟩
  · rintro (rfl | ⟨hx, hy⟩)
    · rfl
    · rw [display_of_isNaN hx, display_of_isNaN hy]

lemma isBlank_of_mem_display {c : Char} (h : c ∈ x.display.toList) : Text.isBlank c = false := by
  rw [Bool.eq_false_iff]
  intro hb
  have hsolid : isMark c = false ∧ c ∉ "inf".toList ∧ c ≠ '-' ∧ c ∉ "NaN".toList := by
    simp only [Text.isBlank, Bool.or_eq_true, beq_iff_eq] at hb
    rcases hb with (((rfl | rfl) | rfl) | rfl) | rfl <;> decide
  obtain ⟨hmark, hinf, hminus, hnan⟩ := hsolid
  have hmem : c ∉ x.unsigned := fun hu => (mem_unsigned hu).elim (by simp [hmark]) hinf
  cases hx : x.isNaN with
  | true =>
    rw [display_of_isNaN hx] at h
    exact hnan h
  | false =>
    rw [display_of_number hx] at h
    split_ifs at h
    · exact hmem ((List.mem_cons.1 h).resolve_left hminus)
    · exact hmem h

end FormulaCode.Double
