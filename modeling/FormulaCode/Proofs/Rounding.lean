import Mathlib
import FormulaCode.Double.Shortest

/-! The shortest decimal of a double is among the numbers that round to it, and no number rounds to two
doubles. -/

namespace FormulaCode

namespace Double

variable {x y : Double}

/-- The place of a double among all of its sign, by magnitude. -/
def place (x : Double) : Nat := x.exponentField * 2 ^ 52 + x.fractionField

lemma fields (x : Double) : x.exponentField = x.bits.toNat / 2 ^ 52 % 2 ^ 11 ∧
    x.fractionField = x.bits.toNat % 2 ^ 52 := ⟨rfl, rfl⟩

lemma fractionField_lt (x : Double) : x.fractionField < 2 ^ 52 := Nat.mod_lt _ (by decide)

lemma place_eq (x : Double) : x.place = x.bits.toNat % 2 ^ 63 := by
  obtain ⟨he, hf⟩ := x.fields
  rw [place, he, hf]
  omega

lemma eq_of_place (hs : x.negative = y.negative) (hp : x.place = y.place) : x = y := by
  have hx := x.bits.toNat_lt
  have hy := y.bits.toNat_lt
  have h63 : Nat.pow 2 63 = 2 ^ 63 := rfl
  rw [place_eq, place_eq] at hp
  rw [negative, negative, h63, decide_eq_decide] at hs
  have hbits : x.bits = y.bits := UInt64.toNat_inj.1 (by omega)
  cases x
  cases y
  exact congrArg mk hbits

lemma div_place (x : Double) : x.place / 2 ^ 52 = x.exponentField := by
  have hf := x.fractionField_lt
  rw [place]
  omega

lemma mod_place (x : Double) : x.place % 2 ^ 52 = x.fractionField := by
  have hf := x.fractionField_lt
  rw [place]
  omega

/-- The magnitude at a place, counted in the least one that is not zero. -/
def units (b : Nat) : Nat :=
  match b / 2 ^ 52 with
  | 0 => b % 2 ^ 52
  | e + 1 => (2 ^ 52 + b % 2 ^ 52) * 2 ^ e

lemma units_succ (b : Nat) : units (b + 1) = units b + 2 ^ (b / 2 ^ 52 - 1) := by
  have hlt : b % 2 ^ 52 < 2 ^ 52 := Nat.mod_lt _ (by decide)
  by_cases hcarry : b % 2 ^ 52 + 1 = 2 ^ 52
  · -- the next magnitude has a greater exponent
    have hd : (b + 1) / 2 ^ 52 = b / 2 ^ 52 + 1 := by omega
    have hm : (b + 1) % 2 ^ 52 = 0 := by omega
    have hf : b % 2 ^ 52 = 2 ^ 52 - 1 := by omega
    cases he : b / 2 ^ 52 with
    | zero =>
      simp only [units, hd, hm, hf, he]
      norm_num
    | succ e =>
      simp only [units, hd, hm, hf, he, pow_succ 2 e, Nat.add_sub_cancel]
      ring
  · have hd : (b + 1) / 2 ^ 52 = b / 2 ^ 52 := by omega
    have hm : (b + 1) % 2 ^ 52 = b % 2 ^ 52 + 1 := by omega
    cases he : b / 2 ^ 52 with
    | zero =>
      simp only [units, hd, hm, he]
      norm_num
    | succ e =>
      simp only [units, hd, hm, he, Nat.add_sub_cancel]
      ring

lemma units_strictMono : StrictMono units :=
  strictMono_nat_of_lt_succ fun b => by
    rw [units_succ]
    exact Nat.lt_add_of_pos_right (Nat.two_pow_pos _)

def significand (x : Double) : Nat :=
  if x.exponentField = 0 then x.fractionField else 2 ^ 52 + x.fractionField

lemma units_place (x : Double) : units x.place = x.significand * 2 ^ (x.exponentField - 1) := by
  rw [units.eq_def, div_place, mod_place, significand]
  cases x.exponentField with
  | zero => simp
  | succ e => simp

def reach (x : Double) : Nat := if x.fractionField = 0 ∧ 1 < x.exponentField then 1 else 2

lemma interval_eq (x : Double) : x.interval =
    ⟨(4 * x.significand - x.reach) * 2 ^ (x.exponentField - 1 - 1076),
      4 * x.significand * 2 ^ (x.exponentField - 1 - 1076),
      (4 * x.significand + 2) * 2 ^ (x.exponentField - 1 - 1076),
      2 ^ (1076 - (x.exponentField - 1)), x.place % 2 == 0⟩ := by
  have hm : (if x.exponentField != 0 then Nat.pow 2 52 + x.fractionField else x.fractionField) =
      x.significand := by
    by_cases he : x.exponentField = 0 <;> simp [significand, he]
  have hb : (if x.fractionField == 0 && decide (1 < x.exponentField) then 1 else 2) = x.reach := by
    by_cases hf : x.fractionField = 0 <;> by_cases he : 1 < x.exponentField <;> simp [reach, hf, he]
  have hq : (if x.exponentField != 0 then (x.exponentField : Int) else 1) =
      (x.exponentField - 1 : Nat) + 1 := by
    rcases Nat.eq_zero_or_pos x.exponentField with he | he
    · simp [he]
    · rw [if_pos (by simpa using he.ne')]
      omega
  have hpos : (((x.exponentField - 1 : Nat) : Int) + 1 - 1077).toNat = x.exponentField - 1 - 1076 := by omega
  have hneg : (-(((x.exponentField - 1 : Nat) : Int) + 1 - 1077)).toNat = 1076 - (x.exponentField - 1) := by
    omega
  have hparity : (x.significand % 2 == 0) = (x.place % 2 == 0) := by
    have h : x.significand % 2 = x.place % 2 := by
      rw [significand, place]
      split_ifs <;> omega
    rw [h]
  simp only [interval, hm, hb, hq, hpos, hneg, hparity]
  rfl

def halves : Nat := 2 ^ 1075

lemma scale_mul (x : Double) :
    2 ^ (x.exponentField - 1) * x.interval.scale = 2 ^ (x.exponentField - 1 - 1076) * (halves * 2) := by
  have he : x.exponentField - 1 + (1076 - (x.exponentField - 1)) =
      x.exponentField - 1 - 1076 + (1075 + 1) := by omega
  rw [interval_eq, halves, ← pow_succ, ← pow_add, ← pow_add, he]

lemma upper_mul (x : Double) :
    halves * x.interval.upper = (units x.place + units (x.place + 1)) * x.interval.scale := by
  have hs := x.scale_mul
  have hu : x.interval.upper = (4 * x.significand + 2) * 2 ^ (x.exponentField - 1 - 1076) := by
    rw [interval_eq]
  rw [units_succ, units_place, div_place, hu]
  calc halves * ((4 * x.significand + 2) * 2 ^ (x.exponentField - 1 - 1076))
      = (2 * x.significand + 1) * (2 ^ (x.exponentField - 1 - 1076) * (halves * 2)) := by ring
    _ = (2 * x.significand + 1) * (2 ^ (x.exponentField - 1) * x.interval.scale) := by rw [hs]
    _ = _ := by ring

lemma reach_mul (h : 0 < x.place) :
    2 * 2 ^ ((x.place - 1) / 2 ^ 52 - 1) = x.reach * 2 ^ (x.exponentField - 1) := by
  have hf := x.fractionField_lt
  rw [reach]
  split_ifs with hr
  · obtain ⟨hzero, hone⟩ := hr
    have he : (x.place - 1) / 2 ^ 52 - 1 + 1 = x.exponentField - 1 := by
      rw [place]
      omega
    rw [← pow_succ', he, one_mul]
  · have he : (x.place - 1) / 2 ^ 52 - 1 = x.exponentField - 1 := by
      rw [place] at h ⊢
      omega
    rw [he]

lemma lower_mul (h : 0 < x.place) :
    halves * x.interval.lower = (units (x.place - 1) + units x.place) * x.interval.scale := by
  have hs := x.scale_mul
  have hr := reach_mul h
  have hl : x.interval.lower = (4 * x.significand - x.reach) * 2 ^ (x.exponentField - 1 - 1076) := by
    rw [interval_eq]
  have hprev : units (x.place - 1) + 2 ^ ((x.place - 1) / 2 ^ 52 - 1) =
      x.significand * 2 ^ (x.exponentField - 1) := by
    rw [← units_succ, Nat.sub_add_cancel h, units_place]
  have hsum : 2 * (units (x.place - 1) + units x.place) =
      (4 * x.significand - x.reach) * 2 ^ (x.exponentField - 1) := by
    rw [units_place, Nat.sub_mul, ← hr, mul_assoc 4, ← hprev]
    omega
  apply Nat.eq_of_mul_eq_mul_left Nat.two_pos
  calc 2 * (halves * x.interval.lower)
      = (4 * x.significand - x.reach) * (2 ^ (x.exponentField - 1 - 1076) * (halves * 2)) := by
        rw [hl]
        ring
    _ = (4 * x.significand - x.reach) * 2 ^ (x.exponentField - 1) * x.interval.scale := by
        rw [← hs, mul_assoc]
    _ = 2 * ((units (x.place - 1) + units x.place) * x.interval.scale) := by rw [← hsum, mul_assoc]

lemma scale_le (x : Double) : x.interval.scale ≤ halves * 2 := by
  apply Nat.le_of_mul_le_mul_left ?_ (Nat.two_pow_pos (x.exponentField - 1))
  rw [scale_mul]
  exact Nat.mul_le_mul_right _ (Nat.pow_le_pow_right Nat.two_pos (Nat.sub_le ..))

lemma scale_pos (x : Double) : 0 < x.interval.scale := by
  rw [interval_eq]
  exact Nat.two_pow_pos _

lemma halves_pos : 0 < halves := by decide +kernel

variable {n unit : Nat}

/-- The numbers that round to a magnitude lie between the means with its neighbours, which go to the even one
of two places. -/
lemma bounds_of_contains (h : x.interval.contains n unit = true) :
    (0 < x.place → (units (x.place - 1) + units x.place) * unit + x.place % 2 ≤ halves * n) ∧
      halves * n + x.place % 2 ≤ (units x.place + units (x.place + 1)) * unit := by
  have hscale := x.scale_pos
  have hlow (hp : 0 < x.place) : (units (x.place - 1) + units x.place) * unit * x.interval.scale =
      halves * (x.interval.lower * unit) := by
    rw [← mul_assoc, lower_mul hp]
    ring
  have hup : (units x.place + units (x.place + 1)) * unit * x.interval.scale =
      halves * (x.interval.upper * unit) := by
    rw [← mul_assoc, upper_mul]
    ring
  have hclosed : x.interval.closed = (x.place % 2 == 0) := by rw [interval_eq]
  have hn : halves * n * x.interval.scale = halves * (n * x.interval.scale) := mul_assoc ..
  rw [Interval.contains, hclosed] at h
  rcases Nat.mod_two_eq_zero_or_one x.place with heven | hodd
  · rw [heven] at h ⊢
    simp only [beq_self_eq_true, if_true, Bool.and_eq_true, decide_eq_true_eq] at h
    refine ⟨fun hp => Nat.le_of_mul_le_mul_right ?_ hscale, Nat.le_of_mul_le_mul_right ?_ hscale⟩
    · rw [add_zero, hlow hp, hn]
      exact Nat.mul_le_mul_left _ h.1
    · rw [add_zero, hup, hn]
      exact Nat.mul_le_mul_left _ h.2
  · rw [hodd] at h ⊢
    simp only [Nat.reduceBEq, Bool.false_eq_true, if_false, Bool.and_eq_true, decide_eq_true_eq] at h
    refine ⟨fun hp => Nat.lt_of_mul_lt_mul_right (a := x.interval.scale) ?_,
      Nat.lt_of_mul_lt_mul_right (a := x.interval.scale) ?_⟩
    · rw [hlow hp, hn]
      exact Nat.mul_lt_mul_of_pos_left h.1 halves_pos
    · rw [hup, hn]
      exact Nat.mul_lt_mul_of_pos_left h.2 halves_pos

lemma not_contains_of_lt (hu : 0 < unit) (hlt : x.place < y.place)
    (hx : x.interval.contains n unit = true) : ¬ y.interval.contains n unit = true := by
  intro hy
  have hupper := (bounds_of_contains hx).2
  have hlower := (bounds_of_contains hy).1 (Nat.zero_lt_of_lt hlt)
  have hprev : units x.place ≤ units (y.place - 1) := units_strictMono.monotone (by omega)
  have hnext : units (x.place + 1) ≤ units y.place := units_strictMono.monotone hlt
  have hmeans : units (y.place - 1) + units y.place ≤ units x.place + units (x.place + 1) :=
    Nat.le_of_mul_le_mul_right (by omega) hu
  -- only the mean of two neighbours can belong to both, and one of them has an odd place
  have hadjacent : x.place = y.place - 1 := units_strictMono.injective (by omega)
  have hsame : units (y.place - 1) + units y.place = units x.place + units (x.place + 1) := by omega
  rw [hsame] at hlower
  omega

lemma place_eq_of_contains (hu : 0 < unit) (hx : x.interval.contains n unit = true)
    (hy : y.interval.contains n unit = true) : x.place = y.place := by
  rcases lt_trichotomy x.place y.place with hlt | heq | hgt
  · exact absurd hy (not_contains_of_lt hu hlt hx)
  · exact heq
  · exact absurd hx (not_contains_of_lt hu hgt hy)

end Double

def Decimal.fraction (d : Decimal) : Nat × Nat :=
  (d.digits * 10 ^ d.exponent.toNat, 10 ^ (-d.exponent).toNat)

namespace Double

variable {x y : Double} {tie : Tie}

lemma contains_of_onGrid? {i : Interval} {k : Int} {d : Decimal} (h : i.onGrid? tie k = some d) :
    i.contains d.fraction.1 d.fraction.2 = true := by
  simp only [Interval.onGrid?] at h
  split_ifs at h with hlow hhigh
  · cases h
    exact (Bool.and_eq_true_iff.1 hlow).1
  · cases h
    exact hhigh

lemma Interval.contains_next {i : Interval} {unit : Nat} (hlower : i.lower ≤ i.centre)
    (hroom : i.centre * unit + i.scale < i.upper * unit) (hscale : 0 < i.scale) :
    i.contains (i.centre * unit / i.scale + 1) unit = true := by
  have hbelow : i.lower * unit < (i.centre * unit / i.scale + 1) * i.scale :=
    calc i.lower * unit ≤ i.centre * unit := Nat.mul_le_mul_right unit hlower
      _ < i.scale * (i.centre * unit / i.scale + 1) := Nat.lt_mul_div_succ _ hscale
      _ = (i.centre * unit / i.scale + 1) * i.scale := Nat.mul_comm ..
  have habove : (i.centre * unit / i.scale + 1) * i.scale < i.upper * unit :=
    calc (i.centre * unit / i.scale + 1) * i.scale
        = i.centre * unit / i.scale * i.scale + i.scale := Nat.succ_mul ..
      _ ≤ i.centre * unit + i.scale := Nat.add_le_add_right (Nat.div_mul_le_self ..) _
      _ < i.upper * unit := hroom
  rw [contains]
  split_ifs
  · simp [hbelow.le, habove.le]
  · simp [hbelow, habove]

lemma room_above (x : Double) {unit : Nat} (h : halves < unit) :
    x.interval.centre * unit + x.interval.scale < x.interval.upper * unit := by
  have hupper : x.interval.centre + 2 ≤ x.interval.upper := by
    have hpos := Nat.two_pow_pos (x.exponentField - 1 - 1076)
    rw [interval_eq]
    dsimp only
    rw [Nat.add_mul]
    omega
  calc x.interval.centre * unit + x.interval.scale
      ≤ x.interval.centre * unit + halves * 2 := Nat.add_le_add_left x.scale_le _
    _ < x.interval.centre * unit + unit * 2 :=
      Nat.add_lt_add_left (Nat.mul_lt_mul_of_pos_right h Nat.two_pos) _
    _ = (x.interval.centre + 2) * unit := by rw [Nat.add_mul, Nat.mul_comm 2]
    _ ≤ x.interval.upper * unit := Nat.mul_le_mul_right _ hupper

lemma isSome_onGrid? (x : Double) {k : Int} (hk : k.toNat = 0) (hfine : halves < Nat.pow 10 (-k).toNat) :
    (x.interval.onGrid? tie k).isSome = true := by
  have hlower : x.interval.lower ≤ x.interval.centre := by
    rw [interval_eq]
    exact Nat.mul_le_mul_right _ (Nat.sub_le ..)
  have hinside := Interval.contains_next hlower (x.room_above hfine) x.scale_pos
  have hone : Nat.pow 10 0 = 1 := rfl
  simp only [Interval.onGrid?, hk, hone, Nat.mul_one, hinside, if_true]
  split_ifs <;> rfl

lemma contains_shortest (tie : Tie) (x : Double) :
    x.interval.contains (x.shortest tie).fraction.1 (x.shortest tie).fraction.2 = true := by
  rw [shortest]
  split_ifs with hzero
  · rw [Bool.and_eq_true_iff, beq_iff_eq, beq_iff_eq] at hzero
    have hlower : x.interval.lower = 0 := by
      rw [interval_eq]
      dsimp only
      simp [significand, hzero]
    have hclosed : x.interval.closed = true := by
      rw [interval_eq]
      dsimp only
      simp [place, hzero]
    simp [Interval.contains, Decimal.fraction, hlower, hclosed]
  · -- the finest grid has a multiple in every interval
    have hfinest : ∃ k ∈ gridExponents, (x.interval.onGrid? tie k).isSome = true :=
      ⟨-330, by decide +kernel, x.isSome_onGrid? rfl (by decide +kernel)⟩
    obtain ⟨d, hd⟩ := Option.isSome_iff_exists.1 (List.findSome?_isSome_iff.2 hfinest)
    obtain ⟨k, -, hk⟩ := List.exists_of_findSome?_eq_some hd
    rw [hd]
    exact contains_of_onGrid? hk

lemma place_eq_of_shortest (h : (x.shortest tie).fraction = (y.shortest tie).fraction) :
    x.place = y.place := by
  have hx := contains_shortest tie x
  rw [h] at hx
  exact place_eq_of_contains (Nat.pow_pos (by decide)) hx (contains_shortest tie y)

end Double

end FormulaCode
