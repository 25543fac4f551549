import FormulaCode.Proofs.Outline
import FormulaCode.Proofs.Utf8

open scoped Computability

namespace FormulaCode

namespace Double

lemma not_isNaN_of_le {n : Nat} (h : n ≤ infinityBits) :
    isNaN ⟨UInt64.ofNat n⟩ = false ∧ negative ⟨UInt64.ofNat n⟩ = false := by
  have hi : infinityBits = 2047 * 4503599627370496 := rfl
  have hn : (UInt64.ofNat n).toNat = n := UInt64.toNat_ofNat_of_lt' (by rw [UInt64.size]; omega)
  have h52 : Nat.pow 2 52 = 4503599627370496 := rfl
  have h63 : Nat.pow 2 63 = 9223372036854775808 := rfl
  have h11 : Nat.pow 2 11 = 2048 := rfl
  constructor
  · simp only [isNaN, exponentField, fractionField, hn, h52, h11, Bool.and_eq_false_iff, beq_eq_false_iff_ne,
      bne_eq_false_iff_eq]
    omega
  · simp only [negative, hn, h63, decide_eq_false_iff_not]
    omega

lemma ofDecimal_positive (m : Nat) (e : Int) :
    (ofDecimal m e).isNaN = false ∧ (ofDecimal m e).negative = false := by
  rw [ofDecimal]
  split_ifs
  · exact ⟨by decide, by decide⟩
  · exact not_isNaN_of_le le_rfl
  · exact ⟨by decide, by decide⟩
  · exact not_isNaN_of_le (Nat.min_le_right ..)

end Double

namespace Numeral

variable {n m : Numeral} {cs w rest : List Char}

def digit : Language Char := {w | ∃ c, Text.isDigit c = true ∧ w = [c]}

def someDigits : Language Char := digit * digit∗

def mark (c : Char) : Language Char := {[c]}

def exponents (digits : Language Char) : Language Char :=
  1 + mark 'E' * (1 + mark '+' + mark '-') * digits

def spelled : Language Char := digit∗ * (1 + mark '.' * digit∗) * exponents digit∗

def mantissas : Language Char :=
  someDigits + someDigits * mark '.' * digit∗ + digit∗ * mark '.' * someDigits

def decimal : Language Char := mantissas * exponents someDigits

lemma mem_mark {c : Char} : w ∈ mark c ↔ w = [c] := Iff.rfl

lemma mem_digits : w ∈ digit∗ ↔ ∀ c ∈ w, Text.isDigit c = true := by
  rw [Language.mem_kstar]
  constructor
  · rintro ⟨ws, rfl, h⟩ c hc
    obtain ⟨v, hv, hcv⟩ := List.mem_flatten.1 hc
    obtain ⟨d, hd, rfl⟩ := h v hv
    rwa [List.mem_singleton.1 hcv]
  · intro h
    refine ⟨w.map ([·]), (List.flatMap_singleton' w).symm, fun v hv => ?_⟩
    obtain ⟨c, hc, rfl⟩ := List.mem_map.1 hv
    exact ⟨c, h c hc, rfl⟩

lemma mem_someDigits : w ∈ someDigits ↔ w ≠ [] ∧ ∀ c ∈ w, Text.isDigit c = true := by
  rw [someDigits, Language.mem_mul]
  constructor
  · rintro ⟨_, ⟨c, hc, rfl⟩, v, hv, rfl⟩
    exact ⟨List.cons_ne_nil c v, List.forall_mem_cons.2 ⟨hc, mem_digits.1 hv⟩⟩
  · rintro ⟨hne, h⟩
    obtain ⟨c, v, rfl⟩ := List.exists_cons_of_ne_nil hne
    obtain ⟨hc, hv⟩ := List.forall_mem_cons.1 h
    exact ⟨[c], ⟨c, hc, rfl⟩, v, mem_digits.2 hv, rfl⟩

def IsSign (sign : Option Char) : Prop := sign = none ∨ sign = some '+' ∨ sign = some '-'

lemma mem_exponents {digits : Language Char} : w ∈ exponents digits ↔
    ∃ e : Option Exponent, (∀ x ∈ e, IsSign x.sign ∧ x.digits ∈ digits) ∧ e.elim [] Exponent.text = w := by
  simp only [exponents, Language.mem_add, Language.mem_one, Language.mem_mul, mem_mark]
  constructor
  · rintro (rfl | ⟨_, ⟨_, rfl, s, hs, rfl⟩, v, hv, rfl⟩)
    · exact ⟨none, by simp, rfl⟩
    · rcases hs with (rfl | rfl) | rfl
      · exact ⟨some ⟨none, v⟩, by simp [IsSign, hv], rfl⟩
      · exact ⟨some ⟨some '+', v⟩, by simp [IsSign, hv], rfl⟩
      · exact ⟨some ⟨some '-', v⟩, by simp [IsSign, hv], rfl⟩
  · rintro ⟨_ | ⟨s, v⟩, h, rfl⟩
    · exact .inl rfl
    · obtain ⟨hs, hv⟩ := h _ rfl
      refine .inr ⟨'E' :: s.toList, ⟨['E'], rfl, s.toList, ?_, rfl⟩, v, hv, rfl⟩
      rcases hs with rfl | rfl | rfl
      · exact .inl (.inl rfl)
      · exact .inl (.inr rfl)
      · exact .inr rfl

structure IsSpelled (n : Numeral) : Prop where
  whole : ∀ c ∈ n.whole, Text.isDigit c = true
  fraction : ∀ f ∈ n.fraction, ∀ c ∈ f, Text.isDigit c = true
  exponent : ∀ e ∈ n.exponent, IsSign e.sign ∧ ∀ c ∈ e.digits, Text.isDigit c = true

lemma mem_spelled : w ∈ spelled ↔ ∃ n : Numeral, n.IsSpelled ∧ n.text = w := by
  simp only [spelled, Language.mem_mul, Language.mem_add, Language.mem_one, mem_exponents, mem_mark,
    mem_digits]
  constructor
  · rintro ⟨_, ⟨whole, hw, _, hf, rfl⟩, _, ⟨e, he, rfl⟩, rfl⟩
    rcases hf with rfl | ⟨_, rfl, f, hf, rfl⟩
    · exact ⟨⟨whole, none, e⟩, ⟨hw, by simp, he⟩, rfl⟩
    · exact ⟨⟨whole, some f, e⟩, ⟨hw, by simpa using hf, he⟩, rfl⟩
  · rintro ⟨⟨whole, fraction, e⟩, ⟨hw, hf, he⟩, rfl⟩
    refine ⟨_, ⟨whole, hw, fraction.elim [] ('.' :: ·), ?_, rfl⟩, _, ⟨e, he, rfl⟩, rfl⟩
    cases fraction with
    | none => exact .inl rfl
    | some f => exact .inr ⟨['.'], rfl, f, hf f rfl, rfl⟩

lemma isComplete_iff : n.isComplete = true ↔
    n.whole ++ n.fractionDigits ≠ [] ∧ ∀ e ∈ n.exponent, e.digits ≠ [] := by
  cases he : n.exponent <;> simp [isComplete, he, -List.append_eq_nil_iff]

lemma mem_mantissas : w ∈ mantissas ↔ ∃ (whole : List Char) (fraction : Option (List Char)),
    (∀ c ∈ whole, Text.isDigit c = true) ∧ (∀ f ∈ fraction, ∀ c ∈ f, Text.isDigit c = true) ∧
      whole ++ fraction.getD [] ≠ [] ∧ whole ++ fraction.elim [] ('.' :: ·) = w := by
  simp only [mantissas, Language.mem_mul, Language.mem_add, mem_someDigits, mem_mark, mem_digits]
  constructor
  · rintro ((⟨hne, hw⟩ | ⟨_, ⟨whole, ⟨hne, hw⟩, _, rfl, rfl⟩, f, hf, rfl⟩) |
      ⟨_, ⟨whole, hw, _, rfl, rfl⟩, f, ⟨hne, hf⟩, rfl⟩)
    · exact ⟨w, none, hw, by simp, by simpa using hne, by simp⟩
    · exact ⟨whole, some f, hw, by simpa using hf, by simp [hne], by simp⟩
    · exact ⟨whole, some f, hw, by simpa using hf, by simp [hne], by simp⟩
  · rintro ⟨whole, _ | f, hw, hf, hne, rfl⟩
    · exact .inl (.inl (by simpa using ⟨by simpa using hne, hw⟩))
    · have hpoint : whole ++ ['.'] ++ f = whole ++ '.' :: f := by simp
      by_cases hwhole : whole = []
      · refine .inr ⟨_, ⟨whole, hw, _, rfl, rfl⟩, f, ⟨?_, hf f rfl⟩, hpoint⟩
        simpa [hwhole] using hne
      · exact .inl (.inr ⟨_, ⟨whole, ⟨hwhole, hw⟩, _, rfl, rfl⟩, f, hf f rfl, hpoint⟩)

lemma mem_decimal : w ∈ decimal ↔ ∃ n : Numeral, n.IsSpelled ∧ n.isComplete = true ∧ n.text = w := by
  simp only [decimal, Language.mem_mul, mem_mantissas, mem_exponents, mem_someDigits, isComplete_iff]
  constructor
  · rintro ⟨_, ⟨whole, fraction, hw, hf, hne, rfl⟩, _, ⟨e, he, rfl⟩, rfl⟩
    exact ⟨⟨whole, fraction, e⟩, ⟨hw, hf, fun x hx => ⟨(he x hx).1, (he x hx).2.2⟩⟩,
      ⟨hne, fun x hx => (he x hx).2.1⟩, rfl⟩
  · rintro ⟨⟨whole, fraction, e⟩, ⟨hw, hf, he⟩, ⟨hne, hsome⟩, rfl⟩
    exact ⟨_, ⟨whole, fraction, hw, hf, hne, rfl⟩, _,
      ⟨e, fun x hx => ⟨(he x hx).1, hsome x hx, (he x hx).2⟩, rfl⟩, rfl⟩

-- A numeral is what is scanned of its own text.

lemma span_digits {ds tail : List Char} (hd : ∀ c ∈ ds, Text.isDigit c = true)
    (ht : tail.takeWhile Text.isDigit = []) :
    (ds ++ tail).takeWhile Text.isDigit = ds ∧ (ds ++ tail).dropWhile Text.isDigit = tail := by
  have hsplit := List.takeWhile_append_dropWhile (p := Text.isDigit) (l := tail)
  rw [ht, List.nil_append] at hsplit
  rw [List.takeWhile_append_of_pos hd, List.dropWhile_append_of_pos hd, ht, hsplit, List.append_nil]
  exact ⟨rfl, rfl⟩

lemma scanExponent_text {e : Option Exponent}
    (h : ∀ x ∈ e, IsSign x.sign ∧ ∀ c ∈ x.digits, Text.isDigit c = true) :
    Exponent.scan (e.elim [] Exponent.text) = (e, []) := by
  rcases e with _ | ⟨sign, ds⟩
  · rfl
  obtain ⟨hs, hd⟩ := h _ rfl
  have ht := List.takeWhile_eq_self_iff.2 hd
  have hr := List.dropWhile_eq_nil_iff.2 hd
  rcases hs with hs | hs | hs <;> dsimp only at hs <;> subst hs
  · -- the first digit is no sign
    rcases ds with _ | ⟨d, ds⟩
    · rfl
    · have hplus : d ≠ '+' := by
        rintro rfl
        exact absurd (hd _ List.mem_cons_self) (by decide)
      have hminus : d ≠ '-' := by
        rintro rfl
        exact absurd (hd _ List.mem_cons_self) (by decide)
      simp [Exponent.text, Exponent.scan, hplus, hminus, ht, hr]
  · simp [Exponent.text, Exponent.scan, ht, hr]
  · simp [Exponent.text, Exponent.scan, ht, hr]

lemma takeWhile_exponent (e : Option Exponent) :
    (e.elim [] Exponent.text).takeWhile Text.isDigit = [] := by
  cases e <;> rfl

lemma scanFraction_text {fraction : Option (List Char)}
    (h : ∀ f ∈ fraction, ∀ c ∈ f, Text.isDigit c = true) (e : Option Exponent) :
    scanFraction (fraction.elim [] ('.' :: ·) ++ e.elim [] Exponent.text) =
      (fraction, e.elim [] Exponent.text) := by
  cases fraction with
  | none => cases e <;> rfl
  | some f =>
    obtain ⟨ht, hr⟩ := span_digits (h f rfl) (takeWhile_exponent e)
    simp [scanFraction, ht, hr]

lemma scan_text (h : n.IsSpelled) : scan n.text = (n, []) := by
  have hsolid : (n.fraction.elim [] ('.' :: ·) ++ n.exponent.elim [] Exponent.text).takeWhile Text.isDigit =
      [] := by
    cases n.fraction with
    | none => exact takeWhile_exponent _
    | some f => rfl
  obtain ⟨ht, hr⟩ := span_digits h.whole hsolid
  rw [text, List.append_assoc]
  simp only [scan, ht, hr, scanFraction_text h.fraction, scanExponent_text h.exponent]

lemma isSpelled_scan (cs : List Char) : (scan cs).1.IsSpelled := by
  have hdigits (cs : List Char) : ∀ c ∈ cs.takeWhile Text.isDigit, Text.isDigit c = true :=
    fun c => List.mem_takeWhile_imp
  refine ⟨hdigits cs, ?_, ?_⟩
  · change ∀ f ∈ (scanFraction (cs.dropWhile Text.isDigit)).1, ∀ c ∈ f, Text.isDigit c = true
    rw [scanFraction.eq_def]
    split
    · rintro _ ⟨⟩
      exact hdigits _
    · simp
  · change ∀ e ∈ (Exponent.scan (scanFraction (cs.dropWhile Text.isDigit)).2).1,
      IsSign e.sign ∧ ∀ c ∈ e.digits, Text.isDigit c = true
    rw [Exponent.scan.eq_def]
    split
    · rintro _ ⟨⟩
      exact ⟨.inr (.inl rfl), hdigits _⟩
    · rintro _ ⟨⟩
      exact ⟨.inr (.inr rfl), hdigits _⟩
    · rintro _ ⟨⟩
      exact ⟨.inl rfl, hdigits _⟩
    · simp

lemma text_scan_of_mem (h : w ∈ spelled) : (scan w).1.text = w := by
  obtain ⟨n, hn, rfl⟩ := mem_spelled.1 h
  rw [scan_text hn]

lemma isPrefix_scan (hw : w ∈ spelled) (hp : w <+: rest) : w <+: (scan rest).1.text := by
  have htext : (scan rest).1.text <+: rest := ⟨_, text_scan rest⟩
  refine List.prefix_of_prefix_length_le hp htext (Nat.le_of_not_lt fun hlt => ?_)
  obtain ⟨ds, rfl⟩ := hp
  -- a shorter numeral would be scanned of the word alone, which is scanned whole
  rw [scan_of_fits hlt.le, text_scan_of_mem hw] at hlt
  exact hlt.false

lemma text_mem_decimal_iff (h : n.IsSpelled) : n.text ∈ decimal ↔ n.isComplete = true := by
  rw [mem_decimal]
  refine ⟨?_, fun hc => ⟨n, h, hc, rfl⟩⟩
  rintro ⟨m, hm, hc, htext⟩
  -- a text is spelled by one numeral only, the one that is scanned of it
  have hscan := scan_text hm
  rw [htext, scan_text h] at hscan
  rwa [(Prod.mk.inj hscan).1]

def HasDigit (cs : List Char) : Prop := ∃ c ∈ cs, Text.isDigit c = true

lemma hasDigit_iff_ne_nil (h : ∀ c ∈ cs, Text.isDigit c = true) : HasDigit cs ↔ cs ≠ [] := by
  constructor
  · rintro ⟨c, hc, -⟩
    exact List.ne_nil_of_mem hc
  · intro hne
    obtain ⟨c, ds, rfl⟩ := List.exists_cons_of_ne_nil hne
    exact ⟨c, List.mem_cons_self, h c List.mem_cons_self⟩

lemma hasDigit_append {ds : List Char} : HasDigit (cs ++ ds) ↔ HasDigit cs ∨ HasDigit ds := by
  simp only [HasDigit, List.mem_append, or_and_right, exists_or]

lemma hasDigit_cons_iff {c : Char} (h : Text.isDigit c = false) : HasDigit (c :: cs) ↔ HasDigit cs := by
  simp [HasDigit, h]

lemma hasDigit_mantissa (h : n.IsSpelled) :
    HasDigit (n.whole ++ n.fraction.elim [] ('.' :: ·)) ↔ n.whole ++ n.fractionDigits ≠ [] := by
  rw [hasDigit_append, hasDigit_iff_ne_nil h.whole, fractionDigits]
  cases hf : n.fraction with
  | none => simp [HasDigit]
  | some f =>
    have hpoint : HasDigit ('.' :: f) ↔ HasDigit f := hasDigit_cons_iff (by decide)
    simp [hpoint, hasDigit_iff_ne_nil (h.fraction f hf), imp_iff_not_or]

lemma hasDigit_exponent {e : Exponent} (hs : IsSign e.sign) (hd : ∀ c ∈ e.digits, Text.isDigit c = true) :
    HasDigit e.text ↔ e.digits ≠ [] := by
  have hsign : ¬ HasDigit e.sign.toList := by
    rcases hs with hs | hs | hs <;> simp [hs, HasDigit] <;> decide
  rw [Exponent.text, List.cons_append, hasDigit_cons_iff (by decide), hasDigit_append, or_iff_right hsign,
    hasDigit_iff_ne_nil hd]

lemma mantissa_ne_mark (h : n.IsSpelled) :
    ∀ c ∈ n.whole ++ n.fraction.elim [] ('.' :: ·), (c != 'E') = true := by
  have hdigit {c : Char} (hc : Text.isDigit c = true) : (c != 'E') = true := by
    rw [bne_iff_ne]
    rintro rfl
    exact absurd hc (by decide)
  refine List.forall_mem_append.2 ⟨fun c hc => hdigit (h.whole c hc), ?_⟩
  cases hf : n.fraction with
  | none => simp
  | some f => exact List.forall_mem_cons.2 ⟨by decide, fun c hc => hdigit (h.fraction f hf c hc)⟩

lemma isComplete_iff_hasDigit (h : n.IsSpelled) : n.isComplete = true ↔
    HasDigit (n.text.takeWhile (· != 'E')) ∧ ('E' ∈ n.text → HasDigit (n.text.dropWhile (· != 'E'))) := by
  have hne := mantissa_ne_mark h
  have hnot : 'E' ∉ n.whole ++ n.fraction.elim [] ('.' :: ·) := fun hmem => by simpa using hne _ hmem
  rw [isComplete_iff, text, List.takeWhile_append_of_pos hne, List.dropWhile_append_of_pos hne,
    List.mem_append, or_iff_right hnot]
  cases he : n.exponent with
  | none => simp [hasDigit_mantissa h]
  | some e =>
    obtain ⟨hs, hd⟩ := h.exponent e he
    have htake : e.text.takeWhile (· != 'E') = [] := rfl
    have hdrop : e.text.dropWhile (· != 'E') = e.text := rfl
    have hmark : 'E' ∈ e.text := List.mem_cons_self
    simp [htake, hdrop, hmark, hasDigit_mantissa h, hasDigit_exponent hs hd]

lemma valueUnder_strict (n : Numeral) : n.valueUnder .strict = n.value? := by
  cases h : n.value? <;> simp [valueUnder, h]

lemma valueUnder_zeroOnError_eq (n : Numeral) : n.valueUnder .zeroOnError = some (n.value?.getD .zero) := by
  cases h : n.value? <;> simp [valueUnder, h]

lemma isSome_value? (n : Numeral) : n.value?.isSome = n.isComplete := by
  rw [value?]
  split_ifs with h <;> simp [h]

lemma value?_positive {x : Double} (h : n.value? = some x) : x.isNaN = false ∧ x.negative = false := by
  rw [value?] at h
  split_ifs at h
  cases h
  exact Double.ofDecimal_positive ..

-- The length of a numeral as a loop over the bytes finds it, which remembers whether a point was passed.

def isSign (c : Char) : Bool := c == '+' || c == '-'

def mantissaLength (seenPoint : Bool) : List UInt8 → Nat
  | [] => 0
  | b :: bs =>
    if Text.isDigit (Text.ofByte b) then mantissaLength seenPoint bs + 1
    else if Text.ofByte b == '.' && !seenPoint then mantissaLength true bs + 1
    else 0

def digitsLength (bs : List UInt8) : Nat := (bs.takeWhile fun b => Text.isDigit (Text.ofByte b)).length

def signedLength : List UInt8 → Nat
  | [] => 0
  | b :: bs => if isSign (Text.ofByte b) then digitsLength bs + 1 else digitsLength (b :: bs)

def exponentLength : List UInt8 → Nat
  | [] => 0
  | b :: bs => if Text.ofByte b == 'E' then signedLength bs + 1 else 0

def scannedLength (bs : List UInt8) : Nat :=
  mantissaLength false bs + exponentLength (bs.drop (mantissaLength false bs))

lemma exists_bytes_cons (c : Char) (cs : List Char) : ∃ b bs, Text.bytes (c :: cs) = b :: bs ∧
    (∀ p : Char → Bool, (∀ d, p d = true → d.val ≤ 127) → p (Text.ofByte b) = p c) ∧
      (c.val ≤ 127 → bs = Text.bytes cs) := by
  obtain ⟨b, bs, h⟩ := List.exists_cons_of_ne_nil (String.utf8EncodeChar_ne_nil (c := c))
  refine ⟨b, bs ++ Text.bytes cs, by rw [Text.bytes_cons, h, List.cons_append],
    fun p hp => Text.class_first hp h, fun hc => ?_⟩
  obtain ⟨-, rfl⟩ := (Text.first_utf8EncodeChar h).resolve_right fun hr => hr.1 hc
  rfl

lemma le_of_beq {d : Char} (hd : d.val ≤ 127) (c : Char) (h : (c == d) = true) : c.val ≤ 127 := by
  rwa [beq_iff_eq.1 h]

lemma isSign_iff {c : Char} : isSign c = true ↔ c = '+' ∨ c = '-' := by
  rw [isSign, Bool.or_eq_true, beq_iff_eq, beq_iff_eq]

lemma isSign_le (c : Char) (h : isSign c = true) : c.val ≤ 127 := by
  rcases isSign_iff.1 h with rfl | rfl <;> decide

lemma mantissaLength_bytes (seenPoint : Bool) (cs : List Char) :
    mantissaLength seenPoint (Text.bytes cs) = (cs.takeWhile Text.isDigit).length +
      if seenPoint then 0 else ((scanFraction (cs.dropWhile Text.isDigit)).1.elim [] ('.' :: ·)).length := by
  induction cs generalizing seenPoint with
  | nil => cases seenPoint <;> rfl
  | cons c cs ih =>
    obtain ⟨b, bs, hb, hclass, hrest⟩ := exists_bytes_cons c cs
    rw [hb, mantissaLength, hclass _ Text.isDigit_le, hclass (· == '.') (le_of_beq (by decide))]
    by_cases hd : Text.isDigit c = true
    · rw [hrest (Text.isDigit_le c hd), if_pos hd, ih, List.takeWhile_cons_of_pos hd,
        List.dropWhile_cons_of_pos hd, List.length_cons, Nat.add_right_comm]
    · rw [if_neg hd, List.takeWhile_cons_of_neg hd, List.dropWhile_cons_of_neg hd]
      by_cases hp : c = '.'
      · subst hp
        cases seenPoint with
        | true => rfl
        | false =>
          have hlength : mantissaLength true bs = (cs.takeWhile Text.isDigit).length := by
            rw [hrest (by decide), ih]
            rfl
          simp [scanFraction, hlength]
      · cases seenPoint <;> simp [scanFraction, hp]

lemma digitsLength_bytes (cs : List Char) :
    digitsLength (Text.bytes cs) = (cs.takeWhile Text.isDigit).length := by
  rw [digitsLength, (Text.takeWhile_bytes Text.isDigit_le cs).1, Text.length_bytes,
    Text.byteLength_of_ascii (ascii_digits cs)]

lemma signedLength_bytes (cs : List Char) : signedLength (Text.bytes cs) + 1 =
    ((Exponent.scan ('E' :: cs)).1.elim [] Exponent.text).length := by
  cases cs with
  | nil => rfl
  | cons c cs =>
    obtain ⟨b, bs, hb, hclass, hrest⟩ := exists_bytes_cons c cs
    have hwhole := digitsLength_bytes (c :: cs)
    rw [hb] at hwhole
    rw [hb, signedLength, hclass _ isSign_le, hwhole]
    by_cases hs : isSign c = true
    · rw [if_pos hs, hrest (isSign_le c hs), digitsLength_bytes]
      rcases isSign_iff.1 hs with rfl | rfl <;> simp [Exponent.scan, Exponent.text]
    · rw [if_neg hs]
      rw [isSign_iff, not_or] at hs
      simp [Exponent.scan, Exponent.text, hs.1, hs.2]

lemma exponentLength_bytes (cs : List Char) :
    exponentLength (Text.bytes cs) = ((Exponent.scan cs).1.elim [] Exponent.text).length := by
  cases cs with
  | nil => rfl
  | cons c cs =>
    obtain ⟨b, bs, hb, hclass, hrest⟩ := exists_bytes_cons c cs
    rw [hb, exponentLength, hclass (· == 'E') (le_of_beq (by decide))]
    by_cases hc : c = 'E'
    · subst hc
      rw [if_pos (by rfl), hrest (by decide), signedLength_bytes]
    · have hscan : Exponent.scan (c :: cs) = (none, c :: cs) := by simp [Exponent.scan, hc]
      rw [if_neg (by simpa using hc), hscan]
      rfl

lemma scannedLength_bytes (cs : List Char) : scannedLength (Text.bytes cs) = (scan cs).1.text.length := by
  set mantissa := cs.takeWhile Text.isDigit ++ (scanFraction (cs.dropWhile Text.isDigit)).1.elim [] ('.' :: ·)
    with hm
  set tail := (scanFraction (cs.dropWhile Text.isDigit)).2 with ht
  have hlength : mantissaLength false (Text.bytes cs) = mantissa.length := by
    rw [mantissaLength_bytes, hm, List.length_append]
    rfl
  have hsplit : mantissa ++ tail = cs := by
    rw [hm, ht, List.append_assoc, text_scanFraction, List.takeWhile_append_dropWhile]
  have hascii : Text.byteLength mantissa = mantissa.length :=
    Text.byteLength_of_ascii ((ascii_digits cs).append (ascii_scanFraction _))
  have hdrop : Text.dropBytes? mantissa.length cs = some tail := by
    rw [← hascii, ← hsplit, Text.dropBytes?_append]
  rw [scannedLength, hlength, Text.drop_bytes hdrop, exponentLength_bytes, ← List.length_append]
  rfl

/-- At every boundary of characters the longest numeral is scanned, and the loop over the bytes stops behind
it. It has a value if and only if there is a digit before any `E` and one behind it, which makes it a decimal.
The value is a number that is not negative, and zero stands in for it where malformed numerals are let
pass. -/
theorem scanned_longest (before rest : List Char) :
    ∃ n, scanAt? (before ++ rest) (Text.byteLength before) = some n ∧
      Text.slice? (before ++ rest) (Text.byteLength before)
        (scannedLength ((Text.bytes (before ++ rest)).drop (Text.byteLength before))) = some n.text ∧
      scan n.text = (n, []) ∧
      n.text <+: rest ∧ n.text ∈ spelled ∧ (∀ w ∈ spelled, w <+: rest → w <+: n.text) ∧
      ((n.valueUnder .strict).isSome = true ↔
        HasDigit (n.text.takeWhile (· != 'E')) ∧ ('E' ∈ n.text → HasDigit (n.text.dropWhile (· != 'E')))) ∧
      ((n.valueUnder .strict).isSome = true ↔ n.text ∈ decimal) ∧
      (∀ x, n.valueUnder .strict = some x → x.isNaN = false ∧ x.negative = false) ∧
      n.valueUnder .zeroOnError = some ((n.valueUnder .strict).getD .zero) := by
  have hn := isSpelled_scan rest
  refine ⟨(scan rest).1, ?_, ?_, scan_text hn, ⟨_, text_scan rest⟩, mem_spelled.2 ⟨_, hn, rfl⟩, ?_⟩
  · rw [scanAt?, Text.dropBytes?_append]
    rfl
  · rw [Text.drop_bytes (Text.dropBytes?_append before rest), scannedLength_bytes,
      ← Text.byteLength_of_ascii (ascii_scan rest)]
    nth_rewrite 1 [← text_scan rest]
    exact Text.slice?_append ..
  · rw [valueUnder_strict, isSome_value?, text_mem_decimal_iff hn, valueUnder_zeroOnError_eq]
    exact ⟨fun w => isPrefix_scan, isComplete_iff_hasDigit hn, Iff.rfl, fun x => value?_positive, rfl⟩

theorem scanned_longest_unfinished :
    ∃ n, scanAt? "é+1.5E+*2".toList 3 = some n ∧ n.text = "1.5E+".toList ∧ n.text ∉ decimal ∧
      n.valueUnder .strict = none ∧ n.valueUnder .zeroOnError = some .zero := by
  obtain ⟨n, hn, -, -, -, -, -, -, hdecimal, -, hzero⟩ := scanned_longest "é+".toList "1.5E+*2".toList
  have hscan : scanAt? ("é+".toList ++ "1.5E+*2".toList) (Text.byteLength "é+".toList) =
      some ⟨['1'], some ['5'], some ⟨some '+', []⟩⟩ := by decide
  cases hscan.symm.trans hn
  have hnone : valueUnder .strict ⟨['1'], some ['5'], some ⟨some '+', []⟩⟩ = none := by decide
  rw [hnone] at hdecimal hzero
  exact ⟨_, hn, by decide, fun h => by simpa using hdecimal.2 h, hnone, hzero⟩

end Numeral

end FormulaCode
