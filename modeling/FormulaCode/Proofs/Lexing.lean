import Mathlib
import FormulaCode.Lexeme

namespace FormulaCode

namespace Text

def Ascii (cs : List Char) : Prop := ∀ c ∈ cs, c.utf8Size = 1

lemma Ascii.append {cs ds : List Char} (hc : Ascii cs) (hd : Ascii ds) : Ascii (cs ++ ds) :=
  List.forall_mem_append.2 ⟨hc, hd⟩

lemma byteLength_of_ascii {cs : List Char} (h : Ascii cs) : byteLength cs = cs.length := by
  induction cs with
  | nil => rfl
  | cons c cs ih =>
    obtain ⟨hc, hcs⟩ := List.forall_mem_cons.1 h
    rw [byteLength_cons, hc, ih hcs, List.length_cons, Nat.add_comm]

lemma length_le_byteLength (cs : List Char) : cs.length ≤ byteLength cs := by
  induction cs with
  | nil => exact le_refl 0
  | cons c cs ih =>
    have hc := c.utf8Size_pos
    rw [byteLength_cons, List.length_cons]
    omega

lemma utf8Size_toUpper (c : Char) : c.toUpper.utf8Size = c.utf8Size := by
  rw [Char.toUpper]
  split
  · rename_i h
    have hc : c.utf8Size = 1 := Char.utf8Size_eq_one_iff.2 (UInt32.le_trans h.2 (by decide : 'z'.val ≤ 127))
    rw [hc, Char.utf8Size_eq_one_iff]
    have h1 : 97 ≤ c.val.toNat := h.1
    have h2 : c.val.toNat ≤ 122 := h.2
    have hs : ('A'.val - 'a'.val).toNat = 4294967264 := by decide
    change (c.val + ('A'.val - 'a'.val)).toNat ≤ 127
    rw [UInt32.toNat_add, hs]
    omega
  · rfl

lemma byteLength_upper (cs : List Char) : byteLength (upper cs) = byteLength cs := by
  induction cs with
  | nil => rfl
  | cons c cs ih => exact congrArg₂ (· + ·) (utf8Size_toUpper c) ih

lemma charsBefore?_utf8Size_add (c : Char) (cs : List Char) (n : Nat) :
    charsBefore? (c.utf8Size + n) (c :: cs) = (charsBefore? n cs).map (· + 1) := by
  have hpos := c.utf8Size_pos
  obtain ⟨m, hm⟩ : ∃ m, c.utf8Size + n = m + 1 := ⟨c.utf8Size + n - 1, by omega⟩
  have hle : c.utf8Size ≤ m + 1 := by omega
  have hsub : m + 1 - c.utf8Size = n := by omega
  rw [hm, charsBefore?, if_pos hle, hsub]

lemma charsBefore?_append (cs ds : List Char) :
    charsBefore? (byteLength cs) (cs ++ ds) = some cs.length := by
  induction cs with
  | nil => cases ds <;> rfl
  | cons c cs ih => rw [byteLength_cons, List.cons_append, charsBefore?_utf8Size_add, ih]; rfl

lemma slice?_append (before cs ds : List Char) :
    slice? (before ++ (cs ++ ds)) (byteLength before) (byteLength cs) = some cs := by
  simp [slice?, dropBytes?_append, charsBefore?_append]

lemma ascii_of_all {p : Char → Bool} (hp : ∀ c, p c = true → c.val ≤ 127) {cs : List Char}
    (h : cs.all p = true) : Ascii cs :=
  fun c hc => Char.utf8Size_eq_one_iff.2 (hp c (List.all_eq_true.1 h c hc))

lemma isDigit_le (c : Char) (h : isDigit c = true) : c.val ≤ 127 := by
  simp only [isDigit, Bool.and_eq_true, decide_eq_true_eq] at h
  exact UInt32.le_trans h.2 (by decide : '9'.val ≤ 127)

lemma isUpper_le (c : Char) (h : isUpper c = true) : c.val ≤ 127 := by
  simp only [isUpper, Bool.and_eq_true, decide_eq_true_eq] at h
  exact UInt32.le_trans h.2 (by decide : 'Z'.val ≤ 127)

lemma isBlank_le (c : Char) (h : isBlank c = true) : c.val ≤ 127 := by
  simp only [isBlank, Bool.or_eq_true, beq_iff_eq] at h
  rcases h with (((rfl | rfl) | rfl) | rfl) | rfl <;> decide

lemma byteLength_of_blank {cs : List Char} (h : ∀ c ∈ cs, isBlank c = true) : byteLength cs = cs.length :=
  byteLength_of_ascii (ascii_of_all isBlank_le (List.all_eq_true.2 h))

end Text

namespace Numeral

lemma text_scanFraction (cs : List Char) :
    (scanFraction cs).1.elim [] ('.' :: ·) ++ (scanFraction cs).2 = cs := by
  rw [scanFraction.eq_def]
  split <;> simp

lemma text_scanExponent (cs : List Char) :
    (Exponent.scan cs).1.elim [] Exponent.text ++ (Exponent.scan cs).2 = cs := by
  rw [Exponent.scan.eq_def]
  split <;> simp [Exponent.text]

lemma text_scan (cs : List Char) : (scan cs).1.text ++ (scan cs).2 = cs := by
  have hf := text_scanFraction (cs.dropWhile Text.isDigit)
  have he := text_scanExponent (scanFraction (cs.dropWhile Text.isDigit)).2
  simp only [scan, text, List.append_assoc]
  rw [he, hf, List.takeWhile_append_dropWhile]

lemma ascii_digits (cs : List Char) : Text.Ascii (cs.takeWhile Text.isDigit) :=
  Text.ascii_of_all Text.isDigit_le (List.all_takeWhile ..)

lemma ascii_scanFraction (cs : List Char) :
    Text.Ascii ((scanFraction cs).1.elim [] ('.' :: ·)) := by
  rw [scanFraction.eq_def]
  split
  · exact List.forall_mem_cons.2 ⟨by decide, ascii_digits _⟩
  · exact nofun

lemma ascii_scanExponent (cs : List Char) :
    Text.Ascii ((Exponent.scan cs).1.elim [] Exponent.text) := by
  rw [Exponent.scan.eq_def]
  split
  · exact List.forall_mem_cons.2 ⟨by decide, List.forall_mem_cons.2 ⟨by decide, ascii_digits _⟩⟩
  · exact List.forall_mem_cons.2 ⟨by decide, List.forall_mem_cons.2 ⟨by decide, ascii_digits _⟩⟩
  · exact List.forall_mem_cons.2 ⟨by decide, ascii_digits _⟩
  · exact nofun

lemma ascii_scan (cs : List Char) : Text.Ascii (scan cs).1.text :=
  ((ascii_digits cs).append (ascii_scanFraction _)).append (ascii_scanExponent _)

end Numeral

namespace Token

lemma text_of_table : ∀ e ∈ Element.table, e.code ≠ Opcode.fetch.byte ∧
    e.pattern.toList.all (fun c => c.val ≤ 127) = true := by decide

lemma start?_text {position : Nat} {text : List Char} {t : Token}
    (h : start? position text = some t) : t.position = position ∧ t.length = t.text.length ∧
      Text.Ascii t.text ∧ ∃ after, text = t.text ++ after := by
  rw [start?.eq_def] at h
  split at h
  · rename_i e he
    cases h
    obtain ⟨hc, ha⟩ := text_of_table e (List.mem_of_find?_eq_some he)
    have ht : Token.text ⟨e, 0, position, e.pattern.toList.length⟩ = e.pattern.toList := by
      simp [Token.text, hc]
    rw [ht]
    have hs : e.starts text = true := List.find?_some (p := fun e : Element => e.starts text) he
    obtain ⟨after, ha'⟩ := List.isPrefixOf_iff_prefix.1 hs
    exact ⟨rfl, rfl, Text.ascii_of_all (fun c hc => by simpa using hc) ha, after, ha'.symm⟩
  · split at h
    · cases h
    · rename_i c cs _
      obtain ⟨hu, h⟩ := Option.ite_none_right_eq_some.1 h
      cases h
      have ht : Token.text ⟨.fetch, UInt8.ofNat (c.toNat - 'A'.toNat), position, 1⟩ = [c] := by
        simp only [Text.isUpper, Bool.and_eq_true, decide_eq_true_eq] at hu
        have h1 : 65 ≤ c.toNat := hu.1
        have h2 : c.toNat ≤ 90 := hu.2
        have ha : 'A'.toNat = 65 := by decide
        have hn : 65 + (c.toNat - 65) % 256 = c.toNat := by omega
        simp [Token.text, Element.fetch, ha, hn]
      rw [ht]
      exact ⟨rfl, rfl, by simp [Text.Ascii, Char.utf8Size_eq_one_iff, Text.isUpper_le c hu], cs, rfl⟩

lemma scan_of_symbol {t : Token} {here : List Char} {n : Numeral}
    (h : t.symbol here = .numeral n) : (Numeral.scan here).1 = n := by
  rw [symbol] at h
  split at h <;> try cases h
  · rfl
  · split at h <;> cases h

end Token

namespace Lexeme

def Occurs (text : List Char) (x : Lexeme) : Prop :=
  ∃ before here, text = before ++ here ∧ x.token.position = Text.byteLength before ∧
    Token.start? x.token.position here = some x.token ∧ x.symbol = x.token.symbol here

lemma exists_text {position : Nat} {text : List Char} {t : Token}
    (h : Token.start? position text = some t) :
    ∃ cs after, text = cs ++ after ∧ Text.Ascii cs ∧ length ⟨t, t.symbol text⟩ = cs.length := by
  by_cases hk : t.element.kind = .numeral
  · refine ⟨_, _, (Numeral.text_scan text).symm, Numeral.ascii_scan text, ?_⟩
    simp [length, Token.symbol, hk]
  · obtain ⟨-, hl, ha, after, hc⟩ := Token.start?_text h
    exact ⟨t.text, after, hc, ha, (length_eq_of_kind_ne text hk).trans hl⟩

lemma length_le {position : Nat} {text : List Char} {t : Token}
    (h : Token.start? position text = some t) : length ⟨t, t.symbol text⟩ ≤ text.length := by
  obtain ⟨cs, after, hc, -, hl⟩ := exists_text h
  rw [hl, hc, List.length_append]
  exact Nat.le_add_right _ _

lemma length_text {position : Nat} {text : List Char} {t : Token}
    (h : Token.start? position text = some t) :
    Text.byteLength (text.take (length ⟨t, t.symbol text⟩)) = length ⟨t, t.symbol text⟩ := by
  obtain ⟨cs, after, hc, ha, hl⟩ := exists_text h
  rw [hl, hc, List.take_left, Text.byteLength_of_ascii ha]

lemma byteLength_blanks (rest : List Char) :
    Text.byteLength (rest.takeWhile Text.isBlank) = (rest.takeWhile Text.isBlank).length :=
  Text.byteLength_of_blank fun _ => List.mem_takeWhile_imp

lemma split_of_find {text rest before here : List Char} {position : Nat} {t : Token}
    (ht : text = before ++ rest) (hp : position = Text.byteLength before)
    (hf : Token.find position rest = .token t here) :
    text = before ++ rest.takeWhile Text.isBlank ++ here ∧
      t.position = Text.byteLength (before ++ rest.takeWhile Text.isBlank) ∧
        Token.start? t.position here = some t := by
  obtain ⟨hs, -, hh⟩ := Token.start?_of_find hf
  have hpos := (Token.start?_text hs).1
  refine ⟨?_, ?_, hpos ▸ hs⟩
  · rw [hh, List.append_assoc, List.takeWhile_append_dropWhile, ht]
  · rw [hpos, Text.byteLength_append, byteLength_blanks, hp]

lemma split_after {text before here : List Char} {t : Token} (ht : text = before ++ here)
    (hp : t.position = Text.byteLength before) (hs : Token.start? t.position here = some t) :
    let n := length ⟨t, t.symbol here⟩
    text = before ++ here.take n ++ here.drop n ∧
      t.position + n = Text.byteLength (before ++ here.take n) := by
  refine ⟨?_, ?_⟩
  · rw [List.append_assoc, List.take_append_drop, ht]
  · rw [Text.byteLength_append, ← hp, length_text hs]

lemma occurs_of_mem {text : List Char} {x : Lexeme} (position : Nat) (rest before : List Char)
    (ht : text = before ++ rest) (hp : position = Text.byteLength before)
    (hx : x ∈ (all position rest).1) : x.Occurs text := by
  fun_induction all position rest generalizing before with
  | case1 => cases hx
  | case2 => cases hx
  | case3 position rest t here hf y xs stop hall ih =>
    obtain ⟨ht', hpos, hs⟩ := split_of_find ht hp hf
    rcases List.mem_cons.1 hx with rfl | hx
    · exact ⟨_, here, ht', hpos, hs, rfl⟩
    · obtain ⟨hafter, hnext⟩ := split_after ht' hpos hs
      exact ih _ hafter hnext (by rw [hall]; exact hx)

lemma length_all_le (position : Nat) (rest : List Char) : (all position rest).1.length ≤ rest.length := by
  fun_induction all position rest with
  | case1 => exact Nat.zero_le _
  | case2 => exact Nat.zero_le _
  | case3 position rest t here hf y xs stop hall ih =>
    have hlt := Token.length_drop_lt_of_find hf (length_pos (Token.start?_of_find hf).1)
    rw [hall] at ih
    exact Nat.succ_le_of_lt (ih.trans_lt hlt)

lemma length_ofExpression_le (expression : String) :
    (ofExpression expression).1.length ≤ Text.byteLength expression.toList := by
  rw [← Text.byteLength_upper]
  exact (length_all_le 0 _).trans (Text.length_le_byteLength _)

lemma occurs_of_mem_ofExpression {expression : String} {x : Lexeme}
    (h : x ∈ (ofExpression expression).1) : x.Occurs (Text.upper expression.toList) :=
  occurs_of_mem 0 _ [] rfl rfl h

def Stop.position : Stop → Nat
  | .finish p => p
  | .unknown p => p

lemma position_of_find {position p : Nat} {rest : List Char}
    (h : Token.find position rest = .finish p ∨ Token.find position rest = .unknown p) :
    p = position + (rest.takeWhile Text.isBlank).length := by
  simp only [Token.find] at h
  split at h
  · rcases h with h | h <;> cases h
    rfl
  · split at h <;> rcases h with h | h <;> cases h
    rfl

def offsets (lexemes : List Lexeme × Stop) : List Nat :=
  lexemes.1.map (fun x => x.token.position) ++ [lexemes.2.position]

lemma pairwise_offsets_all (position : Nat) (rest : List Char) :
    (∀ p ∈ offsets (all position rest), position ≤ p) ∧
      (offsets (all position rest)).Pairwise (· < ·) := by
  have hstop (position p : Nat) (hp : position ≤ p) :
      (∀ q ∈ [p], position ≤ q) ∧ [p].Pairwise (· < ·) :=
    ⟨List.forall_mem_singleton.2 hp, List.pairwise_singleton ..⟩
  fun_induction all position rest with
  | case1 position rest p hf => exact hstop position p (position_of_find (.inl hf) ▸ Nat.le_add_right ..)
  | case2 position rest p hf => exact hstop position p (position_of_find (.inr hf) ▸ Nat.le_add_right ..)
  | case3 position rest t here hf y xs stop hall ih =>
    obtain ⟨hle, hlt⟩ := hall ▸ ih
    obtain ⟨hs, -, -⟩ := Token.start?_of_find hf
    have hpos := (Token.start?_text hs).1
    have hnext (p : Nat) (hp : p ∈ offsets (xs, stop)) : t.position < p :=
      (Nat.lt_add_of_pos_right (length_pos hs)).trans_le (hle p hp)
    have hhere : position ≤ t.position := hpos ▸ Nat.le_add_right ..
    exact ⟨List.forall_mem_cons.2 ⟨hhere, fun p hp => hhere.trans (hnext p hp).le⟩,
      List.pairwise_cons.2 ⟨hnext, hlt⟩⟩

lemma pairwise_offsets (expression : String) : (offsets (ofExpression expression)).Pairwise (· < ·) :=
  (pairwise_offsets_all 0 _).2

lemma dropBytes?_of_find {text rest before : List Char} {position p : Nat}
    (ht : text = before ++ rest) (hp : position = Text.byteLength before)
    (h : Token.find position rest = .finish p ∨ Token.find position rest = .unknown p) :
    (Text.dropBytes? p text).isSome = true := by
  have hpos : p = Text.byteLength (before ++ rest.takeWhile Text.isBlank) := by
    rw [Text.byteLength_append, byteLength_blanks, ← hp]
    exact position_of_find h
  have hsplit : text = before ++ rest.takeWhile Text.isBlank ++ rest.dropWhile Text.isBlank := by
    rw [List.append_assoc, List.takeWhile_append_dropWhile, ht]
  rw [hpos, hsplit, Text.dropBytes?_append]
  rfl

lemma dropBytes?_stop {text : List Char} (position : Nat) (rest before : List Char)
    (ht : text = before ++ rest) (hp : position = Text.byteLength before) :
    (Text.dropBytes? (all position rest).2.position text).isSome = true := by
  fun_induction all position rest generalizing before with
  | case1 position rest p hf => exact dropBytes?_of_find ht hp (.inl hf)
  | case2 position rest p hf => exact dropBytes?_of_find ht hp (.inr hf)
  | case3 position rest t here hf y xs stop hall ih =>
    obtain ⟨ht', hpos, hs⟩ := split_of_find ht hp hf
    obtain ⟨hafter, hnext⟩ := split_after ht' hpos hs
    have hi := ih _ hafter hnext
    rwa [hall] at hi

lemma dropBytes?_stop_ofExpression (expression : String) :
    (Text.dropBytes? (ofExpression expression).2.position (Text.upper expression.toList)).isSome =
      true :=
  dropBytes?_stop 0 _ [] rfl rfl

namespace Occurs

variable {text : List Char} {x : Lexeme}

lemma slice_token (h : x.Occurs text) :
    Text.slice? text x.token.position x.token.length = some x.token.text := by
  obtain ⟨before, here, rfl, hp, hs, -⟩ := h
  obtain ⟨-, hl, ha, after, rfl⟩ := Token.start?_text hs
  rw [hp, hl, ← Text.byteLength_of_ascii ha, Text.slice?_append]

lemma scan_numeral (h : x.Occurs text) {n : Numeral} (hn : x.symbol = .numeral n) :
    Numeral.scanAt? text x.token.position = some n ∧
      Text.slice? text x.token.position n.text.length = some n.text := by
  obtain ⟨before, here, rfl, hp, hs, hx⟩ := h
  have hscan : (Numeral.scan here).1 = n := Token.scan_of_symbol (hx ▸ hn)
  have hd : Text.dropBytes? x.token.position (before ++ here) = some here := by
    rw [hp, Text.dropBytes?_append]
  refine ⟨by rw [Numeral.scanAt?, hd, ← hscan]; rfl, ?_⟩
  have ha := Text.byteLength_of_ascii (Numeral.ascii_scan here)
  rw [hscan] at ha
  have ht := Numeral.text_scan here
  rw [hscan] at ht
  rw [hp, ← ha, ← ht, Text.slice?_append]

end Occurs

end Lexeme

end FormulaCode
