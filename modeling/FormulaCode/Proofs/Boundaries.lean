import FormulaCode.Proofs.Lexing

/-! A lexeme ends where a character stands that continues none. What follows such a character has no
bearing on the lexemes before it, and lexemes depend on their offset only in their positions. -/

namespace FormulaCode

structure IsBoundary (b : Char) : Prop where
  digit : Text.isDigit b = false
  point : b ≠ '.'
  exponent : b ≠ 'E'
  sign : b ≠ '+' ∧ b ≠ '-'
  element : ∀ e ∈ Element.table, b ∉ e.pattern.toList.drop 1

lemma isBoundary_semicolon : IsBoundary ';' :=
  ⟨by decide, by decide, by decide, by decide, by decide⟩

namespace Token

variable {position p : Nat} {rest : List Char}

lemma find_of_nil (h : rest.dropWhile Text.isBlank = []) :
    find position rest = .finish (position + (rest.takeWhile Text.isBlank).length) := by
  rw [find, h]

lemma find_of_ne_nil (h : rest.dropWhile Text.isBlank ≠ []) :
    find position rest =
      match start? (position + (rest.takeWhile Text.isBlank).length) (rest.dropWhile Text.isBlank) with
      | some t => .token t (rest.dropWhile Text.isBlank)
      | none => .unknown (position + (rest.takeWhile Text.isBlank).length) := by
  obtain ⟨c, cs, hc⟩ := List.exists_cons_of_ne_nil h
  cases hs : start? (position + (rest.takeWhile Text.isBlank).length) (c :: cs) <;> simp [find, hc, hs]

lemma find_of_none (hb : rest.takeWhile Text.isBlank = []) (hne : rest ≠ [])
    (h : start? position rest = none) : find position rest = .unknown position := by
  have hd := List.takeWhile_append_dropWhile (p := Text.isBlank) (l := rest)
  rw [hb, List.nil_append] at hd
  rw [find_of_ne_nil (hd.symm ▸ hne), hb, hd]
  simp [h]

lemma find_of_some {t : Token} (hb : rest.takeWhile Text.isBlank = []) (h : start? position rest = some t) :
    find position rest = .token t rest := by
  have hd := List.takeWhile_append_dropWhile (p := Text.isBlank) (l := rest)
  rw [hb, List.nil_append] at hd
  have hne : rest ≠ [] := by
    rintro rfl
    cases h
  rw [find_of_ne_nil (hd.symm ▸ hne), hb, hd]
  simp [h]

lemma start?_of_find_unknown (h : find position rest = .unknown p) :
    rest.dropWhile Text.isBlank ≠ [] ∧ p = position + (rest.takeWhile Text.isBlank).length ∧
      start? p (rest.dropWhile Text.isBlank) = none := by
  by_cases hne : rest.dropWhile Text.isBlank = []
  · rw [find_of_nil hne] at h
    cases h
  · rw [find_of_ne_nil hne] at h
    split at h
    · cases h
    · rename_i hs
      cases h
      exact ⟨hne, rfl, hs⟩

lemma blank_of_find_finish (h : find position rest = .finish p) :
    p = position + rest.length ∧ ∀ c ∈ rest, Text.isBlank c = true := by
  by_cases hne : rest.dropWhile Text.isBlank = []
  · have ht : rest.takeWhile Text.isBlank = rest := by
      have hr := List.takeWhile_append_dropWhile (p := Text.isBlank) (l := rest)
      rwa [hne, List.append_nil] at hr
    rw [find_of_nil hne, ht] at h
    cases h
    exact ⟨rfl, List.takeWhile_eq_self_iff.1 ht⟩
  · rw [find_of_ne_nil hne] at h
    split at h <;> cases h

lemma find_append_of_blank (h : ∀ c ∈ rest, Text.isBlank c = true) (ds : List Char) :
    find position (rest ++ ds) = find (position + rest.length) ds := by
  rw [find, find, List.takeWhile_append_of_pos h, List.dropWhile_append_of_pos h, List.length_append,
    Nat.add_assoc]

lemma blanks_append (h : rest.dropWhile Text.isBlank ≠ []) (ds : List Char) :
    (rest ++ ds).takeWhile Text.isBlank = rest.takeWhile Text.isBlank ∧
      (rest ++ ds).dropWhile Text.isBlank = rest.dropWhile Text.isBlank ++ ds := by
  have hl : (rest.takeWhile Text.isBlank).length ≠ rest.length := by
    have hr := congrArg List.length (List.takeWhile_append_dropWhile (p := Text.isBlank) (l := rest))
    have hpos := List.length_pos_iff.2 h
    rw [List.length_append] at hr
    omega
  exact ⟨by rw [List.takeWhile_append, if_neg hl], by rw [List.dropWhile_append, if_neg (by simpa using h)]⟩

end Token

namespace Lexeme

variable {position p : Nat} {rest text : List Char} {t : Token}

lemma all_of_finish (h : Token.find position rest = .finish p) : all position rest = ([], .finish p) := by
  rw [all]
  split <;> simp_all

lemma all_of_unknown (h : Token.find position rest = .unknown p) :
    all position rest = ([], .unknown p) := by
  rw [all]
  split <;> simp_all

lemma all_of_token (h : Token.find position rest = .token t text) :
    all position rest =
      let next := all (t.position + length ⟨t, t.symbol text⟩) (text.drop (length ⟨t, t.symbol text⟩))
      (⟨t, t.symbol text⟩ :: next.1, next.2) := by
  rw [all]
  split <;> simp_all

lemma all_congr {position' : Nat} {rest' : List Char}
    (h : Token.find position rest = Token.find position' rest') :
    all position rest = all position' rest' := by
  cases hf : Token.find position' rest' with
  | finish p => rw [all_of_finish hf, all_of_finish (h.trans hf)]
  | unknown p => rw [all_of_unknown hf, all_of_unknown (h.trans hf)]
  | token t text => rw [all_of_token hf, all_of_token (h.trans hf)]

end Lexeme

section Boundary

variable {b : Char} (hb : IsBoundary b) (ds : List Char)

include hb

namespace Numeral

lemma digits_append (cs : List Char) :
    (cs ++ b :: ds).takeWhile Text.isDigit = cs.takeWhile Text.isDigit ∧
      (cs ++ b :: ds).dropWhile Text.isDigit = cs.dropWhile Text.isDigit ++ b :: ds := by
  induction cs with
  | nil => simp [hb.digit]
  | cons c cs ih =>
    by_cases hc : Text.isDigit c = true
    · simpa [hc] using ih
    · simp [hc]

lemma scanFraction_append (cs : List Char) :
    scanFraction (cs ++ b :: ds) = ((scanFraction cs).1, (scanFraction cs).2 ++ b :: ds) := by
  cases cs with
  | nil => simp [scanFraction, hb.point]
  | cons c cs =>
    by_cases hc : c = '.'
    · obtain ⟨ht, hd⟩ := digits_append hb ds cs
      simp [hc, scanFraction, ht, hd]
    · simp [scanFraction, hc]

lemma scanExponent_append (cs : List Char) :
    Exponent.scan (cs ++ b :: ds) = ((Exponent.scan cs).1, (Exponent.scan cs).2 ++ b :: ds) := by
  obtain ⟨hplus, hminus⟩ := hb.sign
  rcases cs with _ | ⟨c, _ | ⟨d, cs⟩⟩
  · simp [Exponent.scan, hb.exponent]
  · by_cases hc : c = 'E'
    · simp [hc, Exponent.scan, hplus, hminus, hb.digit]
    · simp [Exponent.scan, hc]
  · obtain ⟨ht, hd⟩ := digits_append hb ds cs
    by_cases hc : c = 'E'
    · by_cases h1 : d = '+'
      · simp [hc, h1, Exponent.scan, ht, hd]
      by_cases h2 : d = '-'
      · simp [hc, h2, Exponent.scan, ht, hd]
      · obtain ⟨ht, hd⟩ := digits_append hb ds (d :: cs)
        rw [List.cons_append] at ht hd
        simp [hc, h1, h2, Exponent.scan, ht, hd]
    · simp [Exponent.scan, hc]

lemma scan_append (cs : List Char) : scan (cs ++ b :: ds) = ((scan cs).1, (scan cs).2 ++ b :: ds) := by
  obtain ⟨ht, hd⟩ := digits_append hb ds cs
  simp only [scan, ht, hd, scanFraction_append hb, scanExponent_append hb]

end Numeral

lemma Element.starts_append {e : Element} (he : e ∈ table) {text : List Char} (hne : text ≠ []) :
    e.starts (text ++ b :: ds) = e.starts text := by
  rw [Bool.eq_iff_iff, starts, starts, List.isPrefixOf_iff_prefix, List.isPrefixOf_iff_prefix]
  constructor
  · intro h
    have hcut : text ++ [b] <+: text ++ b :: ds := ⟨ds, by simp⟩
    have hmem (h : text ++ [b] <+: e.pattern.toList) : b ∈ e.pattern.toList.drop 1 := by
      obtain ⟨rest, hr⟩ := h
      obtain ⟨c, cs, rfl⟩ := List.exists_cons_of_ne_nil hne
      rw [← hr]
      simp
    rcases List.prefix_or_prefix_of_prefix h hcut with h | h
    · rcases List.prefix_concat_iff.1 h with h | h
      · exact absurd (hmem (h ▸ List.prefix_refl _)) (hb.element e he)
      · exact h
    · exact absurd (hmem h) (hb.element e he)
  · exact fun h => h.trans (List.prefix_append _ _)

namespace Token

lemma start?_append (position : Nat) {text : List Char} (hne : text ≠ []) :
    start? position (text ++ b :: ds) = start? position text := by
  have hf : Element.first? Element.table (text ++ b :: ds) = Element.first? Element.table text :=
    List.find?_congr fun e he => Element.starts_append hb ds he hne
  obtain ⟨c, cs, rfl⟩ := List.exists_cons_of_ne_nil hne
  rw [start?.eq_def, start?.eq_def, hf]
  rfl

lemma symbol_append (t : Token) (text : List Char) : t.symbol (text ++ b :: ds) = t.symbol text := by
  rw [symbol, symbol, Numeral.scan_append hb]

lemma find_append_of_token {position : Nat} {rest text : List Char} {t : Token}
    (h : find position rest = .token t text) :
    find position (rest ++ b :: ds) = .token t (text ++ b :: ds) := by
  obtain ⟨hs, hne, rfl⟩ := start?_of_find h
  obtain ⟨ht, hd⟩ := blanks_append hne (b :: ds)
  rw [find_of_ne_nil (by simp [hd]), ht, hd, start?_append hb ds _ hne, hs]

lemma find_append_of_unknown {position p : Nat} {rest : List Char} (h : find position rest = .unknown p) :
    find position (rest ++ b :: ds) = .unknown p := by
  obtain ⟨hne, rfl, hs⟩ := start?_of_find_unknown h
  obtain ⟨ht, hd⟩ := blanks_append hne (b :: ds)
  rw [find_of_ne_nil (by simp [hd]), ht, hd, start?_append hb ds _ hne, hs]

end Token

namespace Lexeme

lemma all_append (position : Nat) (rest : List Char) :
    all position (rest ++ b :: ds) =
      match all position rest with
      | (xs, .unknown p) => (xs, .unknown p)
      | (xs, .finish p) => (xs ++ (all p (b :: ds)).1, (all p (b :: ds)).2) := by
  fun_induction all position rest with
  | case1 position rest p hf =>
    obtain ⟨rfl, hblank⟩ := Token.blank_of_find_finish hf
    exact all_congr (Token.find_append_of_blank hblank _)
  | case2 position rest p hf => exact all_of_unknown (Token.find_append_of_unknown hb ds hf)
  | case3 position rest t here hf y xs stop hall ih =>
    have hlen : y.length ≤ here.length := length_le (Token.start?_of_find hf).1
    rw [all_of_token (Token.find_append_of_token hb ds hf), Token.symbol_append hb,
      List.drop_append_of_le_length hlen]
    dsimp only
    rw [ih, hall]
    cases stop <;> rfl

end Lexeme

end Boundary

namespace Lexeme

lemma position_finish {text : List Char} {p : Nat} (position : Nat) (rest before : List Char)
    (ht : text = before ++ rest) (hp : position = Text.byteLength before)
    (h : (all position rest).2 = .finish p) : p = Text.byteLength text := by
  fun_induction all position rest generalizing before with
  | case1 position rest q hf =>
    cases h
    obtain ⟨rfl, hblank⟩ := Token.blank_of_find_finish hf
    rw [ht, Text.byteLength_append, ← hp, Text.byteLength_of_blank hblank]
  | case2 => cases h
  | case3 position rest t here hf y xs stop hall ih =>
    obtain ⟨ht', hpos, hs⟩ := split_of_find ht hp hf
    obtain ⟨hafter, hnext⟩ := split_after ht' hpos hs
    exact ih _ hafter hnext (by rw [hall]; exact h)

end Lexeme

section Moved

def Token.moved (k : Nat) (t : Token) : Token := { t with position := t.position + k }

def Token.Found.moved (k : Nat) : Token.Found → Token.Found
  | .finish p => .finish (p + k)
  | .unknown p => .unknown (p + k)
  | .token t text => .token (t.moved k) text

def Lexeme.moved (k : Nat) (x : Lexeme) : Lexeme := { x with token := x.token.moved k }

def Lexeme.Stop.moved (k : Nat) : Lexeme.Stop → Lexeme.Stop
  | .finish p => .finish (p + k)
  | .unknown p => .unknown (p + k)

variable (k : Nat)

lemma Token.start?_moved (position : Nat) (text : List Char) :
    start? (position + k) text = (start? position text).map (moved k) := by
  rw [start?.eq_def, start?.eq_def]
  split
  · rfl
  · split
    · rfl
    · split <;> rfl

lemma Token.find_moved (position : Nat) (rest : List Char) :
    find (position + k) rest = (find position rest).moved k := by
  have hp (n : Nat) : position + k + n = position + n + k := Nat.add_right_comm ..
  by_cases hne : rest.dropWhile Text.isBlank = []
  · rw [find_of_nil hne, find_of_nil hne, hp]
    rfl
  · rw [find_of_ne_nil hne, find_of_ne_nil hne, hp, start?_moved]
    cases start? (position + (rest.takeWhile Text.isBlank).length) (rest.dropWhile Text.isBlank) <;> rfl

lemma Lexeme.all_moved (position : Nat) (rest : List Char) :
    all (position + k) rest = ((all position rest).1.map (moved k), (all position rest).2.moved k) := by
  fun_induction all position rest with
  | case1 position rest p hf => exact all_of_finish (by rw [Token.find_moved, hf]; rfl)
  | case2 position rest p hf => exact all_of_unknown (by rw [Token.find_moved, hf]; rfl)
  | case3 position rest t here hf y xs stop hall ih =>
    have hm : Token.find (position + k) rest = .token (t.moved k) here := by
      rw [Token.find_moved, hf]
      rfl
    have hp : (t.moved k).position + y.length = t.position + y.length + k := Nat.add_right_comm ..
    rw [all_of_token hm]
    change ((moved k y) :: (all ((t.moved k).position + y.length) (here.drop y.length)).1,
      (all ((t.moved k).position + y.length) (here.drop y.length)).2) = _
    rw [hp, ih, hall]
    rfl

end Moved

namespace Lexeme

def semicolon (p : Nat) : Lexeme :=
  ⟨⟨⟨";", 0, 0, .terminator, Opcode.endExpr.byte⟩, 0, p, 1⟩, .terminator⟩

lemma all_semicolon (p : Nat) (ds : List Char) :
    all p (';' :: ds) = (semicolon p :: (all (p + 1) ds).1, (all (p + 1) ds).2) := by
  have hs : Token.start? p (';' :: ds) = some (semicolon p).token := rfl
  have hf : Token.find p (';' :: ds) = .token (semicolon p).token (';' :: ds) := by
    rw [Token.find_of_ne_nil (by simp [Text.isBlank])]
    simp [Text.isBlank, hs]
  rw [all_of_token hf]
  rfl

lemma upper_semicolon (e₁ e₂ : String) : Text.upper (e₁ ++ ";" ++ e₂).toList =
    Text.upper e₁.toList ++ ';' :: Text.upper e₂.toList := by
  simp [Text.upper]

lemma ofExpression_semicolon_of_unknown {e₁ : String} {xs : List Lexeme} {p : Nat}
    (h : ofExpression e₁ = (xs, .unknown p)) (e₂ : String) :
    ofExpression (e₁ ++ ";" ++ e₂) = (xs, .unknown p) := by
  rw [ofExpression] at h
  rw [ofExpression, upper_semicolon, all_append isBoundary_semicolon, h]

lemma ofExpression_semicolon_of_finish {e₁ : String} {xs : List Lexeme} {p : Nat}
    (h : ofExpression e₁ = (xs, .finish p)) (e₂ : String) :
    p = Text.byteLength e₁.toList ∧ ofExpression (e₁ ++ ";" ++ e₂) =
      (xs ++ semicolon p :: (ofExpression e₂).1.map (moved (p + 1)), (ofExpression e₂).2.moved (p + 1)) := by
  rw [ofExpression] at h
  refine ⟨?_, ?_⟩
  · rw [← Text.byteLength_upper]
    exact position_finish 0 (Text.upper e₁.toList) [] rfl rfl (by rw [h])
  · rw [ofExpression, upper_semicolon, all_append isBoundary_semicolon, h]
    dsimp only
    rw [all_semicolon, ← Nat.zero_add (p + 1), all_moved, Nat.zero_add]
    rfl

end Lexeme

end FormulaCode
