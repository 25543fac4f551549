import FormulaCode.Proofs.Extension

/-! What a text is read as, wherever it stands: the meanings of its lexemes, and the character that starts
none. A blank that cuts no lexeme changes nothing of it. -/

namespace FormulaCode

namespace Numeral

variable (cs ds : List Char)

-- What is scanned of a text and fits into its first part is scanned of that part alone.

lemma digits_of_fits (h : ((cs ++ ds).takeWhile Text.isDigit).length ≤ cs.length) :
    (cs ++ ds).takeWhile Text.isDigit = cs.takeWhile Text.isDigit ∧
      (cs ++ ds).dropWhile Text.isDigit = cs.dropWhile Text.isDigit ++ ds := by
  induction cs with
  | nil =>
    have hnil : ds.takeWhile Text.isDigit = [] := List.eq_nil_of_length_eq_zero (Nat.le_zero.1 h)
    have hsplit := List.takeWhile_append_dropWhile (p := Text.isDigit) (l := ds)
    rw [hnil, List.nil_append] at hsplit
    exact ⟨hnil, hsplit⟩
  | cons c cs ih =>
    by_cases hc : Text.isDigit c = true
    · simp only [List.cons_append, List.takeWhile_cons, List.dropWhile_cons, hc, if_true] at h ⊢
      obtain ⟨ht, hd⟩ := ih (Nat.le_of_succ_le_succ h)
      exact ⟨congrArg _ ht, hd⟩
    · simp [hc]

variable {cs ds}

lemma scanFraction_of_fits (h : ((scanFraction (cs ++ ds)).1.elim [] ('.' :: ·)).length ≤ cs.length) :
    scanFraction (cs ++ ds) = ((scanFraction cs).1, (scanFraction cs).2 ++ ds) := by
  rcases cs with _ | ⟨c, cs⟩
  · rcases ds with _ | ⟨d, ds⟩
    · rfl
    · by_cases hd : d = '.'
      · simp [hd, scanFraction] at h
      · simp [scanFraction, hd]
  · by_cases hc : c = '.'
    · simp only [hc, List.cons_append, scanFraction, Option.elim_some, List.length_cons] at h ⊢
      obtain ⟨ht, hd⟩ := digits_of_fits cs ds (Nat.le_of_succ_le_succ h)
      rw [ht, hd]
    · simp [scanFraction, hc]

lemma scanExponent_of_fits (h : ((Exponent.scan (cs ++ ds)).1.elim [] Exponent.text).length ≤ cs.length) :
    (Exponent.scan (cs ++ ds)).1 = (Exponent.scan cs).1 := by
  rcases cs with _ | ⟨c, _ | ⟨d, cs⟩⟩
  · rcases ds with _ | ⟨d, ds⟩
    · rfl
    by_cases hd : d = 'E'
    · rw [Exponent.scan.eq_def] at h
      split at h <;> simp_all [Exponent.text]
    · simp [Exponent.scan, hd]
  · by_cases hc : c = 'E'
    · rcases ds with _ | ⟨d, ds⟩
      · rfl
      by_cases h1 : d = '+'
      · simp [hc, h1, Exponent.scan, Exponent.text] at h
      by_cases h2 : d = '-'
      · simp [hc, h2, Exponent.scan, Exponent.text] at h
      by_cases hd : Text.isDigit d = true
      · simp [hc, h1, h2, hd, Exponent.scan, Exponent.text] at h
      · simp [hc, h1, h2, hd, Exponent.scan]
    · simp [Exponent.scan, hc]
  · by_cases hc : c = 'E'
    · by_cases h1 : d = '+'
      · obtain ⟨ht, -⟩ := digits_of_fits cs ds (by simpa [hc, h1, Exponent.scan, Exponent.text] using h)
        simp [hc, h1, Exponent.scan, ht]
      by_cases h2 : d = '-'
      · obtain ⟨ht, -⟩ := digits_of_fits cs ds (by simpa [hc, h2, Exponent.scan, Exponent.text] using h)
        simp [hc, h2, Exponent.scan, ht]
      · obtain ⟨ht, -⟩ := digits_of_fits (d :: cs) ds
          (by simpa [hc, h1, h2, Exponent.scan, Exponent.text] using h)
        rw [List.cons_append] at ht
        simp [hc, h1, h2, Exponent.scan, ht]
    · simp [Exponent.scan, hc]

lemma scan_of_fits (h : (scan (cs ++ ds)).1.text.length ≤ cs.length) :
    (scan (cs ++ ds)).1 = (scan cs).1 := by
  simp only [scan, text, List.length_append] at h ⊢
  obtain ⟨ht, hd⟩ := digits_of_fits cs ds (by omega)
  have hcs := congrArg List.length (List.takeWhile_append_dropWhile (p := Text.isDigit) (l := cs))
  rw [List.length_append] at hcs
  rw [ht, hd] at h ⊢
  have hf : scanFraction (cs.dropWhile Text.isDigit ++ ds) = _ := scanFraction_of_fits (by omega)
  have hfs := congrArg List.length (text_scanFraction (cs.dropWhile Text.isDigit))
  rw [List.length_append] at hfs
  rw [hf] at h ⊢
  dsimp only at h ⊢
  rw [scanExponent_of_fits (by omega)]

end Numeral

namespace Element

variable {e : Element} {cs ds : List Char}

lemma starts_append_of_starts (h : e.starts cs = true) (ds : List Char) : e.starts (cs ++ ds) = true :=
  List.isPrefixOf_iff_prefix.2 ((List.isPrefixOf_iff_prefix.1 h).trans (List.prefix_append _ _))

lemma first?_eq_none_of_append (h : first? table (cs ++ ds) = none) : first? table cs = none := by
  rw [first?, List.find?_eq_none] at h ⊢
  exact fun e he hs => h e he (starts_append_of_starts hs ds)

lemma first?_of_fits (h : first? table (cs ++ ds) = some e) (hl : e.pattern.toList.length ≤ cs.length) :
    first? table cs = some e := by
  rw [first?, List.find?_eq_some_iff_append] at h ⊢
  obtain ⟨hs, before, after, ht, hn⟩ := h
  refine ⟨?_, before, after, ht, fun d hd => ?_⟩
  · have hp := List.isPrefixOf_iff_prefix.1 hs
    exact List.isPrefixOf_iff_prefix.2 (List.prefix_of_prefix_length_le hp (List.prefix_append _ _) hl)
  · have hd' := hn d hd
    rw [Bool.not_eq_true'] at hd' ⊢
    by_contra hc
    rw [Bool.not_eq_false] at hc
    exact absurd (starts_append_of_starts hc ds) (by simp [hd'])

end Element

namespace Token

variable {position : Nat} {cs ds : List Char} {t : Token}

lemma start?_eq_none_of_append (h : start? position (cs ++ ds) = none) : start? position cs = none := by
  rw [start?.eq_def] at h ⊢
  cases he : Element.first? Element.table (cs ++ ds) with
  | some e => simp [he] at h
  | none =>
    rw [Element.first?_eq_none_of_append he]
    cases cs with
    | nil => rfl
    | cons c cs =>
      rw [he] at h
      exact h

lemma start?_of_fits (h : start? position (cs ++ ds) = some t) (hl : t.length ≤ cs.length) :
    start? position cs = some t := by
  have hpos := start?_length_pos h
  rw [start?.eq_def] at h ⊢
  cases he : Element.first? Element.table (cs ++ ds) with
  | some e =>
    rw [he] at h
    cases h
    rw [Element.first?_of_fits he hl]
  | none =>
    rw [he] at h
    rw [Element.first?_eq_none_of_append he]
    cases cs with
    | nil => exact absurd hl (by simpa using hpos.ne')
    | cons c cs => exact h

lemma length_of_numeral (h : start? position cs = some t) (hk : t.element.kind = .numeral) :
    t.length = 1 := by
  rw [start?.eq_def] at h
  split at h
  · rename_i e he
    cases h
    exact (Element.numeral_pattern e (List.mem_of_find?_eq_some he) hk).1
  · split at h
    · cases h
    · obtain ⟨-, h⟩ := Option.ite_none_right_eq_some.1 h
      cases h
      rfl

lemma symbol_of_fits (h : start? position (cs ++ ds) = some t)
    (hl : Lexeme.length ⟨t, t.symbol (cs ++ ds)⟩ ≤ cs.length) :
    start? position cs = some t ∧ t.symbol cs = t.symbol (cs ++ ds) := by
  by_cases hk : t.element.kind = .numeral
  · have hpos := Lexeme.length_pos h
    refine ⟨start?_of_fits h (by rw [length_of_numeral h hk]; omega), ?_⟩
    simp only [symbol, hk, Lexeme.length] at hl ⊢
    rw [Numeral.scan_of_fits hl]
  · rw [Lexeme.length_eq_of_kind_ne _ hk] at hl
    refine ⟨start?_of_fits h hl, ?_⟩
    cases hk' : t.element.kind with
    | numeral => exact absurd hk' hk
    | _ => simp only [symbol, hk']

end Token

namespace Lexeme

variable {b c : Char} {cs ds : List Char} {t : Token}

/-- What a text is read as: the meanings of its lexemes, and the character that starts none, if there is
such a one. -/
def outline (cs : List Char) : List Symbol × Option Char :=
  ((all 0 cs).1.map symbol, match (all 0 cs).2 with
    | .finish _ => none
    | .unknown p => (Text.dropBytes? p cs).bind List.head?)

lemma outline_of_all {text before : List Char} (xs : List Lexeme) (ht : text = before ++ cs) (h : all 0 text =
      (xs ++ (all (Text.byteLength before) cs).1, (all (Text.byteLength before) cs).2)) :
    outline text = (xs.map symbol ++ (outline cs).1, (outline cs).2) := by
  have hm := all_moved (Text.byteLength before) 0 cs
  rw [Nat.zero_add] at hm
  rw [outline, h, hm, outline, List.map_append, List.map_map]
  refine Prod.ext rfl ?_
  cases (all 0 cs).2 with
  | finish p => rfl
  | unknown p => simp [ht, Stop.moved, Nat.add_comm p, Text.dropBytes?_byteLength_add]

lemma all_cons_of_blank (hb : Text.isBlank b = true) (cs : List Char) :
    all 0 (b :: cs) = all (Text.byteLength [b]) cs := by
  have hsize : Text.byteLength [b] = 1 := by simp [Char.utf8Size_eq_one_iff.2 (Text.isBlank_le b hb)]
  rw [hsize]
  exact all_congr (Token.find_append_of_blank (List.forall_mem_singleton.2 hb) cs)

lemma all_of_some (hb : cs.takeWhile Text.isBlank = []) (h : Token.start? 0 cs = some t) :
    all 0 cs =
      let n := length ⟨t, t.symbol cs⟩
      (⟨t, t.symbol cs⟩ :: (all n (cs.drop n)).1, (all n (cs.drop n)).2) := by
  rw [all_of_token (Token.find_of_some hb h), (Token.start?_text h).1, Nat.zero_add]

lemma outline_cons_of_blank (hb : Text.isBlank b = true) (cs : List Char) :
    outline (b :: cs) = outline cs :=
  outline_of_all [] List.singleton_append.symm (all_cons_of_blank hb cs)

lemma outline_of_none (hb : cs.takeWhile Text.isBlank = []) (hne : cs ≠ [])
    (h : Token.start? 0 cs = none) : outline cs = ([], cs.head?) := by
  rw [outline, all_of_unknown (Token.find_of_none hb hne h)]
  cases cs <;> rfl

lemma outline_of_some (hb : cs.takeWhile Text.isBlank = []) (h : Token.start? 0 cs = some t) :
    outline cs =
      let next := outline (cs.drop (length ⟨t, t.symbol cs⟩))
      (t.symbol cs :: next.1, next.2) := by
  refine outline_of_all [⟨t, t.symbol cs⟩] (List.take_append_drop _ _).symm ?_
  rw [length_text h]
  exact all_of_some hb h

lemma solid_append (hb : cs.takeWhile Text.isBlank = []) (hne : cs ≠ []) (ds : List Char) :
    (cs ++ ds).takeWhile Text.isBlank = [] := by
  rw [List.takeWhile_append, hb]
  exact if_neg (List.length_pos_iff.2 hne).ne

@[elab_as_elim]
lemma reading_induction {P : List Char → Prop} (cs : List Char) (nil : P [])
    (blank : ∀ b cs, Text.isBlank b = true → P cs → P (b :: cs))
    (unknown : ∀ cs, cs ≠ [] → cs.takeWhile Text.isBlank = [] → Token.start? 0 cs = none → P cs)
    (lexeme : ∀ cs t, cs ≠ [] → cs.takeWhile Text.isBlank = [] → Token.start? 0 cs = some t →
      P (cs.drop (length ⟨t, t.symbol cs⟩)) → P cs) : P cs := by
  induction hn : cs.length using Nat.strong_induction_on generalizing cs with
  | h n ih =>
    subst hn
    rcases cs with _ | ⟨c, cs⟩
    · exact nil
    have hne := List.cons_ne_nil c cs
    by_cases hc : Text.isBlank c = true
    · exact blank c cs hc (ih _ (Nat.lt_succ_self _) cs rfl)
    have hb : (c :: cs).takeWhile Text.isBlank = [] := by simp [hc]
    cases hs : Token.start? 0 (c :: cs) with
    | none => exact unknown _ hne hb hs
    | some t =>
      refine lexeme _ t hne hb hs (ih _ ?_ _ rfl)
      have hpos := length_pos hs
      rw [List.length_drop, List.length_cons]
      omega

/-- The place between the two parts of a text lies inside no lexeme. -/
def Uncut (cs ds : List Char) : Prop :=
  ∀ x ∈ (all 0 (cs ++ ds)).1,
    ¬ (x.token.position < Text.byteLength cs ∧ Text.byteLength cs < x.token.position + x.length)

namespace Uncut

lemma of_all {text before : List Char} (xs : List Lexeme) (h : Uncut text ds) (ht : text = before ++ cs)
    (hall : all 0 (text ++ ds) =
      (xs ++ (all (Text.byteLength before) (cs ++ ds)).1, (all (Text.byteLength before) (cs ++ ds)).2)) :
    Uncut cs ds := by
  have hm := all_moved (Text.byteLength before) 0 (cs ++ ds)
  rw [Nat.zero_add] at hm
  intro x hx hcut
  refine h (x.moved (Text.byteLength before)) ?_ ?_
  · rw [hall, hm]
    exact List.mem_append_right _ (List.mem_map_of_mem hx)
  · have hp : (x.moved (Text.byteLength before)).token.position =
        x.token.position + Text.byteLength before := rfl
    have hl : (x.moved (Text.byteLength before)).length = x.length := rfl
    rw [hp, hl, ht, Text.byteLength_append]
    omega

lemma of_blank (hb : Text.isBlank b = true) (h : Uncut (b :: cs) ds) : Uncut cs ds :=
  h.of_all [] List.singleton_append.symm (all_cons_of_blank hb (cs ++ ds))

lemma length_le (hb : cs.takeWhile Text.isBlank = []) (hne : cs ≠ [])
    (hs : Token.start? 0 (cs ++ ds) = some t) (h : Uncut cs ds) :
    length ⟨t, t.symbol (cs ++ ds)⟩ ≤ cs.length := by
  have hx : ⟨t, t.symbol (cs ++ ds)⟩ ∈ (all 0 (cs ++ ds)).1 := by
    rw [all_of_some (solid_append hb hne ds) hs]
    exact List.mem_cons_self
  have hcut := h _ hx
  have hpos := List.length_pos_iff.2 hne
  have hbytes := Text.length_le_byteLength cs
  obtain ⟨text, after, ht, ha, hn⟩ := exists_text hs
  rw [hn, (Token.start?_text hs).1, Nat.zero_add] at hcut
  rw [hn]
  -- A longer lexeme would have all of the first part in it, which has then as many bytes as characters.
  by_contra hlong
  have hle : cs.length ≤ text.length := by omega
  have hsub := List.prefix_of_prefix_length_le (List.prefix_append _ _) ⟨after, ht.symm⟩ hle
  have hsize : Text.byteLength cs = cs.length :=
    Text.byteLength_of_ascii fun d hd => ha d (hsub.subset hd)
  omega

lemma start?_eq (hb : cs.takeWhile Text.isBlank = []) (hne : cs ≠ []) (h : Uncut cs ds) :
    Token.start? 0 (cs ++ ds) = Token.start? 0 cs := by
  cases hs : Token.start? 0 (cs ++ ds) with
  | none => exact (Token.start?_eq_none_of_append hs).symm
  | some t => exact (Token.symbol_of_fits hs (h.length_le hb hne hs)).1.symm

lemma symbol_eq (hb : cs.takeWhile Text.isBlank = []) (hne : cs ≠ [])
    (hs : Token.start? 0 cs = some t) (h : Uncut cs ds) : t.symbol (cs ++ ds) = t.symbol cs := by
  rw [← h.start?_eq hb hne] at hs
  exact (Token.symbol_of_fits hs (h.length_le hb hne hs)).2.symm

lemma of_some (hb : cs.takeWhile Text.isBlank = []) (hne : cs ≠ []) (hs : Token.start? 0 cs = some t)
    (h : Uncut cs ds) : Uncut (cs.drop (length ⟨t, t.symbol cs⟩)) ds := by
  refine h.of_all [⟨t, t.symbol cs⟩] (List.take_append_drop _ _).symm ?_
  rw [length_text hs, ← List.drop_append_of_le_length (Lexeme.length_le hs), ← h.symbol_eq hb hne hs]
  exact all_of_some (solid_append hb hne ds) ((h.start?_eq hb hne).trans hs)

end Uncut

lemma outline_insert {w : Char} (hw : Text.isBlank w = true) (cs : List Char) (h : Uncut cs ds) :
    outline (cs ++ w :: ds) = outline (cs ++ ds) := by
  have hbound := isBoundary_of_isBlank hw
  induction cs using reading_induction with
  | nil => exact outline_cons_of_blank hw ds
  | blank b cs hb ih =>
    rw [List.cons_append, List.cons_append, outline_cons_of_blank hb, outline_cons_of_blank hb]
    exact ih (h.of_blank hb)
  | unknown cs hne hb hs =>
    have hs₁ := (Token.start?_append hbound ds 0 hne).trans hs
    have hs₂ := (h.start?_eq hb hne).trans hs
    rw [outline_of_none (solid_append hb hne _) (by simp) hs₁,
      outline_of_none (solid_append hb hne _) (by simp [hne]) hs₂, List.head?_append_of_ne_nil _ hne,
      List.head?_append_of_ne_nil _ hne]
  | lexeme cs t hne hb hs ih =>
    have hs₁ := (Token.start?_append hbound ds 0 hne).trans hs
    have hs₂ := (h.start?_eq hb hne).trans hs
    have hle := length_le hs
    rw [outline_of_some (solid_append hb hne _) hs₁, outline_of_some (solid_append hb hne _) hs₂,
      Token.symbol_append hbound, h.symbol_eq hb hne hs, List.drop_append_of_le_length hle,
      List.drop_append_of_le_length hle, ih (h.of_some hb hne hs)]

end Lexeme

end FormulaCode
