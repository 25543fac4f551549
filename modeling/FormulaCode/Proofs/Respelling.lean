import FormulaCode.Proofs.Likeness
import FormulaCode.Proofs.Limits
import FormulaCode.Proofs.Outline

/-! Spelling does not matter: small letters and capitals, blanks between lexemes, and one name of an
operator or another all lead to the same code, or to the same violation at the same place. -/

namespace FormulaCode

namespace Text

lemma toUpper_of_ascii : ∀ n < 128, (Char.ofNat n).toLower.toUpper = (Char.ofNat n).toUpper ∧
    ((Char.ofNat n).toUpper = Char.ofNat n ∨ isUpper (Char.ofNat n).toUpper = true) := by
  decide

lemma toUpper_cases (c : Char) :
    c.toLower.toUpper = c.toUpper ∧ (c.toUpper = c ∨ isUpper c.toUpper = true) := by
  by_cases h : c.toNat < 128
  · have hc := toUpper_of_ascii c.toNat h
    rwa [Char.ofNat_toNat] at hc
  · have hle := Nat.le_of_not_lt h
    have hu : c.toUpper = c := dif_neg fun hc => absurd (hle.trans hc.2) (by decide)
    have hl : c.toLower = c := dif_neg fun hc => absurd (hle.trans hc.2) (by decide)
    rw [hl]
    exact ⟨rfl, .inl hu⟩

lemma upper_eq_of_lower {cs ds : List Char} (h : cs.map Char.toLower = ds.map Char.toLower) :
    upper cs = upper ds := by
  have hu (es : List Char) : upper es = (es.map Char.toLower).map Char.toUpper := by
    rw [upper, List.map_map]
    exact List.map_congr_left fun c _ => (toUpper_cases c).1.symm
  rw [hu cs, hu ds, h]

lemma exists_of_upper {cs before after : List Char} {c : Char} (h : upper cs = before ++ c :: after)
    (hc : isUpper c = false) :
    ∃ before' after', cs = before' ++ c :: after' ∧ byteLength before' = byteLength before := by
  obtain ⟨before', rest, rfl, rfl, hr⟩ := List.map_eq_append_iff.1 h
  obtain ⟨d, after', rfl, rfl, -⟩ := List.map_eq_cons_iff.1 hr
  refine ⟨before', after', ?_, (byteLength_upper before').symm⟩
  rw [(toUpper_cases d).2.resolve_right (by simp [hc])]

end Text

lemma Token.isUpper_of_start?_none {position : Nat} {c : Char} {cs : List Char}
    (h : start? position (c :: cs) = none) : Text.isUpper c = false := by
  by_contra hc
  rw [Bool.not_eq_false] at hc
  rw [start?.eq_def] at h
  split at h
  · cases h
  · simp [hc] at h

namespace Lexeme

variable {b : Char} {cs ds es : List Char} {d e : Element}

structure ReadAlike (cs ds : List Char) : Prop where
  symbols : List.Forall₂ Symbol.Alike (outline cs).1 (outline ds).1
  unread : (outline cs).2 = (outline ds).2

lemma readAlike_of_eq (h : outline cs = outline ds) : ReadAlike cs ds := by
  refine ⟨?_, congrArg Prod.snd h⟩
  rw [h]
  exact List.forall₂_same.2 fun x _ => .refl x

lemma ReadAlike.trans (h : ReadAlike cs ds) (h' : ReadAlike ds es) : ReadAlike cs es where
  symbols := forall₂_trans h.symbols h'.symbols fun _ _ _ hxy hyz => hxy.trans hyz
  unread := h.unread.trans h'.unread

lemma ReadAlike.blank (hb : Text.isBlank b = true) (h : ReadAlike cs ds) :
    ReadAlike (b :: cs) (b :: ds) := by
  constructor
  · rw [outline_cons_of_blank hb, outline_cons_of_blank hb]
    exact h.symbols
  · rw [outline_cons_of_blank hb, outline_cons_of_blank hb]
    exact h.unread

lemma ReadAlike.append (hb : IsBoundary b) (h : ReadAlike (b :: ds) (b :: es)) (cs : List Char) :
    ReadAlike (cs ++ b :: ds) (cs ++ b :: es) := by
  induction cs using reading_induction with
  | nil => exact h
  | blank c cs hc ih => exact ih.blank hc
  | unknown cs hne hc hs =>
    have hread (es : List Char) : outline (cs ++ b :: es) = ([], cs.head?) := by
      rw [outline_of_none (solid_append hc hne _) (by simp) ((Token.start?_append hb es 0 hne).trans hs),
        List.head?_append_of_ne_nil _ hne]
    exact readAlike_of_eq (by rw [hread, hread])
  | lexeme cs t hne hc hs ih =>
    have hle := length_le hs
    have hread (es : List Char) : outline (cs ++ b :: es) =
        let next := outline (cs.drop (length ⟨t, t.symbol cs⟩) ++ b :: es)
        (t.symbol cs :: next.1, next.2) := by
      rw [outline_of_some (solid_append hc hne _) ((Token.start?_append hb es 0 hne).trans hs),
        Token.symbol_append hb, List.drop_append_of_le_length hle]
    constructor
    · rw [hread, hread]
      exact .cons (.refl _) ih.symbols
    · rw [hread, hread]
      exact ih.unread

end Lexeme

/-- Names of the same operation: entries of the table that differ in nothing but their texts. -/
structure Element.Alias (d e : Element) : Prop where
  known : d ∈ table ∧ e ∈ table
  kind_ne : d.kind ≠ .numeral
  alike : d.Alike e

instance (d e : Element) : Decidable (d.Alias e) :=
  decidable_of_iff ((d ∈ Element.table ∧ e ∈ Element.table) ∧ d.kind ≠ .numeral ∧
      d.stackPriority = e.stackPriority ∧ d.arrivalPriority = e.arrivalPriority ∧ d.kind = e.kind ∧
        d.code = e.code)
    ⟨fun h => ⟨h.1, h.2.1, h.2.2.1, h.2.2.2.1, h.2.2.2.2.1, h.2.2.2.2.2⟩,
      fun h =>
        ⟨h.known, h.kind_ne, h.alike.stackPriority, h.alike.arrivalPriority, h.alike.kind, h.alike.code⟩⟩

lemma Element.alias_names : ∀ p ∈ [(operator "#" 3 .ne, operator "!=" 3 .ne),
      (operator "=" 3 .eq, operator "==" 3 .eq), (operator "^" 6 .pow, operator "**" 6 .pow),
      (function "SQR" (.unary .sqrt), function "SQRT" (.unary .sqrt)),
      (function "LN" (.unary .ln), function "LOGE" (.unary .ln)),
      (operator "AND" 2 .bitAnd, operator "&" 2 .bitAnd), (operator "OR" 1 .bitOr, operator "|" 1 .bitOr),
      (function "NOT" (.unary .bitNot), function "~" (.unary .bitNot))], p.1.Alias p.2 ∧ p.2.Alias p.1 := by
  decide

lemma Element.Alike.symbol {d e : Element} (h : d.Alike e) (hk : d.kind ≠ .numeral) :
    d.symbol.Alike e.symbol := by
  rw [Element.symbol, Element.symbol, Token.symbol, Token.symbol, ← h.kind, ← h.code]
  cases hd : d.kind with
  | unary => exact .unary h
  | binary => exact .binary h
  | numeral => exact absurd hd hk
  | _ => exact .refl _

namespace Lexeme

variable {cs ds : List Char} {d e : Element}

lemma outline_pattern (he : e ∈ Element.table) (hk : e.kind ≠ .numeral)
    (hd : ∀ w ∈ ds.head?, Text.isBlank w = true) :
    outline (e.pattern.toList ++ ds) = (e.symbol :: (outline ds).1, (outline ds).2) := by
  have hne := Element.table_pattern_ne_nil e he
  have hstart : Token.start? 0 e.pattern.toList = some ⟨e, 0, 0, e.pattern.toList.length⟩ := by
    rw [Token.start?.eq_def, Element.first?_pattern e he]
  have hs : Token.start? 0 (e.pattern.toList ++ ds) = some ⟨e, 0, 0, e.pattern.toList.length⟩ := by
    cases ds with
    | nil => rwa [List.append_nil]
    | cons w ds => rwa [Token.start?_append (isBoundary_of_isBlank (hd w rfl)) ds 0 hne]
  have hsolid : (e.pattern.toList ++ ds).takeWhile Text.isBlank = [] := by
    have hb := Element.isBlank_pattern e he
    obtain ⟨c, cs, hc⟩ := List.exists_cons_of_ne_nil hne
    rw [hc, List.any_cons, Bool.or_eq_false_iff] at hb
    simp [hc, hb.1]
  rw [outline_of_some hsolid hs, length_eq_of_kind_ne _ hk, Token.symbol_of_kind hk, List.drop_left]

lemma readAlike_alias (h : d.Alias e) (hd : ∀ w ∈ ds.head?, Text.isBlank w = true) :
    ReadAlike (d.pattern.toList ++ ds) (e.pattern.toList ++ ds) := by
  have hk : e.kind ≠ .numeral := h.alike.kind ▸ h.kind_ne
  constructor
  · rw [outline_pattern h.known.1 h.kind_ne hd, outline_pattern h.known.2 hk hd]
    exact .cons (h.alike.symbol h.kind_ne) (List.forall₂_same.2 fun x _ => .refl x)
  · rw [outline_pattern h.known.1 h.kind_ne hd, outline_pattern h.known.2 hk hd]

end Lexeme

inductive Respells : List Char → List Char → Prop
  | letters {cs ds : List Char} (h : cs.map Char.toLower = ds.map Char.toLower) : Respells cs ds
  | blank {cs ds : List Char} {w : Char} (hw : Text.isBlank w = true)
    (h : Lexeme.Uncut (Text.upper cs) (Text.upper ds)) : Respells (cs ++ ds) (cs ++ w :: ds)
  | renamed {d e : Element} {before word word' after : List Char} (h : d.Alias e)
    (hd : Text.upper word = d.pattern.toList) (he : Text.upper word' = e.pattern.toList)
    (hb : ∀ w ∈ before.getLast?, Text.isBlank w = true) (ha : ∀ w ∈ after.head?, Text.isBlank w = true) :
    Respells (before ++ word ++ after) (before ++ word' ++ after)

lemma Respells.readAlike {cs ds : List Char} (h : Respells cs ds) :
    Lexeme.ReadAlike (Text.upper cs) (Text.upper ds) := by
  cases h with
  | letters h => exact Lexeme.readAlike_of_eq (by rw [Text.upper_eq_of_lower h])
  | @blank cs ds w hw h =>
    apply Lexeme.readAlike_of_eq
    have hi := Lexeme.outline_insert hw (Text.upper cs) h
    simp only [Text.upper, List.map_append, List.map_cons, Text.toUpper_of_isBlank hw] at hi ⊢
    exact hi.symm
  | @renamed d e before word word' after h hd he hb ha =>
    have hafter : ∀ w ∈ (Text.upper after).head?, Text.isBlank w = true := by
      rw [Text.upper, List.head?_map]
      intro w hw
      obtain ⟨v, hv, rfl⟩ := Option.mem_map.1 hw
      rw [Text.toUpper_of_isBlank (ha v hv)]
      exact ha v hv
    have hword := Lexeme.readAlike_alias h hafter
    simp only [Text.upper, List.map_append] at hd he hword ⊢
    rw [hd, he]
    -- Unless the name starts the text, the blank before it is where the reading of what precedes it ends.
    rcases List.eq_nil_or_concat before with rfl | ⟨init, w, rfl⟩
    · exact hword
    · have hw : Text.isBlank w = true := hb w (by simp)
      simp only [List.concat_eq_append, List.map_append, List.map_singleton, Text.toUpper_of_isBlank hw,
        List.append_assoc, List.singleton_append]
      exact (hword.blank hw).append (isBoundary_of_isBlank hw) _

lemma readAlike_of_respelled {cs ds : List Char} (h : Relation.ReflTransGen Respells cs ds) :
    Lexeme.ReadAlike (Text.upper cs) (Text.upper ds) := by
  induction h with
  | refl => exact Lexeme.readAlike_of_eq rfl
  | tail _ hr ih => exact ih.trans hr.readAlike

/-- Offsets into two texts where the same stands: the starts of lexemes with the same number, the ends of
the texts, or the same character that starts no lexeme, with as many lexemes before it. -/
inductive SamePlace (e e' : String) : Nat → Nat → Prop
  | lexeme {i : Nat} {x y : Lexeme} (hx : (Lexeme.ofExpression e).1[i]? = some x)
    (hy : (Lexeme.ofExpression e').1[i]? = some y) : SamePlace e e' x.token.position y.token.position
  | finish : SamePlace e e' (Text.byteLength e.toList) (Text.byteLength e'.toList)
  | unknown {c : Char} {before after before' after' : List Char} (he : e.toList = before ++ c :: after)
    (he' : e'.toList = before' ++ c :: after')
    (hu : (Lexeme.ofExpression e).2 = .unknown (Text.byteLength before))
    (hu' : (Lexeme.ofExpression e').2 = .unknown (Text.byteLength before'))
    (hl : (Lexeme.ofExpression e).1.length = (Lexeme.ofExpression e').1.length) :
    SamePlace e e' (Text.byteLength before) (Text.byteLength before')

namespace Lexeme

variable {e e' : String}

lemma exists_unread {p : Nat} (h : (ofExpression e).2 = .unknown p) :
    ∃ before c after, e.toList = before ++ c :: after ∧ p = Text.byteLength before ∧
      (outline (Text.upper e.toList)).2 = some c := by
  obtain ⟨before, c, after, hu, rfl, -, hs⟩ := exists_of_unknown h
  obtain ⟨before', after', he, hb⟩ := Text.exists_of_upper hu (Token.isUpper_of_start?_none hs)
  refine ⟨before', c, after', he, hb.symm, ?_⟩
  rw [ofExpression] at h
  rw [outline, h, hu]
  simp [Text.dropBytes?_append]

lemma ReadAlike.lexemes (h : ReadAlike (Text.upper e.toList) (Text.upper e'.toList)) :
    List.Forall₂ (Alike (SamePlace e e')) (ofExpression e).1 (ofExpression e').1 := by
  have hs : List.Forall₂ Symbol.Alike ((ofExpression e).1.map symbol) ((ofExpression e').1.map symbol) :=
    h.symbols
  rw [List.forall₂_map_left_iff, List.forall₂_map_right_iff, List.forall₂_iff_get] at hs
  refine List.forall₂_iff_get.2 ⟨hs.1, fun i hi hj => ⟨hs.2 i hi hj, ?_⟩⟩
  exact .lexeme (List.getElem?_eq_getElem hi) (List.getElem?_eq_getElem hj)

lemma ReadAlike.stops (h : ReadAlike (Text.upper e.toList) (Text.upper e'.toList)) :
    (ofExpression e).2.Alike (SamePlace e e') (ofExpression e').2 := by
  have hl : (ofExpression e).1.length = (ofExpression e').1.length := h.lexemes.length_eq
  have hfinish {e : String} {p : Nat} (hp : (ofExpression e).2 = .finish p) :
      (outline (Text.upper e.toList)).2 = none := by
    rw [ofExpression] at hp
    rw [outline, hp]
  have hu := h.unread
  cases hp : (ofExpression e).2 with
  | finish p =>
    rw [hfinish hp] at hu
    cases hq : (ofExpression e').2 with
    | finish q =>
      rw [position_eq_of_finish hp, position_eq_of_finish hq]
      exact .finish .finish
    | unknown q =>
      obtain ⟨-, c, -, -, -, hc⟩ := exists_unread hq
      rw [hc] at hu
      cases hu
  | unknown p =>
    obtain ⟨before, c, after, he, rfl, hc⟩ := exists_unread hp
    rw [hc] at hu
    cases hq : (ofExpression e').2 with
    | finish q =>
      rw [hfinish hq] at hu
      cases hu
    | unknown q =>
      obtain ⟨before', d, after', he', rfl, hd⟩ := exists_unread hq
      rw [hd] at hu
      cases hu
      exact .unknown (.unknown he he' hp hq hl)

end Lexeme

section Respelled

variable {o : Options} {e e' : String}

lemma Compilation.breaches_eq_nil_congr
    (h : effectsOf (ofExpression o e).events = effectsOf (ofExpression o e').events) :
    (ofExpression o e).breaches = [] ↔ (ofExpression o e').breaches = [] := by
  rw [breaches_eq_nil_iff, breaches_eq_nil_iff, ← quiet_effectsOf, h, quiet_effectsOf]

lemma byteLength_of_breaches (h : (Compilation.ofExpression o e).breaches ≠ []) :
    2 ^ 31 ≤ Text.byteLength e.toList := by
  obtain ⟨b, hb⟩ := List.exists_mem_of_ne_nil _ h
  exact (Compilation.counterRange_of_mem_breaches hb).2

/-- However a text is respelled, it compiles to the same program, or fails in the same way after the same
code and at the same place, unless the counters of the compiler are too small for it. -/
theorem compile_respelled (h : Relation.ReflTransGen Respells e.toList e'.toList) :
    (∃ p, compile o e = .program p ∧ compile o e' = .program p) ∨
      (∃ f f', compile o e = .failure f ∧ compile o e' = .failure f' ∧ f'.error.kind = f.error.kind ∧
        f'.emitted = f.emitted ∧ SamePlace e e' f.error.position f'.error.position) ∨
      (2 ^ 31 ≤ Text.byteLength e.toList ∧ 2 ^ 31 ≤ Text.byteLength e'.toList ∧
        compile o e = .breach .counterRange ∧ compile o e' = .breach .counterRange) := by
  have ha := readAlike_of_respelled h
  obtain ⟨he, hr⟩ := Compilation.alike_ofExpression (o := o) rfl rfl ha.lexemes ha.stops
  have hbreaches := Compilation.breaches_eq_nil_congr he
  have hem : (Compilation.ofExpression o e').emissions = (Compilation.ofExpression o e).emissions := by
    rw [Compilation.emissions_eq, Compilation.emissions_eq, he]
  by_cases hb : (Compilation.ofExpression o e).breaches = []
  · have hb' := hbreaches.1 hb
    generalize hre : (Compilation.ofExpression o e).result = r at hr
    generalize hre' : (Compilation.ofExpression o e').result = r' at hr
    cases hr with
    | ok =>
      left
      obtain ⟨-, es, -, hes⟩ := Compilation.accepted_of_result hre
      have hes' := hem.trans hes
      exact ⟨_, compile_eq_program_iff.2 ⟨hb, hre, Compilation.program_of_emissions hes⟩,
        compile_eq_program_iff.2 ⟨hb', hre', Compilation.program_of_emissions hes'⟩⟩
    | @error k p q hpq =>
      right
      left
      exact ⟨⟨⟨k, p⟩, _⟩, ⟨⟨k, q⟩, _⟩, compile_eq_failure_iff.2 ⟨hb, hre, rfl⟩,
        compile_eq_failure_iff.2 ⟨hb', hre', rfl⟩, rfl, congrArg failedBytes hem, hpq⟩
  · right
    right
    have hb' := mt hbreaches.2 hb
    exact ⟨byteLength_of_breaches hb, byteLength_of_breaches hb', compile_of_breaches hb,
      compile_of_breaches hb'⟩

theorem compile_respelled_unfinished : ∃ f f', compile {} "a # b+" = .failure f ∧
    compile {} "A\t != b+" = .failure f' ∧ f'.error.kind = f.error.kind ∧ f'.emitted = f.emitted ∧
      SamePlace "a # b+" "A\t != b+" f.error.position f'.error.position := by
  have hletters : Respells "a # b+".toList "A # b+".toList := .letters (by decide)
  have hname : Respells ("A ".toList ++ "#".toList ++ " b+".toList)
      ("A ".toList ++ "!=".toList ++ " b+".toList) :=
    .renamed (Element.alias_names _ List.mem_cons_self).1 (by decide) (by decide) (by simp [Text.isBlank])
      (by simp [Text.isBlank])
  have hblank : Respells ("A".toList ++ " != b+".toList) ("A".toList ++ '\t' :: " != b+".toList) :=
    .blank (by decide) (by unfold Lexeme.Uncut; decide +kernel)
  have h : Relation.ReflTransGen Respells "a # b+".toList "A\t != b+".toList :=
    ((Relation.ReflTransGen.single hletters).tail hname).tail hblank
  rcases compile_respelled (o := {}) h with ⟨p, hp, -⟩ | hf | ⟨hlong, -⟩
  · have hc : compile {} "a # b+" = .failure ⟨⟨.missingOperand, 6⟩, [0x00, 0, Opcode.fetch.byte, 1]⟩ := by
      decide +kernel
    rw [hc] at hp
    cases hp
  · exact hf
  · exact absurd hlong (by decide)

end Respelled

end FormulaCode
