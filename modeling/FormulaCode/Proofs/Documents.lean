import FormulaCode.Proofs.Listings
import FormulaCode.CommandLine.Report

/-! The indented text of a value tells the value, whatever text follows it. So a document tells the
expression and the bytes that it was written for. -/

namespace FormulaCode

namespace Json

/-! ### Quoted texts -/

def control? (a b : Char) : Option Char :=
  ((List.range 32).find? fun n => hexDigit (n / 16) == a && hexDigit n == b).map Char.ofNat

def unescapeMark : List Char → Option (Char × List Char)
  | 'n' :: rest => some ('\n', rest)
  | 'r' :: rest => some ('\r', rest)
  | 't' :: rest => some ('\t', rest)
  | 'b' :: rest => some ('\x08', rest)
  | 'f' :: rest => some ('\x0c', rest)
  | 'u' :: _ :: _ :: a :: b :: rest => (control? a b).map (·, rest)
  | c :: rest => some (c, rest)
  | [] => none

def unescape : List Char → Option (Char × List Char)
  | '"' :: _ => none
  | '\\' :: rest => unescapeMark rest
  | c :: rest => some (c, rest)
  | [] => none

lemma control?_hexDigit {c : Char} (h : c.toNat < 32) :
    control? (hexDigit (c.toNat / 16)) (hexDigit c.toNat) = some c := by
  have hall : ∀ n < 32, (List.range 32).find? (fun k => hexDigit (k / 16) == hexDigit (n / 16) &&
      hexDigit k == hexDigit n) = some n := by decide
  rw [control?, hall _ h, Option.map_some, Char.ofNat_toNat]

lemma unescape_escape (c : Char) (rest : List Char) : unescape (escape c ++ rest) = some (c, rest) := by
  rw [escape.eq_def]
  split
  case h_8 hq hb _ _ _ _ _ =>
    split_ifs with hc
    · simp [unescape, unescapeMark, control?_hexDigit hc]
    · simp [unescape]
  all_goals rfl

lemma escape_append_inj {c d : Char} {rest rest' : List Char} (h : escape c ++ rest = escape d ++ rest') :
    c = d ∧ rest = rest' := by
  have hread := unescape_escape c rest
  rw [h, unescape_escape, Option.some_inj] at hread
  exact ⟨(congrArg Prod.fst hread).symm, (congrArg Prod.snd hread).symm⟩

lemma escape_append_ne (c : Char) (rest rest' : List Char) : escape c ++ rest ≠ '"' :: rest' := by
  intro h
  have hread := unescape_escape c rest
  rw [h] at hread
  cases hread

lemma escaped_append_inj {cs ds rest rest' : List Char}
    (h : cs.flatMap escape ++ '"' :: rest = ds.flatMap escape ++ '"' :: rest') : cs = ds ∧ rest = rest' := by
  induction cs generalizing ds with
  | nil =>
    cases ds with
    | nil => exact ⟨rfl, (List.cons.inj h).2⟩
    | cons d ds =>
      rw [List.flatMap_cons, List.append_assoc] at h
      exact absurd h.symm (escape_append_ne _ _ _)
  | cons c cs ih =>
    rw [List.flatMap_cons, List.append_assoc] at h
    cases ds with
    | nil => exact absurd h (escape_append_ne _ _ _)
    | cons d ds =>
      rw [List.flatMap_cons, List.append_assoc] at h
      obtain ⟨rfl, hrest⟩ := escape_append_inj h
      obtain ⟨rfl, htail⟩ := ih hrest
      exact ⟨rfl, htail⟩

lemma quote_append_inj {s t : String} {rest rest' : List Char} (h : quote s ++ rest = quote t ++ rest') :
    s = t ∧ rest = rest' := by
  simp only [quote, List.cons_append, List.append_assoc, List.nil_append, List.cons_inj_right] at h
  obtain ⟨hs, hrest⟩ := escaped_append_inj h
  exact ⟨String.toList_inj.1 hs, hrest⟩

/-! ### Values -/

def numeric (c : Char) : Bool := c.isDigit || "+-.e".toList.contains c

inductive Proper : Json → Prop
  | null : Proper .null
  | bool {b : Bool} : Proper (.bool b)
  | number {s : String} (hne : s.toList ≠ []) (h : ∀ c ∈ s.toList, numeric c = true) : Proper (.number s)
  | string {s : String} : Proper (.string s)
  | array {items : List Json} (h : ∀ v ∈ items, Proper v) : Proper (.array items)
  | object {members : List (String × Json)} (h : ∀ m ∈ members, Proper m.2) : Proper (.object members)

mutual

def isProper : Json → Bool
  | .number s => !s.toList.isEmpty && s.toList.all numeric
  | .array items => areProper items
  | .object members => haveProper members
  | .null | .bool _ | .string _ => true

def areProper : List Json → Bool
  | [] => true
  | v :: vs => isProper v && areProper vs

def haveProper : List (String × Json) → Bool
  | [] => true
  | (_, v) :: ms => isProper v && haveProper ms

end

lemma areProper_iff {items : List Json} : areProper items = true ↔ ∀ v ∈ items, isProper v = true := by
  induction items with
  | nil => simp [areProper]
  | cons v vs ih => simp [areProper, ih]

lemma haveProper_iff {members : List (String × Json)} :
    haveProper members = true ↔ ∀ m ∈ members, isProper m.2 = true := by
  induction members with
  | nil => simp [haveProper]
  | cons m ms ih => simp [haveProper, ih]

lemma isProper_of_proper {v : Json} (h : v.Proper) : v.isProper = true := by
  induction h with
  | number hne h =>
    rw [isProper, Bool.and_eq_true, Bool.not_eq_true', List.isEmpty_eq_false_iff, List.all_eq_true]
    exact ⟨hne, h⟩
  | array _ ih => exact areProper_iff.2 ih
  | object _ ih => exact haveProper_iff.2 ih
  | _ => rfl

/-- The indented text of a value, in which only what is spelled as a number may stand as one. -/
def pretty? (v : Json) : Option String := if v.isProper then some v.pretty else none

lemma pretty?_of_proper {v : Json} (h : v.Proper) : v.pretty? = some v.pretty := if_pos (isProper_of_proper h)

def Stops (rest : List Char) : Prop := ∀ c ∈ rest.head?, numeric c = false

lemma stops_cons {c : Char} {rest : List Char} (h : numeric c = false) : Stops (c :: rest) := by
  intro d hd
  cases hd
  exact h

section Series

variable {α : Type} {P : α → Prop} {text : α → List Char} {a : α} {as bs : List α} {rest rest' : List Char}

/-- The text of `a` tells it among all that are `P`, and where it ends. -/
def Tells (P : α → Prop) (text : α → List Char) (a : α) : Prop :=
  ∀ (b : α) (rest rest' : List Char), P b → Stops rest → Stops rest' → text a ++ rest = text b ++ rest' →
    a = b ∧ rest = rest'

def series (text : α → List Char) (as : List α) : List Char := as.flatMap fun a => ',' :: text a

lemma series_cons (a : α) (as : List α) : series text (a :: as) = ',' :: (text a ++ series text as) := rfl

lemma stops_series (as : List α) (rest : List Char) : Stops (series text as ++ '\n' :: rest) := by
  cases as with
  | nil => exact stops_cons (by decide)
  | cons a as => exact stops_cons (by decide)

lemma series_append_inj (ha : ∀ a ∈ as, Tells P text a) (hb : ∀ b ∈ bs, P b)
    (h : series text as ++ '\n' :: rest = series text bs ++ '\n' :: rest') : as = bs ∧ rest = rest' := by
  induction as generalizing bs with
  | nil =>
    cases bs with
    | nil => exact ⟨rfl, (List.cons.inj h).2⟩
    | cons b bs => exact absurd (List.cons.inj h).1 (by decide)
  | cons a as ih =>
    cases bs with
    | nil => exact absurd (List.cons.inj h).1 (by decide)
    | cons b bs =>
      obtain ⟨ha₁, ha₂⟩ := List.forall_mem_cons.1 ha
      obtain ⟨hb₁, hb₂⟩ := List.forall_mem_cons.1 hb
      simp only [series_cons, List.cons_append, List.append_assoc, List.cons_inj_right] at h
      obtain ⟨rfl, htail⟩ := ha₁ b _ _ hb₁ (stops_series as rest) (stops_series bs rest') h
      obtain ⟨rfl, hrest⟩ := ih ha₂ hb₂ htail
      exact ⟨rfl, hrest⟩

def block (text : α → List Char) (level : Nat) (close : Char) : List α → List Char
  | [] => [close]
  | a :: as => text a ++ series text as ++ newline level ++ [close]

lemma block_append_inj {level : Nat} {close : Char} (hclose : close ≠ '\n')
    (htext : ∀ a, (text a).head? = some '\n') (ha : ∀ a ∈ as, Tells P text a) (hb : ∀ b ∈ bs, P b)
    (h : block text level close as ++ rest = block text level close bs ++ rest') :
    as = bs ∧ rest = rest' := by
  have hfirst (a : α) : ∃ cs, text a = '\n' :: cs := by
    cases hc : text a with
    | nil => simpa [hc] using htext a
    | cons c cs => exact ⟨cs, by simpa [hc] using htext a⟩
  cases as with
  | nil =>
    cases bs with
    | nil => exact ⟨rfl, (List.cons.inj h).2⟩
    | cons b bs =>
      obtain ⟨cs, hcs⟩ := hfirst b
      rw [block, block, hcs] at h
      exact absurd (List.cons.inj h).1 hclose
  | cons a as =>
    cases bs with
    | nil =>
      obtain ⟨cs, hcs⟩ := hfirst a
      rw [block, block, hcs] at h
      exact absurd (List.cons.inj h).1.symm hclose
    | cons b bs =>
      obtain ⟨ha₁, ha₂⟩ := List.forall_mem_cons.1 ha
      obtain ⟨hb₁, hb₂⟩ := List.forall_mem_cons.1 hb
      simp only [block, newline, List.append_assoc, List.cons_append] at h
      obtain ⟨rfl, htail⟩ := ha₁ b _ _ hb₁ (stops_series as _) (stops_series bs _) h
      obtain ⟨rfl, hrest⟩ := series_append_inj ha₂ hb₂ htail
      exact ⟨rfl, by simpa using hrest⟩

end Series

def itemText (level : Nat) (v : Json) : List Char := newline level ++ prettyText level v

def memberText (level : Nat) (m : String × Json) : List Char :=
  newline level ++ quote m.1 ++ ':' :: ' ' :: prettyText level m.2

lemma prettyItems_cons (level : Nat) (v : Json) (vs : List Json) :
    prettyItems level (v :: vs) = itemText level v ++ series (itemText level) vs := by
  induction vs generalizing v with
  | nil => rw [prettyItems, series, List.flatMap_nil, List.append_nil, itemText]
  | cons w vs ih => rw [prettyItems, ih, series_cons, ← itemText]

lemma prettyMembers_cons (level : Nat) (m : String × Json) (ms : List (String × Json)) :
    prettyMembers level (m :: ms) = memberText level m ++ series (memberText level) ms := by
  induction ms generalizing m with
  | nil => rw [prettyMembers, series, List.flatMap_nil, List.append_nil, memberText]
  | cons n ms ih => rw [prettyMembers, ih, series_cons, ← memberText]

lemma prettyText_array (level : Nat) (items : List Json) :
    prettyText level (.array items) = '[' :: block (itemText (level + 1)) level ']' items := by
  cases items with
  | nil => rfl
  | cons v vs => rw [prettyText, prettyItems_cons, block, List.cons_append, List.cons_append]

lemma prettyText_object (level : Nat) (members : List (String × Json)) :
    prettyText level (.object members) = '\x7b' :: block (memberText (level + 1)) level '\x7d' members := by
  cases members with
  | nil => rfl
  | cons m ms => rw [prettyText, prettyMembers_cons, block, List.cons_append, List.cons_append]

def kind : Json → Nat
  | .null => 0
  | .bool _ => 1
  | .number _ => 2
  | .string _ => 3
  | .array _ => 4
  | .object _ => 5

def kindOf (c : Char) : Nat :=
  if numeric c then 2
  else match c with
    | 'n' => 0
    | 't' => 1
    | 'f' => 1
    | '"' => 3
    | '[' => 4
    | _ => 5

lemma kind_of_proper {v : Json} (hv : v.Proper) (level : Nat) :
    ∃ c cs, prettyText level v = c :: cs ∧ kindOf c = v.kind := by
  cases hv with
  | null => exact ⟨_, _, rfl, by decide⟩
  | @bool b => cases b <;> exact ⟨_, _, rfl, by decide⟩
  | @number s hne h =>
    obtain ⟨c, cs, hs⟩ := List.exists_cons_of_ne_nil hne
    rw [prettyText, hs]
    exact ⟨c, cs, rfl, if_pos (h c (hs ▸ List.mem_cons_self))⟩
  | string => exact ⟨_, _, rfl, rfl⟩
  | array => exact ⟨_, _, prettyText_array _ _, rfl⟩
  | object => exact ⟨_, _, prettyText_object _ _, rfl⟩

lemma kind_eq {v w : Json} {level : Nat} {rest rest' : List Char} (hv : v.Proper) (hw : w.Proper)
    (h : prettyText level v ++ rest = prettyText level w ++ rest') : v.kind = w.kind := by
  obtain ⟨c, cs, hc, hkv⟩ := kind_of_proper hv level
  obtain ⟨d, ds, hd, hkw⟩ := kind_of_proper hw level
  rw [hc, hd] at h
  rw [← hkv, ← hkw, (List.cons.inj h).1]

lemma tells_itemText {v : Json} {level : Nat} (h : Tells Proper (prettyText level) v) :
    Tells Proper (itemText level) v := by
  intro w rest rest' hw hr hr' heq
  rw [itemText, itemText, List.append_assoc, List.append_assoc] at heq
  exact h w rest rest' hw hr hr' (List.append_cancel_left heq)

lemma tells_memberText {m : String × Json} {level : Nat} (h : Tells Proper (prettyText level) m.2) :
    Tells (fun m => m.2.Proper) (memberText level) m := by
  rintro ⟨k, w⟩ rest rest' hw hr hr' heq
  simp only [memberText, List.append_assoc, List.cons_append] at heq
  obtain ⟨hk, htail⟩ := quote_append_inj (List.append_cancel_left heq)
  simp only [List.cons_inj_right] at htail
  obtain ⟨hv, hrest⟩ := h w rest rest' hw hr hr' htail
  exact ⟨Prod.ext hk hv, hrest⟩

lemma tells_prettyText {v : Json} (hv : v.Proper) (level : Nat) : Tells Proper (prettyText level) v := by
  induction hv generalizing level with
  | null =>
    intro w rest rest' hw _ _ heq
    have hk := kind_eq .null hw heq
    cases hw with
    | null => exact ⟨rfl, List.append_cancel_left heq⟩
    | _ => cases hk
  | @bool b =>
    intro w rest rest' hw _ _ heq
    have hk := kind_eq .bool hw heq
    cases hw with
    | @bool b' =>
      by_cases hb : b = b'
      · subst hb
        exact ⟨rfl, List.append_cancel_left heq⟩
      · cases b <;> cases b' <;> simp [prettyText] at hb heq
    | _ => cases hk
  | @number s hne hs =>
    intro w rest rest' hw hr hr' heq
    have hk := kind_eq (.number hne hs) hw heq
    cases hw with
    | @number t _ ht =>
      obtain ⟨hst, hrest⟩ := append_inj_of_class hs ht hr hr' heq
      exact ⟨congrArg Json.number (String.toList_inj.1 hst), hrest⟩
    | _ => cases hk
  | @string s =>
    intro w rest rest' hw _ _ heq
    have hk := kind_eq .string hw heq
    cases hw with
    | @string t =>
      obtain ⟨rfl, hrest⟩ := quote_append_inj heq
      exact ⟨rfl, hrest⟩
    | _ => cases hk
  | @array items h ih =>
    intro w rest rest' hw _ _ heq
    have hk := kind_eq (.array h) hw heq
    cases hw with
    | array h' =>
      rw [prettyText_array, prettyText_array] at heq
      obtain ⟨rfl, hrest⟩ := block_append_inj (by decide) (fun _ => rfl)
        (fun v hv => tells_itemText (ih v hv (level + 1))) h' (List.cons.inj heq).2
      exact ⟨rfl, hrest⟩
    | _ => cases hk
  | @object members h ih =>
    intro w rest rest' hw _ _ heq
    have hk := kind_eq (.object h) hw heq
    cases hw with
    | object h' =>
      rw [prettyText_object, prettyText_object] at heq
      obtain ⟨rfl, hrest⟩ := block_append_inj (by decide) (fun _ => rfl)
        (fun m hm => tells_memberText (ih m hm (level + 1))) h' (List.cons.inj heq).2
      exact ⟨rfl, hrest⟩
    | _ => cases hk

lemma eq_of_pretty {v w : Json} (hv : v.Proper) (hw : w.Proper) (h : v.pretty = w.pretty) : v = w := by
  have hend : Stops [] := fun c hc => by cases hc
  have heq : v.prettyText 0 ++ [] = w.prettyText 0 ++ [] := congrArg (· ++ []) (String.ofList_inj.1 h)
  exact (tells_prettyText hv 0 w [] [] hw hend hend heq).1

lemma proper_ofNat (n : Nat) : (ofNat n).Proper := by
  have hdigits : (toString n).toList = Nat.toDigits 10 n := by
    rw [Nat.toString_eq_ofList_toDigits, String.toList_ofList]
  refine .number (by rw [hdigits]; exact Nat.toDigits_ne_nil) fun c hc => ?_
  rw [hdigits] at hc
  rw [numeric, Double.isDigit_of_mem hc, Bool.true_or]

end Json

namespace Double

open Json (numeric)

lemma numeric_of_isMark {c : Char} (h : isMark c = true) : numeric c = true := by
  rw [isMark, Bool.or_eq_true, beq_iff_eq] at h
  rcases h with h | rfl
  · rw [numeric, h, Bool.true_or]
  · decide

lemma numeric_scientific (n : Nat) (k : Int) : ∀ c ∈ scientific (Nat.toDigits 10 n) k, numeric c = true := by
  have hdigits {m : Nat} : ∀ c ∈ Nat.toDigits 10 m, numeric c = true := fun c hc =>
    numeric_of_isMark (by rw [isMark, isDigit_of_mem hc, Bool.true_or])
  have hfirst : ∀ c ∈ (Nat.toDigits 10 n).take 1, numeric c = true := fun c hc =>
    hdigits c (List.mem_of_mem_take hc)
  have hrest : ∀ c ∈ (Nat.toDigits 10 n).drop 1, numeric c = true := fun c hc =>
    hdigits c (List.mem_of_mem_drop hc)
  simp only [scientific]
  refine List.forall_mem_append.2 ⟨List.forall_mem_append.2 ⟨hfirst, ?_⟩,
    List.forall_mem_cons.2 ⟨by decide, List.forall_mem_cons.2 ⟨by split <;> decide, hdigits⟩⟩⟩
  split
  · exact List.forall_mem_nil _
  · exact List.forall_mem_cons.2 ⟨by decide, hrest⟩

lemma toList_signed (x : Double) (cs : List Char) :
    (x.signed cs).toList = if x.negative then '-' :: cs else cs :=
  String.toList_ofList

lemma proper_signed (x : Double) {cs : List Char} (hne : cs ≠ []) (h : ∀ c ∈ cs, numeric c = true) :
    (Json.number (x.signed cs)).Proper := by
  refine .number ?_ ?_
  · rw [toList_signed]
    split_ifs
    · exact List.cons_ne_nil _ _
    · exact hne
  · rw [toList_signed]
    split_ifs
    · exact List.forall_mem_cons.2 ⟨by decide, h⟩
    · exact h

lemma proper_numeral? (x : Double) : (x.numeral?.elim Json.null .number).Proper := by
  have hdigits : Nat.toDigits 10 (x.shortest .toEven).digits ≠ [] := Nat.toDigits_ne_nil
  have hmark : ∀ c ∈ ".0".toList, isMark c = true := by simp [isMark]
  rw [numeral?]
  split_ifs
  · exact .null
  · refine proper_signed x ?_ ?_
    · split_ifs
      · simp only [positional]
        split_ifs <;> simp [hdigits]
      · simp [scientific]
    · split_ifs
      · exact fun c hc => numeric_of_isMark (isMark_positional hmark _ _ c hc)
      · exact numeric_scientific _ _

end Double

lemma Operand.proper_json (o : Operand) : o.json.Proper := by
  cases o with
  | none => exact .object (by simp [Json.Proper.string])
  | index i => exact .object (by simp [Json.Proper.string, Json.proper_ofNat])
  | literal x => exact .object (by simp [Json.Proper.string, Double.proper_numeral?])

lemma Line.proper_entry (l : Line) : l.entry.Proper :=
  .object (by simp [Json.Proper.string, Json.proper_ofNat, Operand.proper_json])

namespace Program

lemma proper_json (p : Program) : p.json.Proper := by
  have hbytes : (Json.array (p.bytes.map fun b => .ofNat b.toNat)).Proper :=
    .array (by simp [Json.proper_ofNat])
  have hlines : (Json.array (p.lines.map Line.entry)).Proper := .array (by simp [Line.proper_entry])
  exact .object (by simp [hbytes, hlines])

lemma proper_document (x : String) (p : Program) :
    (Json.object [("expression", .string x), ("program", p.json)]).Proper :=
  .object (by simp [Json.Proper.string, p.proper_json])

/-- What is written of a program, if every line has a text and every number of the document is spelled as
one. -/
def render? (expression : String) (p : Program) : Format → Option String
  | .listing => (p.lines.mapM Line.text?).map fun texts => String.join (texts.map (· ++ "\n"))
  | .bytes => some (" ".intercalate (p.bytes.map (hexByte lowerHex)) ++ "\n")
  | .json => (Json.object [("expression", .string expression), ("program", p.json)]).pretty?.map (· ++ "\n")

lemma mapM_text?_of_written {ls : List Line} {texts : List (List Char)}
    (h : List.Forall₂ Line.Written ls texts) :
    ls.mapM Line.text? = some (ls.filterMap Line.text?) := by
  induction h with
  | nil => rfl
  | cons hl _ ih => simp [hl.text?_eq, ih]

lemma render?_eq (x : String) (p : Program) (f : Format) : p.render? x f = some (p.render x f) := by
  cases f with
  | listing =>
    obtain ⟨texts, h, -⟩ := exists_texts 0 p.body
    rw [render?, lines, mapM_text?_of_written h]
    rfl
  | bytes => rfl
  | json =>
    rw [render?, Json.pretty?_of_proper (proper_document x p)]
    rfl

lemma eq_of_bytes {p q : Program} (h : p.bytes = q.bytes) : p = q :=
  Except.ok.inj ((ofBytes_eq_ok_iff.2 rfl).symm.trans (ofBytes_eq_ok_iff.2 h))

lemma render_json_eq_iff {x y : String} {p q : Program} :
    p.render x .json = q.render y .json ↔ x = y ∧ p.bytes = q.bytes := by
  constructor
  · intro h
    have hdocument := Json.eq_of_pretty (proper_document x p) (proper_document y q)
      ((String.append_left_inj "\n").1 h)
    have hnat : Function.Injective fun b : UInt8 => Json.ofNat b.toNat := fun b c hbc =>
      UInt8.toNat_inj.1 (Nat.repr_injective (Json.number.inj hbc))
    simp only [json, Json.object.injEq, List.cons.injEq, Prod.mk.injEq, Json.string.injEq, Json.array.injEq,
      true_and, and_true] at hdocument
    exact ⟨hdocument.1, List.map_injective_iff.2 hnat hdocument.2.1⟩
  · rintro ⟨rfl, h⟩
    rw [eq_of_bytes h]

lemma hexByte_injective {b c : UInt8} (h : hexByte lowerHex b = hexByte lowerHex c) : b = c := by
  have hdigit : ∀ m < 16, ∀ n < 16, lowerHex.getD m '0' = lowerHex.getD n '0' → m = n := by decide
  have hlist := String.ofList_inj.1 h
  have hb := b.toNat_lt
  have hc := c.toNat_lt
  have hhigh := hdigit _ (Nat.mod_lt _ (by decide)) _ (Nat.mod_lt _ (by decide)) (List.cons.inj hlist).1
  have hlow := hdigit _ (Nat.mod_lt _ (by decide)) _ (Nat.mod_lt _ (by decide))
    (List.cons.inj (List.cons.inj hlist).2).1
  exact UInt8.toNat_inj.1 (by omega)

lemma blank_notMem_hexByte (b : UInt8) : ' ' ∉ (hexByte lowerHex b).toList := by
  have hall : ∀ m < 16, ' ' ≠ lowerHex.getD m '0' := by decide
  have hdigit (n : Nat) : ' ' ≠ lowerHex.getD (n % 16) '0' := hall _ (Nat.mod_lt _ (by decide))
  simp only [hexByte, String.toList_ofList, List.mem_cons, List.not_mem_nil, or_false, not_or]
  exact ⟨hdigit _, hdigit _⟩

lemma render_bytes_eq_iff {x y : String} {p q : Program} :
    p.render x .bytes = q.render y .bytes ↔ p.bytes = q.bytes := by
  constructor
  · intro h
    have hpairs := congrArg String.toList ((String.append_left_inj "\n").1 h)
    rw [String.toList_intercalate, String.toList_intercalate, List.map_map, List.map_map] at hpairs
    have hsplit (p : Program) :
        (List.intercalate " ".toList (p.bytes.map (String.toList ∘ hexByte lowerHex))).splitOn ' ' =
        p.bytes.map (String.toList ∘ hexByte lowerHex) := by
      apply List.splitOn_intercalate
      · simp [blank_notMem_hexByte]
      · simp [bytes]
    have hinj : Function.Injective (String.toList ∘ hexByte lowerHex) := fun b c hbc =>
      hexByte_injective (String.toList_inj.1 hbc)
    apply List.map_injective_iff.2 hinj
    rw [← hsplit p, hpairs, hsplit q]
  · intro h
    rw [eq_of_bytes h, render, render]

end Program

lemma CommandLine.report_compile (x : String) (f : Format) (o : Options) :
    (Action.compile x f o).report = compileReport o x fun p => p.render x f := rfl

lemma CommandLine.compileReport_of_program {o : Options} {x : String} {p : Program} (write : Program → String)
    (h : compile o x = .program p) :
    (compileReport o x write).exitCode = 0 ∧ (compileReport o x write).output = write p := by
  have houtcome : (Compilation.ofExpression o x).outcome = .program p := h
  unfold compileReport
  simp only [houtcome, and_self]

namespace Program

/-- A document tells its expression and its program, and so do the bytes in hexadecimal tell theirs. No
program is refused in any format, and a compiled program is written out with no error. -/
theorem render_injective :
    (∀ (x y : String) (p q : Program),
      (p.render x .json = q.render y .json ↔ x = y ∧ p.bytes = q.bytes) ∧
        (p.render x .bytes = q.render y .bytes ↔ p.bytes = q.bytes)) ∧
      (∀ (x : String) (p : Program) (f : Format), p.render? x f = some (p.render x f)) ∧
      ∀ (o : Options) (x : String) (p : Program) (f : Format), compile o x = .program p →
        (CommandLine.Action.compile x f o).report.exitCode = 0 ∧
          (CommandLine.Action.compile x f o).report.output = p.render x f := by
  refine ⟨fun x y p q => ⟨render_json_eq_iff, render_bytes_eq_iff⟩, render?_eq, fun o x p f h => ?_⟩
  rw [CommandLine.report_compile]
  exact CommandLine.compileReport_of_program _ h

theorem render_injective_quote :
    render "A\"" ⟨[.fetch 0]⟩ .json ≠ render "A\\\"" ⟨[.fetch 0]⟩ .json ∧
      compile {} "a" = .program ⟨[.fetch 0]⟩ ∧
      (CommandLine.Action.compile "a" .bytes {}).report.exitCode = 0 ∧
      (CommandLine.Action.compile "a" .bytes {}).report.output = "01 00 7f\n" := by
  have hc : compile {} "a" = .program ⟨[.fetch 0]⟩ := by decide +kernel
  obtain ⟨hcode, houtput⟩ := render_injective.2.2 {} "a" ⟨[.fetch 0]⟩ .bytes hc
  refine ⟨fun h => ?_, hc, hcode, houtput.trans (by decide)⟩
  exact absurd ((render_injective.1 _ _ _ _).1.1 h).1 (by decide)

end Program

end FormulaCode
