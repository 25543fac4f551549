import FormulaCode.Proofs.Decimals
import FormulaCode.Proofs.Decoding

/-! A listing has one line for each instruction and is as good as the bytes: programs with the same listing
differ at most in the bits of literals that are no numbers. -/

namespace FormulaCode

lemma append_inj_of_class {p : Char → Bool} {front front' rest rest' : List Char}
    (hf : ∀ c ∈ front, p c = true) (hf' : ∀ c ∈ front', p c = true) (hr : ∀ c ∈ rest.head?, p c = false)
    (hr' : ∀ c ∈ rest'.head?, p c = false) (h : front ++ rest = front' ++ rest') :
    front = front' ∧ rest = rest' := by
  have htake {a b : List Char} (ha : ∀ c ∈ a, p c = true) (hb : ∀ c ∈ b.head?, p c = false) :
      (a ++ b).takeWhile p = a := by
    rw [List.takeWhile_append_of_pos ha]
    cases b with
    | nil => rw [List.takeWhile_nil, List.append_nil]
    | cons c b => rw [List.takeWhile_cons_of_neg (by simp [hb c rfl]), List.append_nil]
  obtain rfl : front = front' := by rw [← htake hf hr, h, htake hf' hr']
  exact ⟨rfl, List.append_cancel_left h⟩

lemma append_cons_inj {a : Char} {front front' rest rest' : List Char} (hf : a ∉ front) (hf' : a ∉ front')
    (h : front ++ a :: rest = front' ++ a :: rest') : front = front' ∧ rest = rest' := by
  have hclass {cs : List Char} (hcs : a ∉ cs) : ∀ c ∈ cs, (c != a) = true := fun c hc =>
    bne_iff_ne.2 (ne_of_mem_of_not_mem hc hcs)
  obtain ⟨hfront, hrest⟩ := append_inj_of_class (hclass hf) (hclass hf') (by simp) (by simp) h
  exact ⟨hfront, (List.cons.inj hrest).2⟩

lemma texts_eq_of_flatMap {ts us : List (List Char)} (ht : ∀ t ∈ ts, '\n' ∉ t) (hu : ∀ u ∈ us, '\n' ∉ u)
    (h : ts.flatMap (· ++ ['\n']) = us.flatMap (· ++ ['\n'])) : ts = us := by
  induction ts generalizing us with
  | nil =>
    cases us with
    | nil => rfl
    | cons u us => simp at h
  | cons t ts ih =>
    cases us with
    | nil => simp at h
    | cons u us =>
      obtain ⟨ht₁, ht₂⟩ := List.forall_mem_cons.1 ht
      obtain ⟨hu₁, hu₂⟩ := List.forall_mem_cons.1 hu
      simp only [List.flatMap_cons, List.append_assoc, List.singleton_append] at h
      obtain ⟨rfl, hrest⟩ := append_cons_inj ht₁ hu₁ h
      rw [ih ht₂ hu₂ hrest]

namespace Opcode

lemma find?_mnemonic (op : Opcode) : all.find? (·.mnemonic == op.mnemonic) = some op := by
  cases op with
  | constant c => cases c <;> decide
  | unary f => cases f <;> decide
  | binary f => cases f <;> decide
  | _ => decide

lemma mnemonic_injective {a b : Opcode} (h : a.mnemonic = b.mnemonic) : a = b := by
  have ha := find?_mnemonic a
  rw [h, find?_mnemonic b] at ha
  exact (Option.some.inj ha).symm

lemma notMem_mnemonic {c : Char} (hc : Text.isBlank c = true) (op : Opcode) : c ∉ op.mnemonic.toList := by
  have hall : op.mnemonic.toList.all (fun c => !Text.isBlank c) = true := by
    cases op with
    | constant c => cases c <;> decide
    | unary f => cases f <;> decide
    | binary f => cases f <;> decide
    | _ => decide
  intro h
  simpa [hc] using List.all_eq_true.1 hall c h

end Opcode

lemma mnemonic_byte (op : Opcode) : mnemonic op.byte = op.mnemonic := by
  rw [mnemonic, Opcode.ofByte?_byte]
  rfl

lemma ofDigitChars_padOffset (n : Nat) : Nat.ofDigitChars 10 (padOffset n) 0 = n := by
  rw [padOffset, Nat.ofDigitChars_append, Nat.ofDigitChars_replicate_zero, Nat.mul_zero,
    Nat.ofDigitChars_toDigits (by decide) le_rfl]

lemma isDigit_of_mem_padOffset {n : Nat} {c : Char} (h : c ∈ padOffset n) : c.isDigit = true := by
  rcases List.mem_append.1 h with hz | hd
  · rw [List.eq_of_mem_replicate hz]
    rfl
  · exact Double.isDigit_of_mem hd

lemma notMem_padOffset {c : Char} (hc : c.isDigit = false) (n : Nat) : c ∉ padOffset n := by
  intro h
  rw [isDigit_of_mem_padOffset h] at hc
  cases hc

namespace Line

variable {l m : Line} {t : List Char}

inductive Written : Line → List Char → Prop
  | plain {offset : Nat} {op : Opcode} (h : op.operandSize = 0) :
    Written ⟨offset, op.byte, .none⟩ (padOffset offset ++ ' ' :: ' ' :: op.mnemonic.toList)
  | fetch {offset : Nat} {index : UInt8} {c : Char} (hc : c.isUpper = true)
    (h : c.toNat = 'A'.toNat + index.toNat) :
    Written ⟨offset, Opcode.fetch.byte, .index index⟩
      (padOffset offset ++ ' ' :: ' ' :: (Opcode.fetch.mnemonic.toList ++ [' ', c]))
  | literal {offset : Nat} {x : Double} :
    Written ⟨offset, Opcode.literal.byte, .literal x⟩
      (padOffset offset ++ ' ' :: ' ' :: (Opcode.literal.mnemonic.toList ++ ' ' :: x.display.toList))

/-- The same line, but for the bits of a literal that is no number. -/
inductive Agrees : Line → Line → Prop
  | same {l : Line} : Agrees l l
  | payload {offset : Nat} {x y : Double} (hx : x.isNaN = true) (hy : y.isNaN = true) :
    Agrees ⟨offset, Opcode.literal.byte, .literal x⟩ ⟨offset, Opcode.literal.byte, .literal y⟩

lemma Agrees.text?_eq (h : Agrees l m) : l.text? = m.text? := by
  cases h with
  | same => rfl
  | payload hx hy => rw [text?, text?, Operand.text?, Operand.text?, Double.display_eq_iff.2 (.inr ⟨hx, hy⟩)]

namespace Written

lemma text?_eq (h : l.Written t) : l.text? = some (String.ofList t) := by
  cases h with
  | plain h => simp [text?, Operand.text?, mnemonic_byte]
  | @fetch offset index c hc h =>
    have hle : c.toNat ≤ 90 := by
      simp only [Char.isUpper, decide_eq_true_eq] at hc
      exact hc.2
    have hletter : letter? index = some c := by
      rw [letter?, if_pos (by rw [show 65 + index.toNat = c.toNat from h.symm]; omega),
        show 65 + index.toNat = c.toNat from h.symm, Char.ofNat_toNat]
    simp [text?, Operand.text?, mnemonic_byte, hletter]
  | literal => simp [text?, Operand.text?, mnemonic_byte]

lemma newline_notMem (h : l.Written t) : '\n' ∉ t := by
  have hpad (n : Nat) : '\n' ∉ padOffset n := notMem_padOffset (by decide) n
  have hname (op : Opcode) : '\n' ∉ op.mnemonic.toList := Opcode.notMem_mnemonic (by decide) op
  cases h with
  | plain h => simp [hpad, hname]
  | @fetch offset index c hc h =>
    have hne : '\n' ≠ c := by
      rintro rfl
      cases hc
    simp [hpad, hname, hne]
  | literal =>
    have hx (x : Double) : '\n' ∉ x.display.toList := fun hn =>
      absurd (Double.isBlank_of_mem_display hn) (by decide)
    simp [hpad, hname, hx]

lemma agrees {u : List Char} (hl : l.Written t) (hm : m.Written u) (h : t = u) : l.Agrees m := by
  have hpad (n : Nat) : ' ' ∉ padOffset n := notMem_padOffset (by decide) n
  have hname (op : Opcode) : ' ' ∉ op.mnemonic.toList := Opcode.notMem_mnemonic (by decide) op
  have hparts {n k : Nat} {cs ds : List Char}
      (h : padOffset n ++ ' ' :: ' ' :: cs = padOffset k ++ ' ' :: ' ' :: ds) : n = k ∧ cs = ds := by
    obtain ⟨hoffset, hrest⟩ := append_cons_inj (hpad n) (hpad k) h
    refine ⟨?_, (List.cons.inj hrest).2⟩
    rw [← ofDigitChars_padOffset n, hoffset, ofDigitChars_padOffset]
  have hplain {op : Opcode} {cs ds : List Char} (h : op.mnemonic.toList = cs ++ ' ' :: ds) : False :=
    hname op (h ▸ List.mem_append_right cs List.mem_cons_self)
  have hoperand {a b : Opcode} {cs ds : List Char}
      (h : a.mnemonic.toList ++ ' ' :: cs = b.mnemonic.toList ++ ' ' :: ds) : a = b ∧ cs = ds := by
    obtain ⟨hn, hrest⟩ := append_cons_inj (hname a) (hname b) h
    exact ⟨Opcode.mnemonic_injective (String.toList_inj.1 hn), hrest⟩
  cases hl with
  | plain =>
    cases hm with
    | plain =>
      obtain ⟨rfl, hn⟩ := hparts h
      obtain rfl := Opcode.mnemonic_injective (String.toList_inj.1 hn)
      exact .same
    | fetch => exact (hplain (hparts h).2).elim
    | literal => exact (hplain (hparts h).2).elim
  | fetch _ hc =>
    cases hm with
    | plain => exact (hplain (hparts h).2.symm).elim
    | fetch _ hd =>
      obtain ⟨rfl, hrest⟩ := hparts h
      obtain rfl := (List.cons.inj (hoperand hrest).2).1
      obtain rfl := UInt8.toNat_inj.1 (Nat.add_left_cancel (hc.symm.trans hd))
      exact .same
    | literal => cases (hoperand (hparts h).2).1
  | literal =>
    cases hm with
    | plain => exact (hplain (hparts h).2.symm).elim
    | fetch => cases (hoperand (hparts h).2).1
    | literal =>
      obtain ⟨rfl, hrest⟩ := hparts h
      rcases Double.display_eq_iff.1 (String.toList_inj.1 (hoperand hrest).2) with rfl | ⟨hx, hy⟩
      · exact .same
      · exact .payload hx hy

end Written

end Line

namespace Program

lemma exists_written (offset : Nat) (i : Instruction) :
    ∃ t, Line.Written ⟨offset, i.opcode.byte, i.operand⟩ t := by
  cases i with
  | fetch v =>
    have hletter : ∀ w : Variable, (Char.ofNat (65 + w.val)).isUpper = true ∧
        (Char.ofNat (65 + w.val)).toNat = 65 + w.val := by decide
    exact ⟨_, .fetch (hletter v).1 (by rw [toNat_variable]; exact (hletter v).2)⟩
  | literal x => exact ⟨_, .literal⟩
  | _ => exact ⟨_, .plain rfl⟩

lemma exists_texts (offset : Nat) (is : List Instruction) :
    ∃ texts, List.Forall₂ Line.Written (linesFrom offset is) texts ∧ ∀ t ∈ texts, '\n' ∉ t := by
  induction is generalizing offset with
  | nil =>
    have ht : Line.Written ⟨offset, Opcode.stop.byte, .none⟩ _ := .plain rfl
    exact ⟨[_], .cons ht .nil, List.forall_mem_singleton.2 ht.newline_notMem⟩
  | cons i is ih =>
    obtain ⟨t, ht⟩ := exists_written offset i
    obtain ⟨texts, hts, hn⟩ := ih (offset + i.size)
    exact ⟨t :: texts, .cons ht hts, List.forall_mem_cons.2 ⟨ht.newline_notMem, hn⟩⟩

lemma listing_of_written {p : Program} {texts : List (List Char)}
    (h : List.Forall₂ Line.Written p.lines texts) :
    p.listing.toList = texts.flatMap (· ++ ['\n']) := by
  rw [listing]
  generalize p.lines = ls at h
  induction h with
  | nil => rfl
  | cons hl _ ih => simp [hl.text?_eq, ← ih]

lemma bytes_lines (p : Program) : p.lines.flatMap (fun l => l.code :: l.operand.bytes) = p.bytes := by
  have hfields := congrArg (List.flatMap fun f : UInt8 × Operand => f.1 :: f.2.bytes)
    (fields_linesFrom 0 p.body)
  rw [List.flatMap_map, List.flatMap_append, List.flatMap_map] at hfields
  exact hfields

lemma length_lines (p : Program) : p.lines.length = p.body.length + 1 := by
  have hfields := congrArg List.length (fields_linesFrom 0 p.body)
  rwa [List.length_map, List.length_append, List.length_map] at hfields

lemma code_eq_stop_iff {p : Program} {k : Nat} {l : Line} (h : p.lines[k]? = some l) :
    l.code = Opcode.stop.byte ↔ k = p.body.length := by
  have hfields := congrArg (fun fs => fs[k]?) (fields_linesFrom 0 p.body)
  have hk : k < p.body.length + 1 := length_lines p ▸ (List.getElem?_eq_some_iff.1 h).1
  simp only [List.getElem?_map] at hfields
  rw [← lines, h, Option.map_some] at hfields
  rcases Nat.lt_succ_iff_lt_or_eq.1 hk with hlt | rfl
  · rw [List.getElem?_append_left (by rwa [List.length_map]), List.getElem?_map, List.getElem?_eq_getElem hlt,
      Option.map_some, Option.some_inj] at hfields
    have hcode : l.code = p.body[k].opcode.byte := congrArg Prod.fst hfields
    have hne : p.body[k].opcode ≠ .stop := by cases p.body[k] <;> simp [Instruction.opcode]
    rw [hcode]
    exact ⟨fun hb => absurd (Opcode.byte_injective hb) hne, fun hb => absurd hb hlt.ne⟩
  · rw [List.getElem?_append_right (by rw [List.length_map]), List.length_map, Nat.sub_self] at hfields
    exact ⟨fun _ => rfl, fun _ => congrArg Prod.fst (Option.some.inj hfields)⟩

lemma agrees_of_written {ls ms : List Line} {texts : List (List Char)}
    (hl : List.Forall₂ Line.Written ls texts) (hm : List.Forall₂ Line.Written ms texts) :
    List.Forall₂ Line.Agrees ls ms := by
  induction hl generalizing ms with
  | nil =>
    cases hm
    exact .nil
  | cons ht _ ih =>
    cases hm with
    | cons hu hms => exact .cons (ht.agrees hu rfl) (ih hms)

lemma filterMap_of_agrees {ls ms : List Line} (h : List.Forall₂ Line.Agrees ls ms) :
    ls.filterMap Line.text? = ms.filterMap Line.text? := by
  induction h with
  | nil => rfl
  | cons hl _ ih => rw [List.filterMap_cons, List.filterMap_cons, hl.text?_eq, ih]

lemma lines_eq_of_agrees {ls ms : List Line} (h : List.Forall₂ Line.Agrees ls ms)
    (hx : ∀ l ∈ ls, ∀ x, l.operand = .literal x → x.isNaN = false) : ls = ms := by
  induction h with
  | nil => rfl
  | cons hl _ ih =>
    obtain ⟨hx₁, hx₂⟩ := List.forall_mem_cons.1 hx
    cases hl with
    | same => rw [ih hx₂]
    | payload hnan => exact absurd hnan (by simp [hx₁ _ rfl])

lemma exists_listing (p : Program) : ∃ texts, p.listing.toList = texts.flatMap (· ++ ['\n']) ∧
    (∀ t ∈ texts, '\n' ∉ t) ∧ List.Forall₂ Line.Written p.lines texts := by
  obtain ⟨texts, h, hn⟩ := exists_texts 0 p.body
  exact ⟨texts, listing_of_written h, hn, h⟩

lemma listing_eq_iff {p q : Program} : p.listing = q.listing ↔ List.Forall₂ Line.Agrees p.lines q.lines := by
  constructor
  · intro h
    obtain ⟨texts, hp, hnp, hwp⟩ := exists_listing p
    obtain ⟨texts', hq, hnq, hwq⟩ := exists_listing q
    obtain rfl := texts_eq_of_flatMap hnp hnq (by rw [← hp, ← hq, h])
    exact agrees_of_written hwp hwq
  · intro h
    rw [listing, listing, filterMap_of_agrees h]

/-- The listing of a program that was read has a line for each instruction and one for the end mark. Two
listings are the same only if the bytes are, the bits of literals that are no numbers apart. -/
theorem listing_faithful :
    (∀ (bs : List UInt8) (p : Program), ofBytes bs = .ok p →
      bs = p.lines.flatMap (fun l => l.code :: l.operand.bytes) ∧ p.lines.length = p.body.length + 1 ∧
        (∀ k l, p.lines[k]? = some l → l.offset = ((p.lines.take k).map Line.size).sum ∧
          (l.code = Opcode.stop.byte ↔ k = p.body.length)) ∧
        ∃ texts, p.listing.toList = texts.flatMap (· ++ ['\n']) ∧ (∀ t ∈ texts, '\n' ∉ t) ∧
          List.Forall₂ Line.Written p.lines texts) ∧
      ∀ (bs cs : List UInt8) (p q : Program), ofBytes bs = .ok p → ofBytes cs = .ok q →
        (p.listing = q.listing ↔ List.Forall₂ Line.Agrees p.lines q.lines) ∧
          (p.listing = q.listing → (∀ l ∈ p.lines, ∀ x, l.operand = .literal x → x.isNaN = false) →
            bs = cs) := by
  refine ⟨fun bs p h => ?_, fun bs cs p q hp hq => ⟨listing_eq_iff, fun h hx => ?_⟩⟩
  · obtain rfl := ofBytes_eq_ok_iff.1 h
    exact ⟨p.bytes_lines.symm, p.length_lines,
      fun k l hl => ⟨p.shows_instructions.2 k l hl, code_eq_stop_iff hl⟩, exists_listing p⟩
  · obtain rfl := ofBytes_eq_ok_iff.1 hp
    obtain rfl := ofBytes_eq_ok_iff.1 hq
    rw [← bytes_lines, ← bytes_lines, lines_eq_of_agrees (listing_eq_iff.1 h) hx]

theorem listing_faithful_payload :
    listing ⟨[.literal ⟨0x7FF8000000000000⟩, .fetch 25, .binary .atan2]⟩ =
        listing ⟨[.literal ⟨0xFFF8000000000001⟩, .fetch 25, .binary .atan2]⟩ ∧
      listing ⟨[.literal ⟨0⟩, .unary .atan]⟩ ≠ listing ⟨[.literal ⟨0x8000000000000000⟩, .unary .atan]⟩ := by
  have hread (p : Program) : ofBytes p.bytes = .ok p := ofBytes_eq_ok_iff.2 rfl
  refine ⟨(listing_faithful.2 _ _ _ _ (hread _) (hread _)).1.2 ?_, fun h => ?_⟩
  · exact .cons (.payload (by decide) (by decide)) (.cons .same (.cons .same (.cons .same .nil)))
  · have hb := (listing_faithful.2 _ _ _ _ (hread _) (hread _)).2 h
      (by simp +decide [lines, linesFrom, Instruction.operand])
    exact absurd hb (by decide)

end Program

end FormulaCode
