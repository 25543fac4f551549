import FormulaCode.Proofs.Boundaries
import FormulaCode.Proofs.Formula

namespace FormulaCode

lemma isBoundary_openParen : IsBoundary '(' := ⟨by decide, by decide, by decide, by decide, by decide⟩

lemma isBoundary_closeParen : IsBoundary ')' := ⟨by decide, by decide, by decide, by decide, by decide⟩

lemma isBoundary_comma : IsBoundary ',' := ⟨by decide, by decide, by decide, by decide, by decide⟩

namespace Element

def symbol (e : Element) : Symbol := Token.symbol ⟨e, 0, 0, 0⟩ []

lemma first?_pattern : ∀ e ∈ table, first? table e.pattern.toList = some e := by decide

lemma isBlank_pattern : ∀ e ∈ table, e.pattern.toList.any Text.isBlank = false := by decide

lemma upper_pattern : ∀ e ∈ negate :: subtract :: table,
    Text.upper e.pattern.toList = e.pattern.toList := by
  decide

end Element

lemma Token.symbol_of_kind {e : Element} (h : e.kind ≠ .numeral) (position length : Nat) (text : List Char) :
    Token.symbol ⟨e, 0, position, length⟩ text = e.symbol := by
  rw [Element.symbol, Token.symbol, Token.symbol]
  cases hk : e.kind with
  | numeral => exact absurd hk h
  | _ => rfl

namespace Lexeme

variable {b c : Char} {cs ds : List Char} {xs ys : List Symbol} {e : Element}

/-- Wherever the text stands, it is read to its end as lexemes with the given meaning. -/
def Reads (cs : List Char) (xs : List Symbol) : Prop :=
  ∀ position, (all position cs).1.map symbol = xs ∧ ∃ p, (all position cs).2 = .finish p

lemma reads_nil : Reads [] [] := by
  intro position
  rw [all_of_finish (Token.find_of_nil rfl)]
  exact ⟨rfl, _, rfl⟩

lemma reads_upper {expression : String} {p : Nat} (h : (ofExpression expression).2 = .finish p) :
    Reads (Text.upper expression.toList) ((ofExpression expression).1.map symbol) := by
  intro position
  have hm := all_moved position 0 (Text.upper expression.toList)
  rw [Nat.zero_add] at hm
  rw [hm, List.map_map]
  refine ⟨rfl, p + position, ?_⟩
  rw [ofExpression] at h
  rw [h]
  rfl

lemma Reads.append (hb : IsBoundary b) (h : Reads cs xs) (h' : Reads (b :: ds) ys) :
    Reads (cs ++ b :: ds) (xs ++ ys) := by
  intro position
  obtain ⟨hx, p, hp⟩ := h position
  obtain ⟨hy, hq⟩ := h' p
  rw [all_append hb]
  cases hall : all position cs with
  | mk ls stop =>
    rw [hall] at hx hp
    subst hp
    refine ⟨?_, hq⟩
    rw [List.map_append, hy]
    exact congrArg (· ++ ys) hx

lemma reads_cons (hc : Text.isBlank c = false) (he : Element.first? Element.table (c :: cs) = some e)
    (hk : e.kind ≠ .numeral) (h : Reads ((c :: cs).drop e.pattern.toList.length) ys) :
    Reads (c :: cs) (e.symbol :: ys) := by
  intro position
  have hs : Token.start? position (c :: cs) = some ⟨e, 0, position, e.pattern.toList.length⟩ := by
    rw [Token.start?, he]
  have hf := Token.find_of_some (by simp [hc]) hs
  obtain ⟨hx, hp⟩ := h (position + e.pattern.toList.length)
  rw [all_of_token hf, length_eq_of_kind_ne _ hk]
  refine ⟨?_, hp⟩
  rw [List.map_cons, hx, Token.symbol_of_kind hk]

lemma reads_openParen (h : Reads ds ys) : Reads ('(' :: ds) (.unary .openParen :: ys) :=
  reads_cons (e := .openParen) (by decide) rfl (by decide) h

lemma reads_closeParen (h : Reads ds ys) : Reads (')' :: ds) (.closeParen :: ys) :=
  reads_cons (e := ⟨")", 0, 0, .closeParen, parenByte⟩) (by decide) rfl (by decide) h

lemma reads_comma (h : Reads ds ys) : Reads (',' :: ds) (.separator :: ys) :=
  reads_cons (e := ⟨",", 0, 0, .separator, parenByte⟩) (by decide) rfl (by decide) h

lemma reads_question (h : Reads ds ys) : Reads ('?' :: ds) (.question :: ys) :=
  reads_cons (e := ⟨"?", 0, 0, .conditional, Opcode.branchIf.byte⟩) (by decide) rfl (by decide) h

lemma reads_colon (h : Reads ds ys) : Reads (':' :: ds) (.colon :: ys) :=
  reads_cons (e := ⟨":", 0, 0, .conditional, Opcode.branchElse.byte⟩) (by decide) rfl (by decide) h

lemma reads_paren (h : Reads cs xs) (h' : Reads ds ys) :
    Reads ('(' :: (cs ++ ')' :: ds)) (.unary .openParen :: (xs ++ .closeParen :: ys)) :=
  reads_openParen (h.append isBoundary_closeParen (reads_closeParen h'))

lemma reads_pattern (he : e ∈ Element.table) (hk : e.kind ≠ .numeral) :
    Reads e.pattern.toList [e.symbol] := by
  have hf := Element.first?_pattern e he
  have hb := Element.isBlank_pattern e he
  obtain ⟨c, cs, hc⟩ := List.exists_cons_of_ne_nil (Element.table_pattern_ne_nil e he)
  rw [hc] at hf hb ⊢
  have hblank : Text.isBlank c = false := by
    rw [List.any_cons, Bool.or_eq_false_iff] at hb
    exact hb.1
  refine reads_cons hblank hf hk ?_
  rw [hc, List.drop_length]
  exact reads_nil

lemma reads_minus : Reads ['-'] [.minus] :=
  reads_pattern (e := ⟨"-", 7, 8, .minus, UnaryOp.neg.byte⟩) (by decide) (by decide)

end Lexeme

section Forms

open Lexeme

lemma Lexeme.reads_unless_minus {e sign : Element} (hs : sign.pattern = "-") (hk : e.kind ≠ .numeral)
    (he : e ≠ sign → e ∈ Element.table) :
    Reads e.pattern.toList [if e = sign then .minus else e.symbol] := by
  split_ifs with h
  · rw [h, hs]
    exact reads_minus
  · exact reads_pattern (he h) hk

lemma Form.upper_pattern {Op : Type} {opcode : Op → Opcode} {kind : ElementKind} (f : Form opcode kind) :
    Text.upper f.element.pattern.toList = f.element.pattern.toList :=
  Element.upper_pattern _ f.known

lemma Form.symbol_unary {Op : Type} {opcode : Op → Opcode} (f : Form opcode .unary) :
    f.element.symbol = .unary f.element := by
  simp [Element.symbol, Token.symbol, f.kind_eq]

lemma Form.symbol_binary {Op : Type} {opcode : Op → Opcode} (f : Form opcode .binary) :
    f.element.symbol = .binary f.element := by
  simp [Element.symbol, Token.symbol, f.kind_eq]

lemma UnaryForm.reads (f : UnaryForm) : Reads f.element.pattern.toList [f.symbol] := by
  rw [symbol, ← f.symbol_unary]
  exact reads_unless_minus rfl (by simp [f.kind_eq]) fun hn => f.mem_table hn (f.element_ne (by decide))

lemma BinaryForm.reads (f : BinaryForm) : Reads f.element.pattern.toList [f.symbol] := by
  rw [symbol, ← f.symbol_binary]
  exact reads_unless_minus rfl (by simp [f.kind_eq]) (f.mem_table (f.element_ne (by decide)))

lemma PairForm.mem_table (f : PairForm) : f.element ∈ Element.table := by
  refine Form.mem_table f (fun h => ?_) (f.element_ne (by decide))
  have hc : Opcode.byte (.unary .neg) = Opcode.byte (.binary f.op) := by
    rw [← f.code_eq, h]
    rfl
  cases Opcode.byte_injective hc

lemma PairForm.reads (f : PairForm) : Reads f.element.pattern.toList [.unary f.element] := by
  rw [← f.symbol_unary]
  exact reads_pattern f.mem_table (by simp [f.kind_eq])

end Forms

end FormulaCode
