import FormulaCode.Proofs.Counters
import FormulaCode.Proofs.Lexing
import FormulaCode.Proofs.Phrase

namespace FormulaCode

namespace Element

def fitsKind (e : Element) : Bool :=
  match e.kind, Opcode.ofByte? e.code with
  | .operand, some (.constant _) => true
  | .unary, some (.unary _) => true
  | .unary, some (.binary _) => true
  | .unary, none => e == openParen
  | .binary, some (.binary _) => true
  | .operand, _ => false
  | .unary, _ => false
  | .binary, _ => false
  | _, _ => true

lemma fitsKind_of_mem : ∀ e ∈ table, e.fitsKind = true := by decide

lemma known_of_mem {e : Element} (h : e ∈ table) : e ∈ negate :: subtract :: table :=
  List.mem_cons_of_mem _ (List.mem_cons_of_mem _ h)

lemma negate_notMem : negate ∉ table := by decide

lemma subtract_notMem : subtract ∉ table := by decide

lemma constant_of_kind {e : Element} (h : e ∈ table) (hk : e.kind = .operand) :
    ∃ c : Constant, e.code = c.byte := by
  have hf := fitsKind_of_mem e h
  rw [fitsKind, hk] at hf
  split at hf <;> simp_all
  rename_i c hc
  exact ⟨c, (Opcode.byte_of_ofByte? hc).symm⟩

lemma function_of_kind {e : Element} (h : e ∈ table) (hk : e.kind = .unary) :
    e = openParen ∨ ∃ f : Function, f.element = e := by
  have hf := fitsKind_of_mem e h
  rw [fitsKind, hk] at hf
  split at hf <;> simp_all
  · rename_i f hc
    exact .inr ⟨.one ⟨e, f, known_of_mem h, hk, (Opcode.byte_of_ofByte? hc).symm⟩, rfl⟩
  · rename_i f hc
    exact .inr ⟨.two ⟨e, f, known_of_mem h, hk, (Opcode.byte_of_ofByte? hc).symm⟩, rfl⟩

lemma operator_of_kind {e : Element} (h : e ∈ table) (hk : e.kind = .binary) :
    ∃ f : BinaryForm, f.element = e := by
  have hf := fitsKind_of_mem e h
  rw [fitsKind, hk] at hf
  split at hf <;> simp_all
  rename_i f hc
  exact ⟨⟨e, f, known_of_mem h, hk, (Opcode.byte_of_ofByte? hc).symm⟩, rfl⟩

end Element

def Symbol.Spoken (policy : LiteralPolicy) (x : Symbol) : Prop :=
  (∃ w : Word policy, w.Plain ∧ w.symbol = x) ∨ ∃ n, x = .numeral n ∧ n.valueUnder policy = none

lemma Function.plain_of_mem {policy : LiteralPolicy} {f : Function} (h : f.element ∈ Element.table) :
    (Word.function f : Word policy).Plain := by
  cases f with
  | one f =>
    have hn : f.element ≠ .negate := fun he => Element.negate_notMem (he ▸ h)
    exact if_neg hn
  | two f => rfl

lemma BinaryForm.plain_of_mem {policy : LiteralPolicy} {f : BinaryForm}
    (h : f.element ∈ Element.table) : (Word.operator f : Word policy).Plain := by
  have hn : f.element ≠ .subtract := fun he => Element.subtract_notMem (he ▸ h)
  exact if_neg hn

lemma Token.spoken_of_mem (policy : LiteralPolicy) {t : Token} (h : t.element ∈ Element.table)
    (text : List Char) : (t.symbol text).Spoken policy := by
  rw [Token.symbol]
  cases hk : t.element.kind with
  | operand =>
    obtain ⟨c, hc⟩ := Element.constant_of_kind h hk
    have hf := (Token.text_of_table _ h).1
    exact .inl ⟨.atom (.constant c), trivial, by simp [Word.symbol, Atom.symbol, hf, ← hc]⟩
  | numeral =>
    cases hv : (Numeral.scan text).1.valueUnder policy with
    | none => exact .inr ⟨_, rfl, hv⟩
    | some x => exact .inl ⟨.atom (.numeral _ x hv), trivial, rfl⟩
  | unary =>
    rcases Element.function_of_kind h hk with he | ⟨f, he⟩
    · exact .inl ⟨.openParen, trivial, by rw [he]; rfl⟩
    · exact .inl ⟨.function f, Function.plain_of_mem (he ▸ h), congrArg Symbol.unary he⟩
  | binary =>
    obtain ⟨f, he⟩ := Element.operator_of_kind h hk
    exact .inl ⟨.operator f, BinaryForm.plain_of_mem (he ▸ h), congrArg Symbol.binary he⟩
  | minus => exact .inl ⟨.minus, trivial, rfl⟩
  | conditional =>
    by_cases hc : t.element.code = Opcode.branchElse.byte
    · exact .inl ⟨.mark .colon, trivial, by simp [hc, Word.symbol, Mark.symbol]⟩
    · exact .inl ⟨.mark .question, trivial, by simp [hc, Word.symbol, Mark.symbol]⟩
  | separator => exact .inl ⟨.separator, trivial, rfl⟩
  | closeParen => exact .inl ⟨.closeParen, trivial, rfl⟩
  | terminator => exact .inl ⟨.terminator, trivial, rfl⟩

lemma Token.spoken_of_start? (policy : LiteralPolicy) {position : Nat} {text : List Char} {t : Token}
    (h : start? position text = some t) : (t.symbol text).Spoken policy := by
  rw [start?.eq_def] at h
  split at h
  · rename_i e he
    cases h
    have hm : e ∈ Element.table := List.mem_of_find?_eq_some he
    exact spoken_of_mem policy hm text
  · split at h
    · cases h
    · rename_i c cs _
      obtain ⟨hu, h⟩ := Option.ite_none_right_eq_some.1 h
      cases h
      simp only [Text.isUpper, Bool.and_eq_true, decide_eq_true_eq] at hu
      have h1 : 65 ≤ c.toNat := hu.1
      have h2 : c.toNat ≤ 90 := hu.2
      have hv : c.toNat - 'A'.toNat < 26 := by
        change c.toNat - 65 < 26
        omega
      exact .inl ⟨.atom (.letter ⟨_, hv⟩), trivial, rfl⟩

lemma Lexeme.Occurs.spoken {text : List Char} {x : Lexeme} (h : x.Occurs text)
    (policy : LiteralPolicy) : x.symbol.Spoken policy := by
  obtain ⟨before, here, -, -, hs, hx⟩ := h
  rw [hx]
  exact Token.spoken_of_start? policy hs

lemma UnaryForm.waits (f : UnaryForm) : f.element.Waits :=
  Element.waits_of_opcode (.unary f.op) f.code_eq rfl (.inl rfl) nofun

lemma Form.waits {kind : ElementKind} (f : Form Opcode.binary kind) : f.element.Waits :=
  Element.waits_of_opcode (.binary f.op) f.code_eq rfl (.inr rfl) nofun

lemma Word.known {policy : LiteralPolicy} (w : Word policy) : w.symbol.Known := by
  cases w with
  | atom a =>
    cases a with
    | letter v => exact .operand (i := .fetch v) rfl
    | constant c => exact .operand (i := .constant c) rfl
    | numeral n x h => exact .numeral n
  | function f =>
    refine .unary ?_ (by rw [f.priorities.2]; decide)
    cases f with
    | one f => exact f.waits
    | two f => exact f.waits
  | operator f => exact .binary f.waits (by rw [f.arrivalPriority_eq]; exact f.priority_pos)
  | openParen => exact .unary ⟨nofun, .inl (by decide), by decide, fun _ => rfl⟩ (by decide)
  | mark m => cases m <;> constructor
  | _ => constructor

lemma Symbol.Spoken.known {policy : LiteralPolicy} {x : Symbol} (h : x.Spoken policy) : x.Known := by
  rcases h with ⟨w, -, rfl⟩ | ⟨n, rfl, -⟩
  · exact w.known
  · exact .numeral n

end FormulaCode
