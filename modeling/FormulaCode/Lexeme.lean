import FormulaCode.Emission
import FormulaCode.Numeral
import FormulaCode.Token

/-! Lexemes: the tokens of an expression with every numeral taken whole. -/

namespace FormulaCode

inductive Symbol
  | operand (e : Emission)
  | numeral (n : Numeral)
  | unary (e : Element)
  | binary (e : Element)
  | minus
  | question
  | colon
  | separator
  | closeParen
  | terminator
  deriving DecidableEq, Repr

structure Lexeme where
  token : Token
  symbol : Symbol
  deriving DecidableEq, Repr

def Token.symbol (t : Token) (text : List Char) : Symbol :=
  match t.element.kind with
  | .operand =>
    .operand (if t.element.code == Opcode.fetch.byte then .fetch t.index else .op t.element.code)
  | .numeral => .numeral (Numeral.scan text).1
  | .unary => .unary t.element
  | .binary => .binary t.element
  | .minus => .minus
  | .conditional => if t.element.code == Opcode.branchElse.byte then .colon else .question
  | .separator => .separator
  | .closeParen => .closeParen
  | .terminator => .terminator

namespace Lexeme

/-- The number of characters of a lexeme. All are in ASCII, so it is the number of bytes too. -/
def length (x : Lexeme) : Nat :=
  match x.symbol with
  | .numeral n => n.text.length
  | _ => x.token.length

inductive Stop
  | finish (position : Nat)
  | unknown (position : Nat)
  deriving DecidableEq, Repr

end Lexeme

def Numeral.canStart (c : Char) : Bool := Text.isDigit c || c == '.'

theorem Numeral.text_scan_ne_nil {c : Char} (cs : List Char) (h : canStart c = true) :
    (Numeral.scan (c :: cs)).1.text ≠ [] := by
  by_cases hd : Text.isDigit c = true
  · simp [Numeral.scan, Numeral.text, hd]
  · obtain rfl : c = '.' := by simpa [canStart, hd] using h
    simp [Numeral.scan, Numeral.scanFraction, Numeral.text, hd]

theorem Element.numeral_pattern : ∀ e ∈ Element.table, e.kind = .numeral →
    e.pattern.toList.length = 1 ∧ e.pattern.toList.all Numeral.canStart = true := by
  decide

namespace Lexeme

theorem length_eq_of_kind_ne {t : Token} (text : List Char) (h : t.element.kind ≠ .numeral) :
    length ⟨t, t.symbol text⟩ = t.length := by
  unfold length Token.symbol
  cases hk : t.element.kind with
  | numeral => exact absurd hk h
  | conditional => by_cases hc : (t.element.code == Opcode.branchElse.byte) = true <;> simp [hc]
  | _ => rfl

theorem length_pos {position : Nat} {text : List Char} {t : Token}
    (h : Token.start? position text = some t) : 0 < length ⟨t, t.symbol text⟩ := by
  by_cases hk : t.element.kind = .numeral
  · have hs : t.symbol text = .numeral (Numeral.scan text).1 := by simp [Token.symbol, hk]
    rw [length, hs]
    apply List.length_pos_iff.2
    unfold Token.start? at h
    split at h
    · next e he =>
      cases h
      obtain ⟨hlen, hall⟩ := Element.numeral_pattern e (List.mem_of_find?_eq_some he) hk
      obtain ⟨c, hc⟩ := List.length_eq_one_iff.1 hlen
      have hstart := List.find?_some he
      simp only [Element.starts, hc, List.isPrefixOf_iff_prefix] at hstart
      obtain ⟨cs, rfl⟩ := hstart
      exact Numeral.text_scan_ne_nil cs (by simpa [hc] using hall)
    · split at h
      · cases h
      · split at h
        · cases h; cases hk
        · cases h
  · rw [length_eq_of_kind_ne text hk]
    exact Token.start?_length_pos h

def all (position : Nat) (rest : List Char) : List Lexeme × Stop :=
  match _h : Token.find position rest with
  | .finish p => ([], .finish p)
  | .unknown p => ([], .unknown p)
  | .token t text =>
    let x : Lexeme := ⟨t, t.symbol text⟩
    let (xs, stop) := all (t.position + x.length) (text.drop x.length)
    (x :: xs, stop)
termination_by rest.length
decreasing_by exact Token.length_drop_lt_of_find _h (length_pos (Token.start?_of_find _h).1)

def ofExpression (expression : String) : List Lexeme × Stop :=
  all 0 (Text.upper expression.toList)

end Lexeme

end FormulaCode
