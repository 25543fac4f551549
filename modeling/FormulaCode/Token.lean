import FormulaCode.Diagnosis
import FormulaCode.Element.Table

namespace FormulaCode

/-- An element found in a text. Elements are written in ASCII, so its length counts characters as well
as bytes. -/
structure Token where
  element : Element
  index : UInt8
  position : Nat
  length : Nat
  deriving DecidableEq, Repr

namespace Token

def text (t : Token) : List Char :=
  if t.element.code == Opcode.fetch.byte then [Char.ofNat ('A'.toNat + t.index.toNat)]
  else t.element.pattern.toList

def start? (position : Nat) (text : List Char) : Option Token :=
  match Element.first? Element.table text with
  | some e => some ⟨e, 0, position, e.pattern.toList.length⟩
  | none => match text with
    | [] => none
    | c :: _ =>
      if Text.isUpper c then some ⟨.fetch, UInt8.ofNat (c.toNat - 'A'.toNat), position, 1⟩ else none

inductive Found
  | finish (position : Nat)
  | unknown (position : Nat)
  | token (t : Token) (text : List Char)
  deriving DecidableEq, Repr

def find (position : Nat) (rest : List Char) : Found :=
  let after := position + (rest.takeWhile Text.isBlank).length
  match rest.dropWhile Text.isBlank with
  | [] => .finish after
  | c :: cs => match start? after (c :: cs) with
    | some t => .token t (c :: cs)
    | none => .unknown after

theorem start?_length_pos {position : Nat} {text : List Char} {t : Token}
    (h : start? position text = some t) : 0 < t.length := by
  unfold start? at h
  split at h
  · next e he =>
    have hm := Element.table_pattern_ne_nil e (List.mem_of_find?_eq_some he)
    cases h
    exact List.length_pos_iff.2 hm
  · split at h
    · cases h
    · split at h
      · cases h; exact Nat.one_pos
      · cases h

theorem start?_of_find {position : Nat} {rest text : List Char} {t : Token}
    (h : find position rest = .token t text) :
    start? (position + (rest.takeWhile Text.isBlank).length) text = some t ∧ text ≠ [] ∧
      text = rest.dropWhile Text.isBlank := by
  unfold find at h
  dsimp only at h
  split at h
  · cases h
  · next c cs hc =>
    split at h
    · next t' ht =>
      cases h
      exact ⟨ht, by simp, hc.symm⟩
    · cases h

theorem length_drop_lt_of_find {position : Nat} {rest text : List Char} {t : Token} {n : Nat}
    (h : find position rest = .token t text) (hn : 0 < n) :
    (text.drop n).length < rest.length := by
  obtain ⟨_, hne, rfl⟩ := start?_of_find h
  have hpos := List.length_pos_iff.2 hne
  have hle := (List.dropWhile_suffix (l := rest) Text.isBlank).length_le
  rw [List.length_drop]
  omega

def all (position : Nat) (rest : List Char) : List Token × Except CompileError Nat :=
  match _h : find position rest with
  | .finish p => ([], .ok p)
  | .unknown p => ([], .error ⟨.unknownToken, p⟩)
  | .token t text =>
    let (ts, stop) := all (t.position + t.length) (text.drop t.length)
    (t :: ts, stop)
termination_by rest.length
decreasing_by exact length_drop_lt_of_find _h (start?_length_pos (start?_of_find _h).1)

end Token

structure Scanner where
  text : List Char
  position : Nat
  deriving DecidableEq, Repr

namespace Scanner

def ofExpression (expression : String) : Scanner := ⟨Text.upper expression.toList, 0⟩

def seek (s : Scanner) (position : Nat) : Scanner :=
  { s with position := min position (Text.byteLength s.text) }

/-- The next token, if there is one, and the scanner after it. Where no token starts, the scanner stays
behind the blanks. -/
def next (s : Scanner) : Except CompileError (Option Token) × Scanner :=
  match Text.dropBytes? s.position s.text with
  | none => (.error ⟨.unknownToken, s.position⟩, s)
  | some rest => match Token.find s.position rest with
    | .finish p => (.ok none, { s with position := p })
    | .unknown p => (.error ⟨.unknownToken, p⟩, { s with position := p })
    | .token t _ => (.ok (some t), { s with position := t.position + t.length })

end Scanner

end FormulaCode
