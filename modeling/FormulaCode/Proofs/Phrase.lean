import FormulaCode.Proofs.Formula

/-! Phrases: what the compiler takes for an expression, before it is known whether conditionals are
nested well. In a phrase `?` and `:` only stand in a row between parts without them. -/

namespace FormulaCode

inductive Function
  | one (f : UnaryForm)
  | two (f : PairForm)

inductive Mark
  | question
  | colon
  deriving DecidableEq

inductive Word (policy : LiteralPolicy)
  | atom (a : Atom policy)
  | function (f : Function)
  | operator (f : BinaryForm)
  | minus
  | openParen
  | closeParen
  | separator
  | mark (m : Mark)
  | terminator

lemma Form.op_code {kind : ElementKind} (f : Form Opcode.binary kind) :
    Emission.op f.element.code = .ofInstruction (.binary f.op) :=
  congrArg Emission.op f.code_eq

namespace Function

def element : Function → Element
  | .one f => f.element
  | .two f => f.element

def instruction : Function → Instruction
  | .one f => .unary f.op
  | .two f => .binary f.op

def arity : Function → Nat
  | .one _ => 1
  | .two _ => 2

lemma isOpenParen_eq (f : Function) : f.element.isOpenParen = false := by
  cases f with
  | one f => exact f.isOpenParen_eq
  | two f => exact f.isOpenParen_eq

lemma priorities (f : Function) : f.element.stackPriority = 7 ∧ f.element.arrivalPriority = 8 := by
  cases f with
  | one f => exact f.priorities
  | two f => exact f.priorities

lemma argumentCount_eq (f : Function) : f.element.argumentCount = f.arity := by
  cases f with
  | one f => exact f.argumentCount_eq
  | two f => exact f.argumentCount_eq

lemma op_code (f : Function) : Emission.op f.element.code = .ofInstruction f.instruction := by
  cases f with
  | one f => exact congrArg Emission.op f.code_eq
  | two f => exact f.op_code

end Function

namespace Mark

def symbol : Mark → Symbol
  | .question => .question
  | .colon => .colon

def instruction : Mark → Instruction
  | .question => .branchIf
  | .colon => .branchElse

def ends : Mark → Nat
  | .question => 0
  | .colon => 1

end Mark

namespace Word

variable {policy : LiteralPolicy}

def symbol : Word policy → Symbol
  | .atom a => a.symbol
  | .function f => .unary f.element
  | .operator f => .binary f.element
  | .minus => .minus
  | .openParen => .unary .openParen
  | .closeParen => .closeParen
  | .separator => .separator
  | .mark m => m.symbol
  | .terminator => .terminator

end Word

def UnaryForm.word {policy : LiteralPolicy} (f : UnaryForm) : Word policy :=
  if f.element = .negate then .minus else .function (.one f)

def Function.word {policy : LiteralPolicy} : Function → Word policy
  | .one f => f.word
  | .two f => .function (.two f)

def BinaryForm.word {policy : LiteralPolicy} (f : BinaryForm) : Word policy :=
  if f.element = .subtract then .minus else .operator f

def Word.Plain {policy : LiteralPolicy} : Word policy → Prop
  | .function f => (f.word : Word policy) = .function f
  | .operator f => (f.word : Word policy) = .operator f
  | _ => True

inductive Phrase (policy : LiteralPolicy)
  | atom (a : Atom policy)
  | apply (f : Function) (e : Phrase policy)
  | binary (f : BinaryForm) (l r : Phrase policy)
  | mark (m : Mark) (l r : Phrase policy)
  | paren (e : Phrase policy)
  | pair (a b : Phrase policy)

namespace Phrase

variable {policy : LiteralPolicy}

def words : Phrase policy → List (Word policy)
  | .atom a => [.atom a]
  | .apply f e => f.word :: e.words
  | .binary f l r => l.words ++ f.word :: r.words
  | .mark m l r => l.words ++ .mark m :: r.words
  | .paren e => .openParen :: e.words ++ [.closeParen]
  | .pair a b => .openParen :: a.words ++ .separator :: b.words ++ [.closeParen]

def rank : Phrase policy → Nat
  | .binary f _ _ => f.priority
  | .mark _ _ _ => 0
  | _ => 7

def width? : Phrase policy → Option Nat
  | .paren _ => some 1
  | .pair _ _ => some 2
  | _ => none

def ends : Phrase policy → Nat
  | .mark m l _ => l.ends + m.ends
  | _ => 0

def main : Phrase policy → List Instruction
  | .atom a => [a.instruction]
  | .apply f e => e.main ++ [f.instruction]
  | .binary f l r => l.main ++ r.main ++ [.binary f.op]
  | .mark m l r => l.main ++ m.instruction :: r.main
  | .paren e => e.main ++ List.replicate e.ends .branchEnd
  | .pair a b => a.main ++ List.replicate a.ends .branchEnd ++
    (b.main ++ List.replicate b.ends .branchEnd)

def code (e : Phrase policy) : List Instruction := e.main ++ List.replicate e.ends .branchEnd

/-- The values that the code of a phrase adds to the stack, by the count of the compiler. -/
def net : Phrase policy → Int
  | .atom _ => 1
  | .apply f e => e.net + f.instruction.opcode.stackEffect
  | .binary _ l r => l.net + r.net - 1
  | .mark _ l r => l.net + r.net - 1
  | .paren e => e.net
  | .pair a b => a.net + b.net

/-- Operators bind by their priorities, lists stand behind functions that take so many arguments, and
each argument leaves one value. -/
def Formed : Phrase policy → Prop
  | .atom _ => True
  | .apply f e => e.Formed ∧ e.rank = 7 ∧ ∀ n, e.width? = some n → f.arity = n
  | .binary f l r => l.Formed ∧ r.Formed ∧ f.priority ≤ l.rank ∧ f.priority < r.rank ∧
    l.width? ≠ some 2 ∧ r.width? ≠ some 2
  | .mark _ l r => l.Formed ∧ r.Formed ∧ 0 < r.rank ∧ l.width? ≠ some 2 ∧ r.width? ≠ some 2
  | .paren e => e.Formed ∧ e.net = 1 ∧ e.width? ≠ some 2
  | .pair a b => (a.Formed ∧ a.net = 1 ∧ a.width? ≠ some 2) ∧ b.Formed ∧ b.net = 1 ∧ b.width? ≠ some 2

lemma ends_eq_zero (e : Phrase policy) (h : 0 < e.rank) : e.ends = 0 := by
  cases e with
  | mark => exact absurd h (lt_irrefl 0)
  | _ => rfl

lemma rank_le (e : Phrase policy) : e.rank ≤ 7 := by
  cases e with
  | binary f => exact f.priority_le.trans (by decide)
  | mark => exact Nat.zero_le 7
  | _ => exact le_refl 7

end Phrase

end FormulaCode
