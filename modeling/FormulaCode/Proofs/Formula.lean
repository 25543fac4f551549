import Mathlib
import FormulaCode.Lexeme
import FormulaCode.Machine

namespace FormulaCode

def Element.openParen : Element := ⟨"(", 0, 8, .unary, parenByte⟩

/-- An operator or function of one kind, with the operation that it stands for. -/
structure Form {Op : Type} (opcode : Op → Opcode) (kind : ElementKind) where
  element : Element
  op : Op
  known : element ∈ Element.negate :: Element.subtract :: Element.table
  kind_eq : element.kind = kind
  code_eq : element.code = (opcode op).byte

abbrev UnaryForm := Form Opcode.unary .unary

abbrev BinaryForm := Form Opcode.binary .binary

abbrev PairForm := Form Opcode.binary .unary

lemma Opcode.byte_ne_parenByte (op : Opcode) : op.byte ≠ parenByte := by
  intro h
  have hop := ofByte?_byte op
  have hnone : ofByte? parenByte = none := by decide
  rw [h, hnone] at hop
  cases hop

lemma Element.priorities_of_unary : ∀ e ∈ negate :: subtract :: table, e.kind = .unary →
    e.code ≠ parenByte → e.stackPriority = 7 ∧ e.arrivalPriority = 8 := by
  decide

lemma Element.priorities_of_binary : ∀ e ∈ negate :: subtract :: table, e.kind = .binary →
    e.arrivalPriority = e.stackPriority ∧ 1 ≤ e.stackPriority ∧ e.stackPriority ≤ 6 := by
  decide

namespace Form

variable {Op : Type} {opcode : Op → Opcode} {kind : ElementKind}

lemma isOpenParen_eq (f : Form opcode kind) : f.element.isOpenParen = false := by
  simp [Element.isOpenParen, f.code_eq, Opcode.byte_ne_parenByte]

lemma stackEffect_eq (f : Form opcode kind) : stackEffect f.element.code = (opcode f.op).stackEffect := by
  rw [f.code_eq, stackEffect_byte]

lemma priorities (f : Form opcode .unary) : f.element.stackPriority = 7 ∧ f.element.arrivalPriority = 8 :=
  Element.priorities_of_unary _ f.known f.kind_eq (f.code_eq ▸ Opcode.byte_ne_parenByte _)

lemma element_ne (f : Form opcode kind) {e : Element} (h : e.kind ≠ kind) : f.element ≠ e := by
  rintro rfl
  exact h f.kind_eq

lemma mem_table (f : Form opcode kind) (hn : f.element ≠ .negate) (hs : f.element ≠ .subtract) :
    f.element ∈ Element.table :=
  (List.mem_cons.1 ((List.mem_cons.1 f.known).resolve_left hn)).resolve_left hs

lemma eq_of_element (hinj : ∀ a b, opcode a = opcode b → a = b) {f g : Form opcode kind}
    (h : f.element = g.element) : f = g := by
  obtain ⟨x, a, _, _, ha⟩ := f
  obtain ⟨y, b, _, _, hb⟩ := g
  cases h
  cases hinj a b (Opcode.byte_injective (ha.symm.trans hb))
  rfl

end Form

def UnaryForm.negate : UnaryForm := ⟨.negate, .neg, by simp, rfl, rfl⟩

def BinaryForm.subtract : BinaryForm := ⟨.subtract, .sub, by simp, rfl, rfl⟩

inductive Atom (policy : LiteralPolicy)
  | letter (v : Variable)
  | constant (c : Constant)
  | numeral (n : Numeral) (x : Double) (h : n.valueUnder policy = some x)

namespace UnaryForm

variable (f : UnaryForm)

lemma argumentCount_eq : f.element.argumentCount = 1 := by
  have he : stackEffect f.element.code = 0 := f.stackEffect_eq
  simp [Element.argumentCount, he]

def symbol : Symbol := if f.element = .negate then .minus else .unary f.element

end UnaryForm

namespace BinaryForm

variable (f : BinaryForm)

def priority : Nat := f.element.stackPriority

lemma arrivalPriority_eq : f.element.arrivalPriority = f.priority :=
  (Element.priorities_of_binary _ f.known f.kind_eq).1

lemma priority_pos : 1 ≤ f.priority := (Element.priorities_of_binary _ f.known f.kind_eq).2.1

lemma priority_le : f.priority ≤ 6 := (Element.priorities_of_binary _ f.known f.kind_eq).2.2

lemma argumentCount_eq : f.element.argumentCount = 1 := by
  simp [Element.argumentCount, f.kind_eq]

def symbol : Symbol := if f.element = .subtract then .minus else .binary f.element

end BinaryForm

lemma PairForm.argumentCount_eq (f : PairForm) : f.element.argumentCount = 2 := by
  have he : stackEffect f.element.code = -1 := f.stackEffect_eq
  simp [Element.argumentCount, f.kind_eq, he]

section Spellings

def Constant.spelling : Constant → String
  | .pi => "PI"
  | .degToRad => "D2R"
  | .radToDeg => "R2D"
  | .secToRad => "S2R"
  | .radToSec => "R2S"
  | .random => "RNDM"

def UnaryOp.spellings : UnaryOp → List String
  | .neg => ["-"]
  | .abs => ["ABS"]
  | .sqrt => ["SQRT", "SQR"]
  | .exp => ["EXP"]
  | .log10 => ["LOG"]
  | .ln => ["LOGE", "LN"]
  | .ceil => ["CEIL"]
  | .floor => ["FLOOR"]
  | .round => ["NINT"]
  | .acos => ["ACOS"]
  | .asin => ["ASIN"]
  | .atan => ["ATAN"]
  | .cos => ["COS"]
  | .cosh => ["COSH"]
  | .sin => ["SIN"]
  | .sinh => ["SINH"]
  | .tan => ["TAN"]
  | .tanh => ["TANH"]
  | .not => ["!"]
  | .bitNot => ["NOT", "~"]

def BinaryOp.spellings : BinaryOp → List String
  | .add => ["+"]
  | .sub => ["-"]
  | .mul => ["*"]
  | .div => ["/"]
  | .rem => ["%"]
  | .pow => ["^", "**"]
  | .max => ["MAX"]
  | .min => ["MIN"]
  | .atan2 => ["ATAN2"]
  | .or => ["||"]
  | .and => ["&&"]
  | .bitOr => ["OR", "|"]
  | .bitAnd => ["AND", "&"]
  | .bitXor => ["XOR"]
  | .shiftRight => [">>"]
  | .shiftLeft => ["<<"]
  | .ge => [">="]
  | .gt => [">"]
  | .le => ["<="]
  | .lt => ["<"]
  | .ne => ["!=", "#"]
  | .eq => ["==", "="]

-- functions of two arguments are on the level of all functions
def BinaryOp.level : BinaryOp → Nat
  | .or | .bitOr | .bitXor => 1
  | .and | .bitAnd | .shiftRight | .shiftLeft => 2
  | .ge | .gt | .le | .lt | .ne | .eq => 3
  | .add | .sub => 4
  | .mul | .div | .rem => 5
  | .pow => 6
  | .max | .min | .atan2 => 7

namespace Opcode

def spellings : Opcode → List String
  | .constant c => [c.spelling]
  | .unary f => f.spellings
  | .binary f => f.spellings
  | _ => []

def level : Opcode → Nat
  | .unary _ => 7
  | .binary f => f.level
  | _ => 0

def kind : Opcode → ElementKind
  | .unary _ => .unary
  | .binary f => if f.level = 7 then .unary else .binary
  | _ => .operand

end Opcode

def Element.isOperation (e : Element) : Bool :=
  e.kind == .operand || e.kind == .unary || e.kind == .binary

/-- The elements of an operation are its spellings, each with the level on which the operation binds. -/
theorem Element.spelled_iff {op : Opcode} {pattern : String} {kind : ElementKind} {priority : Nat} :
    (∃ e ∈ negate :: subtract :: table, e.isOperation = true ∧ e.code = op.byte ∧ e.pattern = pattern ∧
      e.kind = kind ∧ e.stackPriority = priority) ↔
      pattern ∈ op.spellings ∧ kind = op.kind ∧ priority = op.level := by
  constructor
  · rintro ⟨e, he, ho, hc, rfl, rfl, rfl⟩
    have hall : ∀ e ∈ negate :: subtract :: table, e.isOperation = true → ∀ op ∈ Opcode.ofByte? e.code,
        e.pattern ∈ op.spellings ∧ e.kind = op.kind ∧ e.stackPriority = op.level := by decide +kernel
    exact hall e he ho op (hc ▸ Opcode.ofByte?_byte op)
  · rintro ⟨hp, rfl, rfl⟩
    have hall : ∀ op ∈ Opcode.all, ∀ p ∈ op.spellings, ∃ e ∈ negate :: subtract :: table,
        e.isOperation = true ∧ e.code = op.byte ∧ e.pattern = p ∧ e.kind = op.kind ∧
          e.stackPriority = op.level := by decide +kernel
    exact hall op (List.mem_of_find?_eq_some (Opcode.ofByte?_byte op)) pattern hp

/-- An operation has one form for each of its spellings, and every form of it binds on its level. -/
theorem Form.spelled_iff {Op : Type} {opcode : Op → Opcode} {kind : ElementKind}
    (hk : kind = .unary ∨ kind = .binary) {op : Op} {pattern : String} {priority : Nat} :
    (∃ f : Form opcode kind, f.op = op ∧ f.element.pattern = pattern ∧ f.element.stackPriority = priority) ↔
      pattern ∈ (opcode op).spellings ∧ kind = (opcode op).kind ∧ priority = (opcode op).level := by
  rw [← Element.spelled_iff]
  constructor
  · rintro ⟨f, rfl, hp, hl⟩
    have ho : f.element.isOperation = true := by
      rw [Element.isOperation, f.kind_eq]
      rcases hk with rfl | rfl <;> rfl
    exact ⟨f.element, f.known, ho, f.code_eq, hp, f.kind_eq, hl⟩
  · rintro ⟨e, he, -, hc, hp, hkind, hl⟩
    exact ⟨⟨e, op, he, hkind, hc⟩, rfl, hp, hl⟩

end Spellings

namespace Atom

variable {policy : LiteralPolicy}

def symbol : Atom policy → Symbol
  | .letter v => .operand (.fetch (UInt8.ofNat v.val))
  | .constant c => .operand (.op c.byte)
  | .numeral n _ _ => .numeral n

def instruction : Atom policy → Instruction
  | .letter v => .fetch v
  | .constant c => .constant c
  | .numeral _ x _ => .literal x

def value (values : List Float) : Atom policy → Float
  | .letter v => values.getD v.val 0.0
  | .constant c => c.value
  | .numeral _ x _ => x.toFloat

end Atom

/-- The formulas of which the loosest operator has the given priority: `0` is the conditional, `1` to
`6` are the binary operators, and `7` is all that needs no parentheses next to an operator. Binary
operators of one priority group to the left, conditionals to the right. -/
inductive Formula (policy : LiteralPolicy) : Nat → Type
  | atom (a : Atom policy) : Formula policy 7
  | apply (f : UnaryForm) (e : Formula policy 7) : Formula policy 7
  | call {p q : Nat} (f : PairForm) (a : Formula policy p) (b : Formula policy q) : Formula policy 7
  | paren {p : Nat} (e : Formula policy p) : Formula policy 7
  | binary {p q : Nat} (f : BinaryForm) (l : Formula policy p) (r : Formula policy q)
      (hl : f.priority ≤ p) (hr : f.priority < q) : Formula policy f.priority
  | conditional {p q r : Nat} (c : Formula policy p) (t : Formula policy q) (e : Formula policy r)
      (hc : 0 < p) : Formula policy 0

namespace Formula

variable {policy : LiteralPolicy}

def yield {p : Nat} : Formula policy p → List Symbol
  | .atom a => [a.symbol]
  | .apply f e => f.symbol :: e.yield
  | .call f a b =>
    .unary f.element :: .unary .openParen :: a.yield ++ .separator :: b.yield ++ [.closeParen]
  | .paren e => .unary .openParen :: e.yield ++ [.closeParen]
  | .binary f l r _ _ => l.yield ++ f.symbol :: r.yield
  | .conditional c t e _ => c.yield ++ .question :: t.yield ++ .colon :: e.yield

/-- The value of a formula. Operands come from left to right, of a conditional only one branch, which
is the second if the condition equals zero. -/
def eval {p : Nat} (values : List Float) : Formula policy p → Except Fault Float
  | .atom a => .ok (a.value values)
  | .apply f e => do
    let x ← e.eval values
    return f.op.apply x
  | .call f a b => do
    let x ← a.eval values
    let y ← b.eval values
    f.op.apply x y
  | .paren e => e.eval values
  | .binary f l r _ _ => do
    let x ← l.eval values
    let y ← r.eval values
    f.op.apply x y
  | .conditional c t e _ => do
    let x ← c.eval values
    if x == 0.0 then e.eval values else t.eval values

/-- The branches whose end is marked only where the parenthesis around the formula ends. -/
def ends {p : Nat} : Formula policy p → Nat
  | .conditional _ t e _ => t.ends + 1 + e.ends
  | _ => 0

def main {p : Nat} : Formula policy p → List Instruction
  | .atom a => [a.instruction]
  | .apply f e => e.main ++ [.unary f.op]
  | .call f a b => (a.main ++ List.replicate a.ends .branchEnd) ++
    (b.main ++ List.replicate b.ends .branchEnd) ++ [.binary f.op]
  | .paren e => e.main ++ List.replicate e.ends .branchEnd
  | .binary f l r _ _ => l.main ++ r.main ++ [.binary f.op]
  | .conditional c t e _ => c.main ++ .branchIf :: t.main ++ .branchElse :: e.main

def code {p : Nat} (e : Formula policy p) : List Instruction :=
  e.main ++ List.replicate e.ends .branchEnd

lemma ends_eq_zero {p : Nat} (e : Formula policy p) (h : 0 < p) : e.ends = 0 := by
  cases e with
  | conditional => exact absurd h (lt_irrefl 0)
  | _ => rfl

end Formula

end FormulaCode
