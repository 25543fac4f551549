namespace FormulaCode

inductive Constant
  | pi | degToRad | radToDeg | secToRad | radToSec | random
  deriving DecidableEq, Repr

inductive UnaryOp
  | neg | abs | sqrt | exp | log10 | ln | ceil | floor | round
  | acos | asin | atan | cos | cosh | sin | sinh | tan | tanh
  | not | bitNot
  deriving DecidableEq, Repr

inductive BinaryOp
  | add | sub | mul | div | rem | pow | max | min | atan2
  | or | and | bitOr | bitAnd | bitXor | shiftRight | shiftLeft
  | ge | gt | le | lt | ne | eq
  deriving DecidableEq, Repr

inductive Opcode
  | fetch | literal
  | constant (c : Constant)
  | unary (f : UnaryOp)
  | binary (f : BinaryOp)
  | branchIf | branchElse | branchEnd
  | endExpr
  | stop
  deriving DecidableEq, Repr

def Constant.all : List Constant := [.pi, .degToRad, .radToDeg, .secToRad, .radToSec, .random]

def UnaryOp.all : List UnaryOp :=
  [.neg, .abs, .sqrt, .exp, .log10, .ln, .ceil, .floor, .round, .acos, .asin, .atan, .cos, .cosh,
    .sin, .sinh, .tan, .tanh, .not, .bitNot]

def BinaryOp.all : List BinaryOp :=
  [.add, .sub, .mul, .div, .rem, .pow, .max, .min, .atan2, .or, .and, .bitOr, .bitAnd, .bitXor,
    .shiftRight, .shiftLeft, .ge, .gt, .le, .lt, .ne, .eq]

def Constant.byte : Constant → UInt8
  | .pi => 0x03
  | .degToRad => 0x04
  | .radToDeg => 0x05
  | .secToRad => 0x06
  | .radToSec => 0x07
  | .random => 0x08

def UnaryOp.byte : UnaryOp → UInt8
  | .neg => 0x16
  | .abs => 0x20
  | .sqrt => 0x21
  | .exp => 0x22
  | .log10 => 0x23
  | .ln => 0x24
  | .ceil => 0x27
  | .floor => 0x28
  | .round => 0x29
  | .acos => 0x30
  | .asin => 0x31
  | .atan => 0x32
  | .cos => 0x34
  | .cosh => 0x35
  | .sin => 0x36
  | .sinh => 0x37
  | .tan => 0x38
  | .tanh => 0x39
  | .not => 0x42
  | .bitNot => 0x46

def BinaryOp.byte : BinaryOp → UInt8
  | .add => 0x10
  | .sub => 0x11
  | .mul => 0x12
  | .div => 0x13
  | .rem => 0x14
  | .pow => 0x15
  | .max => 0x25
  | .min => 0x26
  | .atan2 => 0x33
  | .or => 0x40
  | .and => 0x41
  | .bitOr => 0x43
  | .bitAnd => 0x44
  | .bitXor => 0x45
  | .shiftRight => 0x47
  | .shiftLeft => 0x48
  | .ge => 0x50
  | .gt => 0x51
  | .le => 0x52
  | .lt => 0x53
  | .ne => 0x54
  | .eq => 0x55

def Constant.mnemonic : Constant → String
  | .pi => "CONST_PI"
  | .degToRad => "CONST_D2R"
  | .radToDeg => "CONST_R2D"
  | .secToRad => "CONST_S2R"
  | .radToSec => "CONST_R2S"
  | .random => "RANDOM"

def UnaryOp.mnemonic : UnaryOp → String
  | .neg => "UNARY_NEG"
  | .abs => "ABS_VAL"
  | .sqrt => "SQU_RT"
  | .exp => "EXP"
  | .log10 => "LOG_10"
  | .ln => "LOG_E"
  | .ceil => "CEIL"
  | .floor => "FLOOR"
  | .round => "NINT"
  | .acos => "ACOS"
  | .asin => "ASIN"
  | .atan => "ATAN"
  | .cos => "COS"
  | .cosh => "COSH"
  | .sin => "SIN"
  | .sinh => "SINH"
  | .tan => "TAN"
  | .tanh => "TANH"
  | .not => "REL_NOT"
  | .bitNot => "BIT_NOT"

def BinaryOp.mnemonic : BinaryOp → String
  | .add => "ADD"
  | .sub => "SUB"
  | .mul => "MULT"
  | .div => "DIV"
  | .rem => "MODULO"
  | .pow => "EXPON"
  | .max => "MAX"
  | .min => "MIN"
  | .atan2 => "ATAN2"
  | .or => "REL_OR"
  | .and => "REL_AND"
  | .bitOr => "BIT_OR"
  | .bitAnd => "BIT_AND"
  | .bitXor => "BIT_EXCL_OR"
  | .shiftRight => "RIGHT_SHIFT"
  | .shiftLeft => "LEFT_SHIFT"
  | .ge => "GR_OR_EQ"
  | .gt => "GR_THAN"
  | .le => "LESS_OR_EQ"
  | .lt => "LESS_THAN"
  | .ne => "NOT_EQ"
  | .eq => "EQUAL"

namespace Opcode

def all : List Opcode :=
  [.fetch, .literal] ++ Constant.all.map .constant ++ UnaryOp.all.map .unary ++
    BinaryOp.all.map .binary ++ [.branchIf, .branchElse, .branchEnd, .endExpr, .stop]

def byte : Opcode → UInt8
  | .fetch => 0x01
  | .literal => 0x02
  | .constant c => c.byte
  | .unary f => f.byte
  | .binary f => f.byte
  | .branchIf => 0x60
  | .branchElse => 0x61
  | .branchEnd => 0x62
  | .endExpr => 0x7E
  | .stop => 0x7F

def mnemonic : Opcode → String
  | .fetch => "FETCH"
  | .literal => "LITERAL"
  | .constant c => c.mnemonic
  | .unary f => f.mnemonic
  | .binary f => f.mnemonic
  | .branchIf => "COND_IF"
  | .branchElse => "COND_ELSE"
  | .branchEnd => "COND_END"
  | .endExpr => "EXPR_TERM"
  | .stop => "END_STACK"

def operandSize : Opcode → Nat
  | .fetch => 1
  | .literal => 8
  | _ => 0

def stackEffect : Opcode → Int
  | .fetch | .literal | .constant _ => 1
  | .binary _ | .branchIf | .branchElse => -1
  | .unary _ | .branchEnd | .endExpr | .stop => 0

def ofByte? (b : UInt8) : Option Opcode := all.find? (·.byte == b)

theorem ofByte?_byte (op : Opcode) : ofByte? op.byte = some op := by
  cases op with
  | constant c => cases c <;> decide
  | unary f => cases f <;> decide
  | binary f => cases f <;> decide
  | _ => decide

theorem byte_of_ofByte? {b : UInt8} {op : Opcode} (h : ofByte? b = some op) : op.byte = b := by
  simpa using List.find?_some h

theorem byte_injective {a b : Opcode} (h : a.byte = b.byte) : a = b := by
  have ha := ofByte?_byte a
  rw [h, ofByte?_byte b] at ha
  exact (Option.some.inj ha).symm

end Opcode

def badExpressionByte : UInt8 := 0x00

/-- The byte that stands for parentheses among the elements. No operation has it. -/
def parenByte : UInt8 := 0x70

def operandSize (b : UInt8) : Nat := (Opcode.ofByte? b).elim 0 Opcode.operandSize

def pushingBytes : List UInt8 := [0x01, 0x02, 0x03, 0x04, 0x05, 0x06, 0x07, 0x08]

def consumingBytes : List UInt8 :=
  [0x10, 0x11, 0x12, 0x13, 0x14, 0x15, 0x25, 0x26, 0x33, 0x40, 0x41, 0x43, 0x44, 0x45, 0x47, 0x48,
    0x50, 0x51, 0x52, 0x53, 0x54, 0x55, 0x60, 0x61]

def stackEffect (b : UInt8) : Int :=
  if b ∈ pushingBytes then 1 else if b ∈ consumingBytes then -1 else 0

theorem stackEffect_byte (op : Opcode) : stackEffect op.byte = op.stackEffect := by
  cases op with
  | constant c => cases c <;> decide
  | unary f => cases f <;> decide
  | binary f => cases f <;> decide
  | _ => decide

/-- The bytes with an effect are those of the operations with that effect. -/
theorem stackEffect_eq (b : UInt8) : stackEffect b = (Opcode.ofByte? b).elim 0 Opcode.stackEffect := by
  cases h : Opcode.ofByte? b with
  | some op => rw [← Opcode.byte_of_ofByte? h, stackEffect_byte, Option.elim_some]
  | none =>
    have hknown : ∀ c ∈ pushingBytes ++ consumingBytes, Opcode.ofByte? c ≠ none := by decide +kernel
    have hb : b ∉ pushingBytes ++ consumingBytes := fun hmem => hknown b hmem h
    rw [List.mem_append, not_or] at hb
    rw [stackEffect, if_neg hb.1, if_neg hb.2, Option.elim_none]

def mnemonic (b : UInt8) : String := (Opcode.ofByte? b).elim "???" Opcode.mnemonic

end FormulaCode
