import FormulaCode.Opcode
import FormulaCode.Double.Basic

namespace FormulaCode

abbrev Variable := Fin 26

/-- One instruction. The mark that ends a program is not among them. -/
inductive Instruction
  | fetch (v : Variable)
  | literal (x : Double)
  | constant (c : Constant)
  | unary (f : UnaryOp)
  | binary (f : BinaryOp)
  | branchIf | branchElse | branchEnd
  | endExpr
  deriving DecidableEq, Repr

inductive Operand
  | none
  | index (i : UInt8)
  | literal (x : Double)
  deriving DecidableEq, Repr

def Operand.bytes : Operand → List UInt8
  | .none => []
  | .index i => [i]
  | .literal x => x.bytes

namespace Instruction

def opcode : Instruction → Opcode
  | .fetch _ => .fetch
  | .literal _ => .literal
  | .constant c => .constant c
  | .unary f => .unary f
  | .binary f => .binary f
  | .branchIf => .branchIf
  | .branchElse => .branchElse
  | .branchEnd => .branchEnd
  | .endExpr => .endExpr

def operand : Instruction → Operand
  | .fetch v => .index (UInt8.ofNat v.val)
  | .literal x => .literal x
  | _ => .none

def bytes (i : Instruction) : List UInt8 := i.opcode.byte :: i.operand.bytes

def size (i : Instruction) : Nat := 1 + i.opcode.operandSize

theorem length_bytes (i : Instruction) : i.bytes.length = i.size := by
  cases i <;> simp [bytes, size, opcode, operand, Operand.bytes, Opcode.operandSize]

end Instruction

end FormulaCode
