import FormulaCode.Instruction

namespace FormulaCode

structure Program where
  body : List Instruction
  deriving DecidableEq, Repr

inductive ProgramError
  | badExpression
  | invalidOpcode (offset : Nat) (byte : UInt8)
  | truncatedOperand (offset : Nat)
  | invalidVariable (offset : Nat) (index : UInt8)
  | missingTerminator
  | trailingBytes (offset : Nat)
  deriving DecidableEq, Repr

def hexByte (digits : List Char) (b : UInt8) : String :=
  let digit (n : Nat) := digits.getD (n % 16) '0'
  String.ofList [digit (b.toNat / 16), digit b.toNat]

def lowerHex : List Char := "0123456789abcdef".toList

def upperHex : List Char := "0123456789ABCDEF".toList

def ProgramError.message : ProgramError → String
  | .badExpression => "program is marked as a bad expression"
  | .invalidOpcode offset byte =>
    "invalid opcode 0x" ++ hexByte upperHex byte ++ " at offset " ++ toString offset
  | .truncatedOperand offset =>
    "operand of instruction at offset " ++ toString offset ++ " is truncated"
  | .invalidVariable offset index =>
    "variable index " ++ toString index.toNat ++ " at offset " ++ toString offset ++
      " is out of range"
  | .missingTerminator => "program is missing the END_STACK terminator"
  | .trailingBytes offset => "unexpected bytes after END_STACK at offset " ++ toString offset

namespace Program

def decode (offset : Nat) : List UInt8 → Except ProgramError (List Instruction)
  | [] => .error .missingTerminator
  | b :: rest =>
    match Opcode.ofByte? b, rest with
    | none, _ => .error (.invalidOpcode offset b)
    | some .fetch, i :: rest =>
      if h : i.toNat < 26 then (decode (offset + 2) rest).map (.fetch ⟨i.toNat, h⟩ :: ·)
      else .error (.invalidVariable offset i)
    | some .fetch, [] => .error (.truncatedOperand offset)
    | some .literal, b₀ :: b₁ :: b₂ :: b₃ :: b₄ :: b₅ :: b₆ :: b₇ :: rest =>
      (decode (offset + 9) rest).map
        (.literal (Double.ofBytes [b₀, b₁, b₂, b₃, b₄, b₅, b₆, b₇]) :: ·)
    | some .literal, _ => .error (.truncatedOperand offset)
    | some (.constant c), rest => (decode (offset + 1) rest).map (.constant c :: ·)
    | some (.unary f), rest => (decode (offset + 1) rest).map (.unary f :: ·)
    | some (.binary f), rest => (decode (offset + 1) rest).map (.binary f :: ·)
    | some .branchIf, rest => (decode (offset + 1) rest).map (.branchIf :: ·)
    | some .branchElse, rest => (decode (offset + 1) rest).map (.branchElse :: ·)
    | some .branchEnd, rest => (decode (offset + 1) rest).map (.branchEnd :: ·)
    | some .endExpr, rest => (decode (offset + 1) rest).map (.endExpr :: ·)
    | some .stop, [] => .ok []
    | some .stop, _ :: _ => .error (.trailingBytes (offset + 1))

/-- Reads a program. The mark of a failed compilation in front is refused before all else. -/
def ofBytes (bs : List UInt8) : Except ProgramError Program :=
  if bs.head? = some badExpressionByte then .error .badExpression
  else (decode 0 bs).map Program.mk

def bytes (p : Program) : List UInt8 := p.body.flatMap Instruction.bytes ++ [Opcode.stop.byte]

def size (p : Program) : Nat := p.bytes.length

def isEmpty (p : Program) : Bool := p.body.isEmpty

end Program

end FormulaCode
