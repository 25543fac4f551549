import FormulaCode.Program
import FormulaCode.Double.Text

namespace FormulaCode

inductive Breach
  | counterRange
  | operandLacking
  | parenEmitted
  | operatorsLeft
  | tableShadowed
  | programInvalid
  | capacityExceeded
  deriving DecidableEq, Repr

def inCounterRange (n : Int) : Bool := -2147483648 ≤ n && n ≤ 2147483647

inductive Emission
  | op (code : UInt8)
  | fetch (index : UInt8)
  | literal (x : Double)
  deriving DecidableEq, Repr

namespace Emission

def bytes : Emission → List UInt8
  | .op code => [code]
  | .fetch index => [Opcode.fetch.byte, index]
  | .literal x => Opcode.literal.byte :: x.bytes

def depthAfter (depth : Int) : Emission → Int
  | .op code => if code == Opcode.endExpr.byte then 0 else depth + stackEffect code
  | .fetch _ => depth + Opcode.fetch.stackEffect
  | .literal _ => depth + Opcode.literal.stackEffect

def text : Emission → String
  | .op code => mnemonic code
  | .fetch index => Opcode.fetch.mnemonic ++ " " ++ toString index.toNat
  | .literal x => Opcode.literal.mnemonic ++ " " ++ x.display

def isWhole : Emission → Bool
  | .op code => operandSize code == 0
  | _ => true

def ofInstruction : Instruction → Emission
  | .fetch v => .fetch (UInt8.ofNat v.val)
  | .literal x => .literal x
  | i => .op i.opcode.byte

end Emission

structure Tally where
  depth : Int := 0
  highest : Int := 0
  breaches : List Breach := []
  deriving DecidableEq, Repr

def Tally.add (t : Tally) (e : Emission) : Tally :=
  let depth := e.depthAfter t.depth
  { depth
    highest := max t.highest depth
    breaches := t.breaches ++ (if e.isWhole then [] else [.operandLacking]) ++
      (if inCounterRange depth then [] else [.counterRange]) }

def Tally.ofList (es : List Emission) : Tally := es.foldl Tally.add {}

def codeBytes (es : List Emission) : List UInt8 := es.flatMap Emission.bytes

def Program.ofEmissions (es : List Emission) : Except ProgramError Program :=
  Program.ofBytes (codeBytes es ++ [Opcode.stop.byte])

def failedBytes (es : List Emission) : List UInt8 := badExpressionByte :: (codeBytes es).drop 1

/-- The greatest number of bytes a program for an expression of `length` bytes may take: a numeral of
one character takes nine, and no other character more. -/
def capacityBound (length : Nat) : Nat := 9 * length + 1

def reservation? (length : Nat) : Option Nat :=
  if capacityBound length < Nat.pow 2 64 then some (capacityBound length) else none

end FormulaCode
