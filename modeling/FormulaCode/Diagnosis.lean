import FormulaCode.Text.Offset

namespace FormulaCode

inductive ErrorKind
  | missingOperand
  | unbalancedParen
  | extraCloseParen
  | unknownToken
  | badLiteral
  | unbalancedConditional
  | expressionTooComplex
  | argumentCount
  deriving DecidableEq, Repr

namespace ErrorKind

def code : ErrorKind → Nat
  | .missingOperand => 1
  | .unbalancedParen => 2
  | .extraCloseParen => 3
  | .unknownToken => 4
  | .badLiteral => 5
  | .unbalancedConditional => 6
  | .expressionTooComplex => 7
  | .argumentCount => 8

def message : ErrorKind → String
  | .missingOperand => "operand and operator out of sequence"
  | .unbalancedParen => "parenthesis or separator without a matching open parenthesis"
  | .extraCloseParen => "close parenthesis found without open"
  | .unknownToken => "unknown operator or operand"
  | .badLiteral => "badly formed numeric literal"
  | .unbalancedConditional => "unbalanced conditional ?: operators"
  | .expressionTooComplex => "expression exceeds the operator stack limit"
  | .argumentCount => "wrong number of arguments"

end ErrorKind

structure CompileError where
  kind : ErrorKind
  position : Nat
  deriving DecidableEq, Repr

def CompileError.message (e : CompileError) : String :=
  e.kind.message ++ " at offset " ++ toString e.position

structure Failure where
  error : CompileError
  emitted : List UInt8
  deriving DecidableEq, Repr

namespace CompileError

/-- The column of the caret: the characters before the position, which stops at the end of the text.
Inside a character it is `0`. -/
def column (e : CompileError) (expression : String) : Nat :=
  let cs := expression.toList
  (Text.charsBefore? (min e.position (Text.byteLength cs)) cs).getD 0

def caret (e : CompileError) (expression : String) : String :=
  expression ++ "\n" ++ String.ofList (List.replicate (e.column expression) ' ') ++ "^ " ++
    e.kind.message

end CompileError

end FormulaCode
