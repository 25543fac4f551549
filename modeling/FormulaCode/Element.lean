import FormulaCode.Opcode

namespace FormulaCode

inductive ElementKind
  | operand
  | unary
  | binary
  | minus
  | conditional
  | closeParen
  | separator
  | terminator
  | numeral
  deriving DecidableEq, Repr

def ElementKind.name : ElementKind → String
  | .operand => "Operand"
  | .unary => "UnaryOperator"
  | .binary => "BinaryOperator"
  | .minus => "AmbiguousMinus"
  | .conditional => "Conditional"
  | .closeParen => "CloseParen"
  | .separator => "Separator"
  | .terminator => "ExprTerminator"
  | .numeral => "FloatLiteralMarker"

/-- An element with its text, its priority while it waits on the operator stack, its priority when it
arrives, its role and the byte of its operation. -/
structure Element where
  pattern : String
  stackPriority : Nat
  arrivalPriority : Nat
  kind : ElementKind
  code : UInt8
  deriving DecidableEq, Repr

namespace Element

def isOpenParen (e : Element) : Bool := e.kind == .unary && e.code == parenByte

/-- How many values a parenthesized list directly after the element has to hold. -/
def argumentCount (e : Element) : Nat :=
  if e.kind == .unary && stackEffect e.code < 0 then 2 else 1

def starts (e : Element) (text : List Char) : Bool := e.pattern.toList.isPrefixOf text

def first? (table : List Element) (text : List Char) : Option Element :=
  table.find? (·.starts text)

end Element

inductive TableError
  | shadowed (earlier later : String)
  | emptyPattern (index : Nat)
  deriving DecidableEq, Repr

def TableError.message : TableError → String
  | .shadowed earlier later =>
    "pattern \"" ++ later ++ "\" can never match because \"" ++ earlier ++ "\" precedes it"
  | .emptyPattern index => "element " ++ toString index ++ " has an empty pattern"

namespace Element

def checkAfter (earlier : List Element) : List Element → Except TableError Unit
  | [] => .ok ()
  | e :: rest =>
    if e.pattern.toList.isEmpty then .error (.emptyPattern earlier.length)
    else match first? earlier e.pattern.toList with
      | some d => .error (.shadowed d.pattern e.pattern)
      | none => checkAfter (earlier ++ [e]) rest

def checkTable (table : List Element) : Except TableError Unit := checkAfter [] table

end Element

end FormulaCode
