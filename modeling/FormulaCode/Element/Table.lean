import FormulaCode.Element

namespace FormulaCode.Element

def function (pattern : String) (op : Opcode) : Element := ⟨pattern, 7, 8, .unary, op.byte⟩

def operator (pattern : String) (priority : Nat) (f : BinaryOp) : Element :=
  ⟨pattern, priority, priority, .binary, f.byte⟩

def constant (pattern : String) (c : Constant) : Element := ⟨pattern, 0, 0, .operand, c.byte⟩

def numeralStart (pattern : String) : Element := ⟨pattern, 0, 0, .numeral, Opcode.literal.byte⟩

/-- An entry precedes every other one that starts with it. -/
def table : List Element :=
  [function "ABS" (.unary .abs),
    function "NOT" (.unary .bitNot),
    ⟨"-", 7, 8, .minus, UnaryOp.neg.byte⟩,
    function "SQRT" (.unary .sqrt),
    function "SQR" (.unary .sqrt),
    function "EXP" (.unary .exp),
    function "LOGE" (.unary .ln),
    function "LN" (.unary .ln),
    function "LOG" (.unary .log10),
    function "ACOS" (.unary .acos),
    function "ASIN" (.unary .asin),
    function "ATAN2" (.binary .atan2),
    function "ATAN" (.unary .atan),
    function "MAX" (.binary .max),
    function "MIN" (.binary .min),
    function "CEIL" (.unary .ceil),
    function "FLOOR" (.unary .floor),
    function "NINT" (.unary .round),
    function "COSH" (.unary .cosh),
    function "COS" (.unary .cos),
    function "SINH" (.unary .sinh),
    function "SIN" (.unary .sin),
    function "TANH" (.unary .tanh),
    function "TAN" (.unary .tan),
    operator "!=" 3 .ne,
    function "!" (.unary .not),
    function "~" (.unary .bitNot),
    constant "RNDM" .random,
    operator "OR" 1 .bitOr,
    operator "AND" 2 .bitAnd,
    operator "XOR" 1 .bitXor,
    constant "PI" .pi,
    constant "D2R" .degToRad,
    constant "R2D" .radToDeg,
    constant "S2R" .secToRad,
    constant "R2S" .radToSec,
    numeralStart "0",
    numeralStart "1",
    numeralStart "2",
    numeralStart "3",
    numeralStart "4",
    numeralStart "5",
    numeralStart "6",
    numeralStart "7",
    numeralStart "8",
    numeralStart "9",
    numeralStart ".",
    ⟨"?", 0, 0, .conditional, Opcode.branchIf.byte⟩,
    ⟨":", 0, 0, .conditional, Opcode.branchElse.byte⟩,
    ⟨"(", 0, 8, .unary, parenByte⟩,
    operator "^" 6 .pow,
    operator "**" 6 .pow,
    operator "+" 4 .add,
    operator "*" 5 .mul,
    operator "/" 5 .div,
    operator "%" 5 .rem,
    ⟨",", 0, 0, .separator, parenByte⟩,
    ⟨")", 0, 0, .closeParen, parenByte⟩,
    operator "||" 1 .or,
    operator "|" 1 .bitOr,
    operator "&&" 2 .and,
    operator "&" 2 .bitAnd,
    operator ">>" 2 .shiftRight,
    operator ">=" 3 .ge,
    operator ">" 3 .gt,
    operator "<<" 2 .shiftLeft,
    operator "<=" 3 .le,
    operator "<" 3 .lt,
    operator "#" 3 .ne,
    operator "==" 3 .eq,
    operator "=" 3 .eq,
    ⟨";", 0, 0, .terminator, Opcode.endExpr.byte⟩]

def fetch : Element := ⟨"A", 0, 0, .operand, Opcode.fetch.byte⟩

def negate : Element := ⟨"-", 7, 8, .unary, UnaryOp.neg.byte⟩

def subtract : Element := ⟨"-", 4, 4, .binary, BinaryOp.sub.byte⟩

/-- Waits below the false branch of a conditional to mark its end. -/
def branchEnd : Element := ⟨":", 0, 0, .conditional, Opcode.branchEnd.byte⟩

def minus (operandNeeded : Bool) : Element := if operandNeeded then negate else subtract

theorem table_pattern_ne_nil : ∀ e ∈ table, e.pattern.toList ≠ [] := by decide

theorem checkTable_table : checkTable table = .ok () := by rfl

end FormulaCode.Element
