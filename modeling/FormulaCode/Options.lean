import FormulaCode.Json
import FormulaCode.Numeral

namespace FormulaCode

structure Options where
  maxStackDepth : Nat := 80
  literalPolicy : LiteralPolicy := .strict
  deriving DecidableEq, Repr

namespace LiteralPolicy

def key : LiteralPolicy → String
  | .strict => "strict"
  | .zeroOnError => "zero_on_error"

def name : LiteralPolicy → String
  | .strict => "Strict"
  | .zeroOnError => "ZeroOnError"

def ofKey? (k : String) : Option LiteralPolicy :=
  if k = strict.key then some .strict
  else if k = zeroOnError.key then some .zeroOnError
  else none

/-- A policy is its key, or an object that has it as its only key, with no value. -/
def ofJson? : Json → Option LiteralPolicy
  | .string k => ofKey? k
  | .object [(k, .null)] => ofKey? k
  | _ => none

end LiteralPolicy

def wordOfDigits? (digits : List Char) : Option Nat :=
  if digits.isEmpty || !digits.all Char.isDigit then none
  else
    let n := digits.foldl (fun n c => 10 * n + (c.toNat - 48)) 0
    if n < Nat.pow 2 64 then some n else none

namespace Options

def depthOfJson? : Json → Option Nat
  | .number spelling => wordOfDigits? spelling.toList
  | _ => none

def member? (key : String) (members : List (String × Json)) : Option Json :=
  (members.reverse.find? (·.1 == key)).map Prod.snd

/-- Reads a part that may be absent, in which case it has its default. -/
def part? {α : Type} (read : Json → Option α) (default : α) : Option Json → Option α
  | none => some default
  | some v => read v

def ofParts? (depth policy : Option Json) : Option Options := do
  let maxStackDepth ← part? depthOfJson? 80 depth
  let literalPolicy ← part? LiteralPolicy.ofJson? .strict policy
  return { maxStackDepth, literalPolicy }

/-- Options are an object, of which other keys are passed over, or an array of at most the two
values. -/
def ofJson? : Json → Option Options
  | .object members =>
    ofParts? (member? "max_stack_depth" members) (member? "literal_policy" members)
  | .array [] => ofParts? none none
  | .array [depth] => ofParts? (some depth) none
  | .array [depth, policy] => ofParts? (some depth) (some policy)
  | _ => none

def json (o : Options) : Json :=
  .object [("max_stack_depth", .ofNat o.maxStackDepth),
    ("literal_policy", .string o.literalPolicy.key)]

def summary (o : Options) : String :=
  "CompileOptions \x7b max_stack_depth: " ++ toString o.maxStackDepth ++ ", literal_policy: " ++
    o.literalPolicy.name ++ " \x7d"

end Options

end FormulaCode
