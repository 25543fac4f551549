import FormulaCode.Compilation
import FormulaCode.Text.Quoted

namespace FormulaCode

inductive Level
  | error | warn | info | debug | trace
  deriving DecidableEq, Repr

def Level.rank : Level → Nat
  | .error => 0
  | .warn => 1
  | .info => 2
  | .debug => 3
  | .trace => 4

def Level.name : Level → String
  | .error => "ERROR"
  | .warn => "WARN"
  | .info => "INFO"
  | .debug => "DEBUG"
  | .trace => "TRACE"

structure Record where
  level : Level
  target : String
  message : String
  deriving DecidableEq, Repr

namespace Record

def ofCompiler (level : Level) (part message : String) : Record :=
  ⟨level, "softcalc_codegen::" ++ part, message⟩

def line (r : Record) : String := r.level.name ++ " " ++ r.target ++ ": " ++ r.message

def paddedLine (r : Record) : String :=
  let blanks := String.ofList (List.replicate (5 - r.level.name.length) ' ')
  r.level.name ++ blanks ++ " " ++ r.target ++ ": " ++ r.message

end Record

def Numeral.refusal (n : Numeral) : String := "\"" ++ String.ofList n.text ++ "\" is not a number"

def Event.record? : Event → Option Record
  | .token t => some <| .ofCompiler .trace "tokenizer" <|
    "Token " ++ Text.quoted t.text ++ " (" ++ t.element.kind.name ++ ") at " ++ toString t.position
  | .emit e => some (.ofCompiler .trace "emit" ("Emit " ++ e.text))
  | .refused n => some (.ofCompiler .debug "compile" n.refusal)
  | .zeroed n => some <| .ofCompiler .warn "literal" <|
    "Numeral " ++ Text.quoted n.text ++ " is malformed, encoding 0"
  | .breach _ => none

namespace Compilation

def firstRecord (c : Compilation) : Record :=
  .ofCompiler .debug "compile" ("Compiling expression " ++ Text.quoted c.expression.toList)

def lastRecord (c : Compilation) : Record :=
  .ofCompiler .debug "compile" <| match c.result with
    | .ok _ =>
      "Compiled " ++ toString ((codeBytes c.emissions).length + 1) ++ " bytes, value stack depth " ++
        toString c.tally.highest
    | .error e => "Compile failed: " ++ e.message

def records (c : Compilation) : List Record :=
  c.firstRecord :: c.events.filterMap Event.record? ++ [c.lastRecord]

end Compilation

end FormulaCode
