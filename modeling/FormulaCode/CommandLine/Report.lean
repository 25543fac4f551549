import FormulaCode.CommandLine.Arguments
import FormulaCode.Record

namespace FormulaCode.CommandLine

def versionText : String := "softcalc version 0.3.0\n"

inductive Message
  | record (r : Record)
  | text (s : String)
  deriving DecidableEq, Repr

structure Report where
  exitCode : Nat
  output : String := ""
  messages : List Message := []
  log : List Record := []
  deriving DecidableEq, Repr

def levelOf? : Nat → Option Level
  | 0 => some .error
  | 1 => some .warn
  | 2 => some .info
  | 3 => some .debug
  | 4 => some .trace
  | _ => none

def Invocation.logToOpen? (i : Invocation) : Option String :=
  (levelOf? i.verbosity).bind fun _ => i.logFile

def errorText (message : String) : Message :=
  .text ("Error: " ++ Text.quoted message.toList ++ "\n")

def Report.ofError (message : String) : Report :=
  { exitCode := 1, messages := [errorText message] }

def commandRecord (level : Level) (part message : String) : Message :=
  .record ⟨level, "softcalc::" ++ part, message⟩

def compileReport (o : Options) (expression : String) (write : Program → String) : Report :=
  let c := Compilation.ofExpression o expression
  let records := commandRecord .debug "cli" ("Options " ++ o.summary) :: c.records.map .record
  match c.outcome with
  | .program p => { exitCode := 0, output := write p, messages := records }
  | .failure f =>
    { exitCode := 1
      messages := records ++
        [commandRecord .error "cli" ("Compile failed with code " ++ toString f.error.kind.code),
          .text (f.error.caret expression ++ "\n"),
          errorText ("Error compiling expression: " ++ f.error.message)] }
  | .breach _ => { exitCode := 101 }

def Action.report : Action → Report
  | .compile expression format options =>
    compileReport options expression fun p => p.render expression format
  | .check expression options => compileReport options expression fun _ => ""
  | .version => { exitCode := 0, output := versionText }

def Message.isShown (level : Level) : Message → Bool
  | .record r => r.level.rank ≤ level.rank
  | .text _ => true

def Message.record? : Message → Option Record
  | .record r => some r
  | .text _ => none

/-- The report of an invocation, given how opening its log file ended. With a log file, the records go
there and all else stays with the messages. -/
def Invocation.report (i : Invocation) (opened : Except String Unit) : Report :=
  match levelOf? i.verbosity with
  | none => .ofError <| "Verbosity is limited to -vvvv, got " ++ toString i.verbosity ++ " -v flags"
  | some level =>
    let report := i.action.report
    let first := commandRecord .debug "logger" ("Logging SoftCalc records at " ++ level.name)
    let messages := (first :: report.messages).filter (·.isShown level)
    match i.logFile, opened with
    | some path, .error reason => .ofError ("Cannot open log file " ++ path ++ ": " ++ reason)
    | some _, .ok _ =>
      { report with
        messages := messages.filter (·.record?.isNone)
        log := messages.filterMap Message.record? }
    | none, _ => { report with messages }

end FormulaCode.CommandLine
