import FormulaCode.CommandLine.Report
import Std.Time.DateTime.Timestamp
import Std.Time.Format

namespace FormulaCode.CommandLine

def usageText : String :=
  "Usage: softcalc [-v]... [-l <LOG_FILE>] <compile|check|version> [ARGUMENTS]"

def reasonOf (e : IO.Error) : String :=
  match e with
  | .noFileOrDirectory _ code _ => "No such file or directory (os error " ++ toString code ++ ")"
  | .inappropriateType _ code _ => "Is a directory (os error " ++ toString code ++ ")"
  | .permissionDenied _ code _ => "Permission denied (os error " ++ toString code ++ ")"
  | e => toString e

def timeText : IO String := do
  let now ← Std.Time.Timestamp.now
  return (Std.Time.DateTime.ofTimestampWithZone now .UTC).toISO8601String

def recordText (r : Record) : IO String := do
  return (← timeText) ++ " " ++ r.paddedLine ++ "\n"

def writeMessage : Message → IO Unit
  | .record r => do IO.eprint (← recordText r)
  | .text s => IO.eprint s

def openLog (path : String) : IO (Except String IO.FS.Handle) := do
  try
    return .ok (← IO.FS.Handle.mk path .append)
  catch e => return .error (reasonOf e)

def runInvocation (i : Invocation) : IO UInt32 := do
  let opened ← i.logToOpen?.mapM openLog
  let report := i.report <| match opened with
    | some (.error reason) => .error reason
    | _ => .ok ()
  match opened with
  | some (.ok handle) => for r in report.log do handle.putStr (← recordText r)
  | _ => pure ()
  IO.print report.output
  for m in report.messages do writeMessage m
  return UInt32.ofNat report.exitCode

end FormulaCode.CommandLine

open FormulaCode.CommandLine in
def main (arguments : List String) : IO UInt32 := do
  match Invocation.ofArguments arguments with
  | .done i => runInvocation i
  | .help => do
    IO.println usageText
    return 0
  | .error => do
    IO.eprintln usageText
    return 2
