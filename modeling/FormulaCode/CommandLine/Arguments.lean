import FormulaCode.Listing
import FormulaCode.Options

namespace FormulaCode.CommandLine

inductive Action
  | compile (expression : String) (format : Format) (options : Options)
  | check (expression : String) (options : Options)
  | version
  deriving DecidableEq, Repr

structure Invocation where
  verbosity : Nat
  logFile : Option String
  action : Action
  deriving DecidableEq, Repr

inductive Shape
  | escape
  | long (name : String) (value : Option String)
  | short (letters : List Char)
  | plain
  deriving DecidableEq, Repr

def shape (argument : String) : Shape :=
  match argument.toList with
  | ['-', '-'] => .escape
  | '-' :: '-' :: cs =>
    match cs.dropWhile (· != '=') with
    | [] => .long (String.ofList cs) none
    | _ :: value => .long (String.ofList (cs.takeWhile (· != '='))) (some (String.ofList value))
  | '-' :: c :: cs => .short (c :: cs)
  | _ => .plain

def formatOfName? (name : String) : Option Format :=
  if name = "listing" then some .listing
  else if name = "bytes" then some .bytes
  else if name = "json" then some .json
  else none

def limitOfText? (text : String) : Option Nat :=
  match text.toList with
  | '+' :: digits => wordOfDigits? digits
  | digits => wordOfDigits? digits

inductive Awaited
  | format | limit
  deriving DecidableEq, Repr

structure Draft where
  expression : Option String := none
  format : Option Format := none
  limit : Option Nat := none
  lenient : Bool := false
  awaited : Option Awaited := none
  plainOnly : Bool := false
  deriving DecidableEq, Repr

inductive Reading (α : Type)
  | done (a : α)
  | help
  | error
  deriving DecidableEq, Repr

def Reading.ofOption {α : Type} : Option α → Reading α
  | none => .error
  | some a => .done a

def Reading.andThen {α β : Type} (r : Reading α) (f : α → Reading β) : Reading β :=
  match r with
  | .done a => f a
  | .help => .help
  | .error => .error

namespace Draft

def addPlain (d : Draft) (text : String) : Reading Draft :=
  if d.expression.isSome then .error else .done { d with expression := some text }

def addFormat (d : Draft) (text : String) : Reading Draft :=
  if d.format.isSome then .error
  else .ofOption <| (formatOfName? text).map fun f => { d with format := some f, awaited := none }

def addLimit (d : Draft) (text : String) : Reading Draft :=
  if d.limit.isSome then .error
  else .ofOption <| (limitOfText? text).map fun n => { d with limit := some n, awaited := none }

def addValue (d : Draft) (option : Awaited) (text : String) : Reading Draft :=
  match option with
  | .format => d.addFormat text
  | .limit => d.addLimit text

def addLenient (d : Draft) : Reading Draft :=
  if d.lenient then .error else .done { d with lenient := true }

def addOption (d : Draft) (option : Awaited) (value : Option String) : Reading Draft :=
  match value with
  | some text => d.addValue option text
  | none => .done { d with awaited := some option }

def addFlag (value : Option String) (r : Reading Draft) : Reading Draft :=
  if value.isSome then .error else r

/-- Reads one argument. What looks like an option but is none is the expression, if there is none
yet. -/
def add (formats : Bool) (d : Draft) (argument : String) : Reading Draft :=
  match d.awaited, shape argument with
  | some option, .plain => d.addValue option argument
  | some _, _ => .error
  | none, .plain => d.addPlain argument
  | none, .escape =>
    if d.plainOnly then d.addPlain argument else .done { d with plainOnly := true }
  | none, .short letters =>
    if d.plainOnly || (d.expression.isNone && letters.any (· != 'h')) then d.addPlain argument
    else if letters.head? = some 'h' then .help
    else .error
  | none, .long name value =>
    if d.plainOnly then d.addPlain argument
    else if name = "max-stack-depth" then d.addOption .limit value
    else if name = "format" && formats then d.addOption .format value
    else if name = "lenient-literals" then addFlag value d.addLenient
    else if name = "help" then addFlag value .help
    else d.addPlain argument

def options (d : Draft) : Options :=
  { maxStackDepth := d.limit.getD 80
    literalPolicy := if d.lenient then .zeroOnError else .strict }

def read (formats : Bool) (d : Draft) : List String → Reading Draft
  | [] => if d.awaited.isSome then .error else .done d
  | a :: rest => (d.add formats a).andThen fun d => d.read formats rest

end Draft

def readAction (name : String) (arguments : List String) : Reading Action :=
  if name = "compile" then
    (Draft.read true {} arguments).andThen fun d => .ofOption <|
      d.expression.map fun e => .compile e (d.format.getD .listing) d.options
  else if name = "check" then
    (Draft.read false {} arguments).andThen fun d => .ofOption <|
      d.expression.map fun e => .check e d.options
  else if name = "version" then
    match arguments.map shape with
    | [] | [.escape] => .done .version
    | .short ('h' :: _) :: _ | .long "help" none :: _ => .help
    | _ => .error
  else if name = "help" then
    match arguments with
    | [] | ["compile"] | ["check"] | ["version"] | ["help"] => .help
    | _ => .error
  else .error

inductive Letters
  | done (verbosity : Nat)
  | logFile (verbosity : Nat) (path : Option String)
  | help
  | error
  deriving DecidableEq, Repr

def readLetters (verbosity : Nat) : List Char → Letters
  | [] => .done verbosity
  | 'v' :: cs => readLetters (verbosity + 1) cs
  | 'h' :: _ => .help
  | ['l'] => .logFile verbosity none
  | 'l' :: '=' :: cs => .logFile verbosity (some (String.ofList cs))
  | 'l' :: cs => .logFile verbosity (some (String.ofList cs))
  | _ :: _ => .error

structure Front where
  verbosity : Nat := 0
  logFile : Option String := none
  awaited : Bool := false
  deriving DecidableEq, Repr

namespace Front

def addLogFile (f : Front) : Option String → Reading Front
  | some path =>
    if f.logFile.isSome || path.isEmpty then .error
    else .done { f with logFile := some path, awaited := false }
  | none => .done { f with awaited := true }

def add (f : Front) (argument : String) : Reading Front :=
  match f.awaited, shape argument with
  | true, .plain => f.addLogFile (some argument)
  | true, _ => .error
  | false, .short letters => match readLetters f.verbosity letters with
    | .done verbosity => .done { f with verbosity }
    | .logFile verbosity path => { f with verbosity }.addLogFile path
    | .help => .help
    | .error => .error
  | false, .long name value =>
    if name = "log-file" then f.addLogFile value
    else if value.isSome then .error
    else if name = "verbose" then .done { f with verbosity := f.verbosity + 1 }
    else if name = "help" then .help
    else .error
  | false, _ => .error

def invocation (f : Front) (action : Action) : Invocation := ⟨min f.verbosity 255, f.logFile, action⟩

def read (f : Front) : List String → Reading Invocation
  | [] => .error
  | a :: rest =>
    if !f.awaited && shape a == .plain then
      (readAction a rest).andThen fun action => .done (f.invocation action)
    else (f.add a).andThen fun f => f.read rest

end Front

def Invocation.ofArguments (arguments : List String) : Reading Invocation := Front.read {} arguments

end FormulaCode.CommandLine
