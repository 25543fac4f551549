import FormulaCode.Lexeme
import FormulaCode.Options

/-!
The compiler as a machine that reads lexemes and emits code.

Operators wait on a stack until one arrives that binds no stronger than they do. Open parentheses wait
there with the least priority, so that only what closes them takes them away, and each remembers the
depth of the value stack at which its list starts.
-/

namespace FormulaCode

inductive Event
  | token (t : Token)
  | emit (e : Emission)
  | refused (n : Numeral)
  | zeroed (n : Numeral)
  | breach (b : Breach)
  deriving DecidableEq, Repr

abbrev OperatorStack := List Element

def OperatorStack.push (limit : Nat) (e : Element) (stack : OperatorStack) :
    Except ErrorKind OperatorStack :=
  if stack.length < limit then .ok (e :: stack) else .error .expressionTooComplex

structure ArgumentList where
  base : Int
  separated : Int
  deriving DecidableEq, Repr

structure State where
  pending : OperatorStack := []
  depth : Int := 0
  operandNeeded : Bool := true
  fresh : Bool := true
  openConditionals : Nat := 0
  lists : List ArgumentList := []
  deriving DecidableEq, Repr

structure Step (α : Type) where
  events : List Event
  result : Except ErrorKind α

namespace Step

variable {α β : Type}

def andThen (x : Step α) (f : α → Step β) : Step β :=
  match x.result with
  | .error k => ⟨x.events, .error k⟩
  | .ok a => ⟨x.events ++ (f a).events, (f a).result⟩

instance : Monad Step where
  pure a := ⟨[], .ok a⟩
  bind := andThen

@[simp] theorem events_pure (a : α) : (pure a : Step α).events = [] := rfl

@[simp] theorem result_pure (a : α) : (pure a : Step α).result = .ok a := rfl

theorem bind_of_ok {x : Step α} {a : α} (h : x.result = .ok a) (f : α → Step β) :
    x >>= f = ⟨x.events ++ (f a).events, (f a).result⟩ := by
  change x.andThen f = _
  rw [andThen, h]

theorem bind_of_error {x : Step α} {k : ErrorKind} (h : x.result = .error k) (f : α → Step β) :
    x >>= f = ⟨x.events, .error k⟩ := by
  change x.andThen f = _
  rw [andThen, h]

instance : LawfulMonad Step := LawfulMonad.mk' Step
  (fun x => by
    change x.andThen (fun a => ⟨[], .ok (id a)⟩) = x
    obtain ⟨events, result⟩ := x
    cases result <;> simp [andThen])
  (fun a f => by
    change andThen ⟨[], .ok a⟩ f = f a
    simp [andThen])
  (fun x f g => by
    change (x.andThen f).andThen g = x.andThen fun a => (f a).andThen g
    obtain ⟨events, result⟩ := x
    cases result with
    | error k => rfl
    | ok a =>
      simp only [andThen]
      cases (f a).result <;> simp)

def fail (k : ErrorKind) : Step α := ⟨[], .error k⟩

def say (e : Event) : Step Unit := ⟨[e], .ok ()⟩

def require (condition : Bool) (k : ErrorKind) : Step Unit :=
  if condition then pure () else fail k

/-- A check on the compiler itself. A failure is noted and changes nothing else. -/
def check (condition : Bool) (b : Breach) : Step Unit :=
  if condition then pure () else say (.breach b)

def checkCounters (counters : List Int) : Step Unit := check (counters.all inCounterRange) .counterRange

end Step

namespace State

def emit (s : State) (es : List Emission) : Step State :=
  ⟨es.map .emit, .ok { s with depth := es.foldl Emission.depthAfter s.depth }⟩

def emitWhile (s : State) (condition : Element → Bool) : Step State :=
  { s with pending := s.pending.dropWhile condition }.emit
    ((s.pending.takeWhile condition).map fun e : Element => .op e.code)

def flush (s : State) (strong : Element → Bool) : Step State := do
  Step.check (!(s.pending.takeWhile strong).any Element.isOpenParen) .parenEmitted
  s.emitWhile strong

def push (limit : Nat) (e : Element) (s : State) : Step State :=
  match s.pending.push limit e with
  | .ok pending => pure { s with pending }
  | .error k => Step.fail k

def pushOperator (limit : Nat) (e : Element) (s : State) : Step State := do
  let s ← s.flush fun top => e.arrivalPriority ≤ top.stackPriority
  s.push limit e

def unwind (s : State) (otherwise : ErrorKind) : Step State := do
  let s ← s.emitWhile fun top => !top.isOpenParen
  Step.require (!s.pending.isEmpty) otherwise
  return s

def separateArgument (s : State) : Step State :=
  match s.lists with
  | [] => Step.fail .unbalancedParen
  | list :: lists => do
    Step.checkCounters [list.base + list.separated, list.base + list.separated + 1]
    Step.require (s.depth == list.base + list.separated + 1) .argumentCount
    Step.checkCounters [list.separated + 1]
    return { s with lists := { list with separated := list.separated + 1 } :: lists }

/-- Ends a list at its parenthesis: it has to leave one value for each argument, and the element in
front of it has to take so many. -/
def closeArguments (s : State) : Step State :=
  match s.lists with
  | [] => Step.fail .extraCloseParen
  | list :: lists => do
    let arguments := list.separated + 1
    Step.checkCounters [arguments, list.base + arguments]
    let expected := s.pending.head?.elim 1 Element.argumentCount
    Step.require (s.depth == list.base + arguments && arguments == expected) .argumentCount
    return { s with lists }

def operandDone (s : State) : State := { s with operandNeeded := false, fresh := false }

def literal (policy : LiteralPolicy) (n : Numeral) (s : State) : Step State :=
  match n.valueUnder policy with
  | none => do
    Step.say (.refused n)
    Step.fail .badLiteral
  | some x => do
    if n.value?.isNone then Step.say (.zeroed n)
    s.emit [.literal x]

/-- Ends the current expression. It has to be complete, with all parentheses and conditionals closed,
and to leave one value, or none if it is empty. -/
def finish (s : State) : Step State := do
  Step.require (!s.operandNeeded || s.fresh) .missingOperand
  let s ← s.emitWhile fun top => !top.isOpenParen
  Step.require s.pending.isEmpty .unbalancedParen
  Step.require (s.openConditionals == 0) .unbalancedConditional
  Step.require (s.depth == if s.fresh then 0 else 1) .argumentCount
  Step.check s.pending.isEmpty .operatorsLeft
  return { s with lists := [], operandNeeded := true, fresh := true }

def step (o : Options) (s : State) : Symbol → Step State
  | .operand e => do
    Step.require s.operandNeeded .missingOperand
    let s ← s.emit [e]
    return s.operandDone
  | .numeral n => do
    Step.require s.operandNeeded .missingOperand
    let s ← s.literal o.literalPolicy n
    return s.operandDone
  | .binary e => do
    Step.require (!s.operandNeeded) .missingOperand
    let s ← s.pushOperator o.maxStackDepth e
    return { s with operandNeeded := true }
  | .unary e => do
    Step.require s.operandNeeded .missingOperand
    let s ← s.pushOperator o.maxStackDepth e
    let lists := if e.isOpenParen then ⟨s.depth, 0⟩ :: s.lists else s.lists
    return { s with lists, operandNeeded := true, fresh := false }
  | .minus => do
    let fresh := s.fresh && !s.operandNeeded
    let s ← s.pushOperator o.maxStackDepth (Element.minus s.operandNeeded)
    return { s with operandNeeded := true, fresh }
  | .separator => do
    Step.require (!s.operandNeeded) .missingOperand
    let s ← s.unwind .unbalancedParen
    let s ← s.separateArgument
    return { s with operandNeeded := true }
  | .closeParen => do
    Step.require (!s.operandNeeded) .missingOperand
    let s ← s.unwind .extraCloseParen
    -- what is on top now is the parenthesis itself
    let s ← { s with pending := s.pending.drop 1 }.closeArguments
    return { s with operandNeeded := false }
  | .question => do
    Step.require (!s.operandNeeded) .missingOperand
    let s ← s.flush fun top => 0 < top.stackPriority
    let s ← s.emit [.op Opcode.branchIf.byte]
    return { s with openConditionals := s.openConditionals + 1, operandNeeded := true }
  | .colon => do
    Step.require (!s.operandNeeded) .missingOperand
    let s ← s.flush fun top => 0 < top.stackPriority
    Step.require (s.openConditionals != 0) .unbalancedConditional
    let s ← { s with openConditionals := s.openConditionals - 1 }.emit [.op Opcode.branchElse.byte]
    -- it comes out with the operators of the false branch, at the latest where the expression ends
    let s ← s.push o.maxStackDepth Element.branchEnd
    return { s with operandNeeded := true }
  | .terminator => do
    let s ← s.finish
    s.emit [.op Opcode.endExpr.byte]

end State

end FormulaCode
