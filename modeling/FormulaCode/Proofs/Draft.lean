import FormulaCode.Proofs.Phrase
import FormulaCode.State

/-! Drafts: the compiler as a reader that builds phrases, with operators that wait for their right
operand. A state of the compiler is a view of a draft. -/

namespace FormulaCode

variable {policy : LiteralPolicy}

inductive Frame (policy : LiteralPolicy)
  | apply (f : Function)
  | binary (f : BinaryForm) (l : Phrase policy)

namespace Frame

def element : Frame policy → Element
  | .apply f => f.element
  | .binary f _ => f.element

def instruction : Frame policy → Instruction
  | .apply f => f.instruction
  | .binary f _ => .binary f.op

def fill (e : Phrase policy) : Frame policy → Phrase policy
  | .apply f => .apply f e
  | .binary f l => .binary f l e

def words : Frame policy → List (Word policy)
  | .apply f => [f.word]
  | .binary f l => l.words ++ [f.word]

def code : Frame policy → List Instruction
  | .apply _ => []
  | .binary _ l => l.main

def net : Frame policy → Int
  | .apply _ => 0
  | .binary _ l => l.net

end Frame

def complete (frames : List (Frame policy)) (e : Phrase policy) : Phrase policy :=
  frames.foldl (fun e frame => frame.fill e) e

def expectedOf : List (Frame policy) → Nat
  | .apply f :: _ => f.arity
  | _ => 1

/-- What has been read since an open parenthesis: the arguments that a separator has ended, the latest
first, what stands before the last mark, and the operators after it that wait. -/
structure Group (policy : LiteralPolicy) where
  arguments : List (Phrase policy) := []
  chain : Option (Phrase policy × Mark) := none
  frames : List (Frame policy) := []

namespace Group

def isEmpty (g : Group policy) : Bool := g.arguments.isEmpty && g.chain.isNone && g.frames.isEmpty

def linked (g : Group policy) (e : Phrase policy) : Phrase policy :=
  match g.chain with
  | none => e
  | some (l, m) => .mark m l e

def closed (g : Group policy) (e : Phrase policy) : Phrase policy := g.linked (complete g.frames e)

def expected (g : Group policy) : Nat := expectedOf g.frames

def ends (g : Group policy) : Nat := g.chain.elim 0 fun c => c.1.ends + c.2.ends

def pending (g : Group policy) : List Element :=
  g.frames.map Frame.element ++ List.replicate g.ends .branchEnd

def words (g : Group policy) : List (Word policy) :=
  g.arguments.reverse.flatMap (fun a => a.words ++ [.separator]) ++
    g.chain.elim [] (fun c => c.1.words ++ [.mark c.2]) ++ g.frames.reverse.flatMap Frame.words

def code (g : Group policy) : List Instruction :=
  g.arguments.reverse.flatMap Phrase.code ++
    g.chain.elim [] (fun c => c.1.main ++ [c.2.instruction]) ++ g.frames.reverse.flatMap Frame.code

def net (g : Group policy) : Int :=
  (g.arguments.map Phrase.net).sum + g.chain.elim 0 (fun c => c.1.net - 1) +
    (g.frames.map Frame.net).sum

end Group

/-- The expressions that have ended, the latest first, and the one that is read: the groups around the
current one, the current one, an operand after which an operator has to come, and the number of `?`
that wait for their `:`. -/
structure Draft (policy : LiteralPolicy) where
  ended : List (Option (Phrase policy)) := []
  outer : List (Group policy) := []
  group : Group policy := {}
  value : Option (Phrase policy) := none
  waiting : Nat := 0

namespace Draft

def isFresh (d : Draft policy) : Bool := d.outer.isEmpty && d.group.isEmpty && d.value.isNone

def netOf (groups : List (Group policy)) : Int := (groups.map Group.net).sum

def listsOf : List (Group policy) → List ArgumentList
  | [] => []
  | [_] => []
  | g :: h :: rest => ⟨netOf (h :: rest), g.arguments.length⟩ :: listsOf (h :: rest)

def state (d : Draft policy) : State where
  pending := d.group.pending ++ d.outer.flatMap fun g => .openParen :: g.pending
  depth := netOf (d.group :: d.outer) + d.value.elim 0 Phrase.net
  operandNeeded := d.value.isNone
  fresh := d.isFresh
  openConditionals := d.waiting
  lists := listsOf (d.group :: d.outer)

def endedCode (ended : List (Option (Phrase policy))) : List Instruction :=
  ended.reverse.flatMap fun e => e.elim [] Phrase.code ++ [.endExpr]

def code (d : Draft policy) : List Instruction :=
  endedCode d.ended ++ d.outer.reverse.flatMap Group.code ++ d.group.code ++
    d.value.elim [] Phrase.main

def endedWords (ended : List (Option (Phrase policy))) : List (Word policy) :=
  ended.reverse.flatMap fun e => e.elim [] Phrase.words ++ [.terminator]

def words (d : Draft policy) : List (Word policy) :=
  endedWords d.ended ++ d.outer.reverse.flatMap (fun g => g.words ++ [.openParen]) ++ d.group.words ++
    d.value.elim [] Phrase.words

def push (d : Draft policy) (f : BinaryForm) (e : Phrase policy) : Draft policy :=
  let strong := fun frame : Frame policy => decide (f.priority ≤ frame.element.stackPriority)
  let l := complete (d.group.frames.takeWhile strong) e
  { d with
    group := { d.group with frames := .binary f l :: d.group.frames.dropWhile strong }
    value := none }

def hold (d : Draft policy) (f : Function) : Draft policy :=
  { d with group := { d.group with frames := .apply f :: d.group.frames } }

def marked (d : Draft policy) (m : Mark) (e : Phrase policy) (waiting : Nat) : Draft policy :=
  { d with
    group := { d.group with chain := some (d.group.closed e, m), frames := [] }
    value := none
    waiting }

def listOf : List (Phrase policy) → Phrase policy → Option (Phrase policy)
  | [], e => some (.paren e)
  | [a], e => some (.pair a e)
  | _, _ => none

def finish (d : Draft policy) : Option (Option (Phrase policy)) :=
  match d.outer, d.value with
  | [], some e =>
    if d.waiting = 0 ∧ (d.group.closed e).net = 1 then some (some (d.group.closed e)) else none
  | _, none => if d.isFresh then some none else none
  | _, _ => none

def step (d : Draft policy) (w : Word policy) : Option (Draft policy) :=
  match w, d.value with
  | .atom a, none => some { d with value := some (.atom a) }
  | .function f, none => some (d.hold f)
  | .operator f, some e => some (d.push f e)
  | .minus, none => some (d.hold (.one .negate))
  | .minus, some e => some (d.push .subtract e)
  | .openParen, none => some { d with outer := d.group :: d.outer, group := {} }
  | .separator, some e =>
    let e := d.group.closed e
    if d.outer ≠ [] ∧ e.net = 1 then
      some { d with group := { arguments := e :: d.group.arguments }, value := none }
    else none
  | .closeParen, some e =>
    match d.outer with
    | [] => none
    | g :: outer =>
      let e := d.group.closed e
      if e.net = 1 ∧ d.group.arguments.length + 1 = g.expected then
        (listOf d.group.arguments e).map fun l => { d with outer, group := g, value := some l }
      else none
  | .mark .question, some e => some (d.marked .question e (d.waiting + 1))
  | .mark .colon, some e =>
    if d.waiting = 0 then none else some (d.marked .colon e (d.waiting - 1))
  | .terminator, _ => d.finish.map fun e => { ended := e :: d.ended }
  | _, _ => none

inductive Reads (d : Draft policy) : Word policy → Draft policy → Prop
  | atom (hv : d.value = none) (a : Atom policy) : Reads d (.atom a) { d with value := some (.atom a) }
  | function (hv : d.value = none) (f : Function) : Reads d (.function f) (d.hold f)
  | sign (hv : d.value = none) : Reads d .minus (d.hold (.one .negate))
  | operator {e : Phrase policy} (hv : d.value = some e) (f : BinaryForm) :
    Reads d (.operator f) (d.push f e)
  | subtraction {e : Phrase policy} (hv : d.value = some e) : Reads d .minus (d.push .subtract e)
  | openParen (hv : d.value = none) :
    Reads d .openParen { d with outer := d.group :: d.outer, group := {} }
  | separator {e : Phrase policy} (hv : d.value = some e) (ho : d.outer ≠ [])
    (hn : (d.group.closed e).net = 1) : Reads d .separator
      { d with group := { arguments := d.group.closed e :: d.group.arguments }, value := none }
  | closeParen {e l : Phrase policy} {g : Group policy} {outer : List (Group policy)}
    (hv : d.value = some e) (ho : d.outer = g :: outer) (hn : (d.group.closed e).net = 1)
    (ha : d.group.arguments.length + 1 = g.expected)
    (hl : listOf d.group.arguments (d.group.closed e) = some l) :
    Reads d .closeParen { d with outer, group := g, value := some l }
  | question {e : Phrase policy} (hv : d.value = some e) :
    Reads d (.mark .question) (d.marked .question e (d.waiting + 1))
  | colon {e : Phrase policy} (hv : d.value = some e) (hw : d.waiting ≠ 0) :
    Reads d (.mark .colon) (d.marked .colon e (d.waiting - 1))
  | terminator {x : Option (Phrase policy)} (hf : d.finish = some x) :
    Reads d .terminator { ended := x :: d.ended }

lemma reads_of_step {d d' : Draft policy} {w : Word policy} (h : d.step w = some d') :
    d.Reads w d' := by
  rw [step.eq_def] at h
  split at h
  case h_7 e hv =>
    obtain ⟨⟨ho, hn⟩, h⟩ := Option.ite_none_right_eq_some.1 h
    exact Option.some.inj h ▸ .separator hv ho hn
  case h_8 e hv =>
    cases ho : d.outer with
    | nil => simp [ho] at h
    | cons g outer =>
      simp only [ho, Option.ite_none_right_eq_some, Option.map_eq_some_iff] at h
      obtain ⟨⟨hn, ha⟩, l, hl, rfl⟩ := h
      exact .closeParen hv ho hn ha hl
  case h_10 e hv =>
    obtain ⟨hw, h⟩ := Option.ite_none_left_eq_some.1 h
    exact Option.some.inj h ▸ .colon hv hw
  case h_11 =>
    obtain ⟨x, hf, rfl⟩ := Option.map_eq_some_iff.1 h
    exact .terminator hf
  case h_12 => cases h
  all_goals
    cases h
    constructor
    assumption

def run (d : Draft policy) (ws : List (Word policy)) : Option (Draft policy) := ws.foldlM step d

end Draft

end FormulaCode
