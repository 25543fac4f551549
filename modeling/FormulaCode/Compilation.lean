import FormulaCode.State

namespace FormulaCode

def State.run (o : Options) (s : State) : List Lexeme → List Event × Except CompileError State
  | [] => ([], .ok s)
  | x :: xs =>
    let r := s.step o x.symbol
    match r.result with
    | .error k => (.token x.token :: r.events, .error ⟨k, x.token.position⟩)
    | .ok s' =>
      let (events, result) := s'.run o xs
      (.token x.token :: r.events ++ events, result)

theorem State.run_append {o : Options} {s s' : State} {xs : List Lexeme} {events : List Event}
    (h : s.run o xs = (events, .ok s')) (ys : List Lexeme) :
    s.run o (xs ++ ys) = (events ++ (s'.run o ys).1, (s'.run o ys).2) := by
  induction xs generalizing s events with
  | nil =>
    obtain ⟨rfl, hs⟩ := Prod.mk.inj h
    cases hs
    rfl
  | cons x xs ih =>
    simp only [List.cons_append, run] at h ⊢
    cases hr : (s.step o x.symbol).result with
    | error k => simp [hr] at h
    | ok t =>
      simp only [hr, Prod.mk.injEq] at h
      obtain ⟨rfl, ht⟩ := h
      simp [ih (Prod.ext rfl ht)]

theorem State.run_append_of_error {o : Options} {s : State} {xs : List Lexeme} {events : List Event}
    {e : CompileError} (h : s.run o xs = (events, .error e)) (ys : List Lexeme) :
    s.run o (xs ++ ys) = (events, .error e) := by
  induction xs generalizing s events with
  | nil => cases h
  | cons x xs ih =>
    simp only [List.cons_append, run] at h ⊢
    cases hr : (s.step o x.symbol).result with
    | error k => simpa [hr] using h
    | ok t =>
      simp only [hr, Prod.mk.injEq] at h
      obtain ⟨rfl, ht⟩ := h
      simp [ih (Prod.ext rfl ht)]

structure Compilation where
  expression : String
  events : List Event
  result : Except CompileError Unit

inductive Outcome
  | program (p : Program)
  | failure (f : Failure)
  | breach (b : Breach)
  deriving DecidableEq, Repr

namespace Compilation

def ofExpression (o : Options) (expression : String) : Compilation :=
  let (lexemes, stop) := Lexeme.ofExpression expression
  match State.run o {} lexemes, stop with
  | (events, .error e), _ => ⟨expression, events, .error e⟩
  | (events, .ok _), .unknown p => ⟨expression, events, .error ⟨.unknownToken, p⟩⟩
  | (events, .ok s), .finish p =>
    let last := s.finish
    match last.result with
    | .error k => ⟨expression, events ++ last.events, .error ⟨k, p⟩⟩
    | .ok _ => ⟨expression, events ++ last.events, .ok ()⟩

def emissions (c : Compilation) : List Emission :=
  c.events.filterMap fun
    | .emit e => some e
    | _ => none

def tally (c : Compilation) : Tally := Tally.ofList c.emissions

def program (c : Compilation) : Except ProgramError Program := Program.ofEmissions c.emissions

def finalBreaches (c : Compilation) : List Breach :=
  match c.result, c.program with
  | .error _, _ => []
  | .ok _, .error _ => [.programInvalid]
  | .ok _, .ok p =>
    if p.size ≤ capacityBound (Text.byteLength c.expression.toList) then [] else [.capacityExceeded]

def breaches (c : Compilation) : List Breach :=
  (match Element.checkTable Element.table with
    | .ok _ => []
    | .error _ => [.tableShadowed]) ++
  (c.events.filterMap fun
    | .breach b => some b
    | _ => none) ++
  c.tally.breaches ++ c.finalBreaches

/-- A failed check outweighs all else. A failure comes with the code emitted before it. -/
def outcome (c : Compilation) : Outcome :=
  match c.breaches, c.result, c.program with
  | b :: _, _, _ => .breach b
  | [], .error e, _ => .failure ⟨e, failedBytes c.emissions⟩
  | [], .ok _, .ok p => .program p
  | [], .ok _, .error _ => .breach .programInvalid

end Compilation

def compile (o : Options) (expression : String) : Outcome :=
  (Compilation.ofExpression o expression).outcome

end FormulaCode
