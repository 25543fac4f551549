import FormulaCode.Proofs.Sequence

namespace FormulaCode

/-- An event that tells of the text: a token, or what became of a numeral. -/
def Event.isOfText : Event → Bool
  | .token _ => true
  | .zeroed _ => true
  | .emit (.literal _) => true
  | _ => false

def tracesOf (events : List Event) : List Event := events.filter Event.isOfText

lemma tracesOf_append (events events' : List Event) :
    tracesOf (events ++ events') = tracesOf events ++ tracesOf events' := List.filter_append ..

def Numeral.encoded (n : Numeral) : Double := n.value?.getD .zero

lemma Numeral.eq_encoded {policy : LiteralPolicy} {n : Numeral} {x : Double}
    (h : n.valueUnder policy = some x) : x = n.encoded := by
  cases hv : n.value? <;> cases policy <;> simp [valueUnder, encoded, hv] at h ⊢ <;> exact h.symm

def Symbol.traces : Symbol → List Event
  | .numeral n => (if n.value?.isNone then [.zeroed n] else []) ++ [.emit (.literal n.encoded)]
  | .operand (.literal x) => [.emit (.literal x)]
  | _ => []

def Symbol.IsReadable (policy : LiteralPolicy) (y : Symbol) : Prop :=
  ∀ n, y = .numeral n → (n.valueUnder policy).isSome = true

def Lexeme.traces (x : Lexeme) : List Event := .token x.token :: x.symbol.traces

lemma Lexeme.filter_of_pairwise {before after : List Lexeme} {x : Lexeme}
    (h : ((before ++ x :: after).map (·.token.position)).Pairwise (· < ·)) :
    (before ++ x :: after).filter (·.token.position < x.token.position) = before ∧
      (before ++ x :: after).filter (·.token.position ≤ x.token.position) = before ++ [x] := by
  rw [List.pairwise_map, List.pairwise_append, List.pairwise_cons] at h
  obtain ⟨-, ⟨hafter, -⟩, hbefore⟩ := h
  have hb (y : Lexeme) (hy : y ∈ before) : y.token.position < x.token.position :=
    hbefore y hy x List.mem_cons_self
  constructor
  · rw [List.filter_append, List.filter_eq_self.2 fun y hy => decide_eq_true (hb y hy),
      List.filter_cons_of_neg (by simp), List.filter_eq_nil_iff.2 fun y hy => by simp [(hafter y hy).le],
      List.append_nil]
  · rw [List.filter_append, List.filter_eq_self.2 fun y hy => decide_eq_true (hb y hy).le,
      List.filter_cons_of_pos (by simp), List.filter_eq_nil_iff.2 fun y hy => by simp [hafter y hy]]

namespace Step

variable {α β : Type} {x : Step α} {f : α → Step β}

def Plain (x : Step α) : Prop := ∀ e ∈ x.events, e.isOfText = false

structure Tells (x : Step α) (es : List Event) : Prop where
  ok : ∀ a, x.result = .ok a → tracesOf x.events = es
  error : ∀ k, x.result = .error k → tracesOf x.events = []

lemma Plain.traces (h : x.Plain) : tracesOf x.events = [] :=
  List.filter_eq_nil_iff.2 fun e he => by simp [h e he]

lemma Plain.tells (h : x.Plain) : x.Tells [] := ⟨fun _ _ => h.traces, fun _ _ => h.traces⟩

lemma Plain.bind_tells {es : List Event} (hx : x.Plain) (hf : ∀ a, (f a).Tells es) : (x >>= f).Tells es := by
  cases hr : x.result with
  | error k =>
    rw [bind_of_error hr]
    exact ⟨fun _ h => (by cases h), fun _ _ => hx.traces⟩
  | ok a =>
    rw [bind_of_ok hr]
    refine ⟨fun b hb => ?_, fun k hk => ?_⟩
    · rw [tracesOf_append, hx.traces, (hf a).ok b hb, List.nil_append]
    · rw [tracesOf_append, hx.traces, (hf a).error k hk, List.nil_append]

lemma Tells.map {es : List Event} (hx : x.Tells es) (g : α → β) : (x >>= fun a => pure (g a)).Tells es := by
  cases hr : x.result with
  | error k =>
    rw [bind_of_error hr]
    exact ⟨fun _ h => (by cases h), fun _ _ => hx.error k hr⟩
  | ok a =>
    rw [bind_of_ok hr]
    refine ⟨fun _ _ => ?_, fun _ h => (by cases h)⟩
    rw [tracesOf_append, hx.ok a hr, events_pure]
    exact List.append_nil es

lemma plain_pure (a : α) : (pure a : Step α).Plain := List.forall_mem_nil _

lemma plain_fail (k : ErrorKind) : (fail k : Step α).Plain := List.forall_mem_nil _

lemma Plain.bind (hx : x.Plain) (hf : ∀ a, (f a).Plain) : (x >>= f).Plain := by
  cases hr : x.result with
  | error k =>
    rw [bind_of_error hr]
    exact hx
  | ok a =>
    rw [bind_of_ok hr]
    exact List.forall_mem_append.2 ⟨hx, hf a⟩

lemma plain_require (c : Bool) (k : ErrorKind) : (require c k).Plain := by
  rw [require]
  split
  · exact plain_pure ()
  · exact plain_fail k

lemma plain_check (c : Bool) (b : Breach) : (check c b).Plain := by
  rw [check]
  split
  · exact plain_pure ()
  · exact List.forall_mem_singleton.2 rfl

end Step

namespace State

open Step

variable {o : Options} {s t : State} {y : Symbol}

lemma plain_emit_ops (s : State) (codes : List UInt8) : (s.emit (codes.map .op)).Plain := by
  simp [Step.Plain, emit, Event.isOfText]

lemma plain_emit_op (s : State) (code : UInt8) : (s.emit [.op code]).Plain := s.plain_emit_ops [code]

lemma plain_emitWhile (s : State) (condition : Element → Bool) : (s.emitWhile condition).Plain := by
  simp [Step.Plain, emitWhile, emit, Event.isOfText]

lemma plain_flush (s : State) (strong : Element → Bool) : (s.flush strong).Plain :=
  (plain_check _ _).bind fun _ => s.plain_emitWhile strong

lemma plain_push (s : State) (limit : Nat) (e : Element) : (s.push limit e).Plain := by
  rw [push]
  split
  · exact plain_pure _
  · exact plain_fail _

lemma plain_pushOperator (s : State) (limit : Nat) (e : Element) : (s.pushOperator limit e).Plain :=
  (s.plain_flush _).bind fun t => t.plain_push limit e

lemma plain_unwind (s : State) (otherwise : ErrorKind) : (s.unwind otherwise).Plain :=
  (s.plain_emitWhile _).bind fun _ => (plain_require _ _).bind fun _ => plain_pure _

lemma plain_separateArgument (s : State) : s.separateArgument.Plain := by
  rw [separateArgument]
  split
  · exact plain_fail _
  · exact (plain_check _ _).bind fun _ => (plain_require _ _).bind fun _ =>
      (plain_check _ _).bind fun _ => plain_pure _

lemma plain_closeArguments (s : State) : s.closeArguments.Plain := by
  rw [closeArguments]
  split
  · exact plain_fail _
  · exact (plain_check _ _).bind fun _ => (plain_require _ _).bind fun _ => plain_pure _

lemma plain_finish (s : State) : s.finish.Plain :=
  (plain_require _ _).bind fun _ => (s.plain_emitWhile _).bind fun _ => (plain_require _ _).bind fun _ =>
    (plain_require _ _).bind fun _ => (plain_require _ _).bind fun _ => (plain_check _ _).bind fun _ =>
      plain_pure _

lemma tells_emit (s : State) (es : List Emission) : (s.emit es).Tells (tracesOf (es.map .emit)) :=
  ⟨fun _ _ => rfl, fun _ h => by cases h⟩

lemma tells_literal (policy : LiteralPolicy) (n : Numeral) (s : State) :
    (s.literal policy n).Tells (Symbol.numeral n).traces := by
  cases hv : n.valueUnder policy with
  | none =>
    rw [literal, hv]
    exact ⟨fun _ h => (by cases h), fun _ _ => rfl⟩
  | some x =>
    obtain rfl := Numeral.eq_encoded hv
    rw [literal, hv, Symbol.traces]
    cases n.value?.isNone with
    | false => exact s.tells_emit [.literal n.encoded]
    | true => exact ⟨fun _ _ => rfl, fun _ h => by cases h⟩

lemma tells_step (o : Options) (s : State) (y : Symbol) : (s.step o y).Tells y.traces := by
  cases y with
  | operand e =>
    refine (plain_require _ _).bind_tells fun _ => Tells.map ?_ _
    cases e with
    | op code => exact s.tells_emit [.op code]
    | fetch index => exact s.tells_emit [.fetch index]
    | literal x => exact s.tells_emit [.literal x]
  | numeral n => exact (plain_require _ _).bind_tells fun _ => (tells_literal _ n s).map _
  | unary e =>
    exact ((plain_require _ _).bind fun _ => (s.plain_pushOperator _ _).bind fun _ => plain_pure _).tells
  | binary e =>
    exact ((plain_require _ _).bind fun _ => (s.plain_pushOperator _ _).bind fun _ => plain_pure _).tells
  | minus => exact ((s.plain_pushOperator _ _).bind fun _ => plain_pure _).tells
  | question =>
    exact ((plain_require _ _).bind fun _ => (s.plain_flush _).bind fun t =>
      (t.plain_emit_op _).bind fun _ => plain_pure _).tells
  | colon =>
    exact ((plain_require _ _).bind fun _ => (s.plain_flush _).bind fun t => (plain_require _ _).bind fun _ =>
      (plain_emit_op _ _).bind fun u => (u.plain_push _ _).bind fun _ => plain_pure _).tells
  | separator =>
    exact ((plain_require _ _).bind fun _ => (s.plain_unwind _).bind fun t =>
      t.plain_separateArgument.bind fun _ => plain_pure _).tells
  | closeParen =>
    exact ((plain_require _ _).bind fun _ => (s.plain_unwind _).bind fun _ =>
      (plain_closeArguments _).bind fun _ => plain_pure _).tells
  | terminator => exact (s.plain_finish.bind fun t => t.plain_emit_op _).tells

lemma isReadable_of_step (h : (s.step o y).result = .ok t) : y.IsReadable o.literalPolicy := by
  rintro n rfl
  obtain ⟨es, htakes⟩ : ∃ es, s.Takes o (.numeral n) es (.ok t) := ⟨_, takes_of_gives ⟨h, rfl⟩⟩
  cases htakes with
  | numeral _ hv => rw [hv, Option.isSome_some]
  | binary _ hx => simp [Symbol.Joins] at hx
  | unary _ hx => simp [Symbol.Precedes] at hx

variable {xs : List Lexeme} {events : List Event} {e : CompileError} {stop : Lexeme.Stop}

lemma traces_of_step {x : Lexeme} {said : List Event} (hs : s.step o x.symbol = ⟨said, .ok t⟩)
    (events : List Event) : tracesOf (.token x.token :: said ++ events) = x.traces ++ tracesOf events := by
  have htells := tells_step o s x.symbol
  rw [hs] at htells
  rw [tracesOf_append, Lexeme.traces, ← htells.ok t rfl]
  rfl

lemma traces_of_run (h : s.run o xs = (events, .ok t)) :
    tracesOf events = xs.flatMap Lexeme.traces ∧ ∀ x ∈ xs, x.symbol.IsReadable o.literalPolicy := by
  induction xs generalizing s events with
  | nil =>
    obtain ⟨rfl, -⟩ := Prod.mk.inj h
    exact ⟨rfl, List.forall_mem_nil _⟩
  | cons x xs ih =>
    cases hs : s.step o x.symbol with
    | mk said result =>
      cases result with
      | error k =>
        rw [run_of_error hs] at h
        cases h
      | ok u =>
        rw [run_of_ok hs] at h
        obtain ⟨rfl, hu⟩ := Prod.mk.inj h
        obtain ⟨htraces, hread⟩ := ih (Prod.ext rfl hu)
        refine ⟨?_, List.forall_mem_cons.2 ⟨isReadable_of_step (congrArg Step.result hs), hread⟩⟩
        rw [traces_of_step hs, htraces, List.flatMap_cons]

lemma exists_traces_of_run (h : s.run o xs = (events, .error e)) :
    ∃ before x after, xs = before ++ x :: after ∧ e.position = x.token.position ∧
      tracesOf events = before.flatMap Lexeme.traces ++ [.token x.token] ∧
        ∀ x ∈ before, x.symbol.IsReadable o.literalPolicy := by
  induction xs generalizing s events with
  | nil => cases h
  | cons x xs ih =>
    cases hs : s.step o x.symbol with
    | mk said result =>
      cases result with
      | error k =>
        have hsilent := (tells_step o s x.symbol).error k (congrArg Step.result hs)
        rw [hs] at hsilent
        rw [run_of_error hs] at h
        cases h
        exact ⟨[], x, xs, rfl, rfl, congrArg (Event.token x.token :: ·) hsilent, List.forall_mem_nil _⟩
      | ok u =>
        rw [run_of_ok hs] at h
        obtain ⟨rfl, hu⟩ := Prod.mk.inj h
        obtain ⟨before, x', after, rfl, hp, htraces, hread⟩ := ih (Prod.ext rfl hu)
        refine ⟨x :: before, x', after, rfl, hp, ?_,
          List.forall_mem_cons.2 ⟨isReadable_of_step (congrArg Step.result hs), hread⟩⟩
        rw [traces_of_step hs, htraces, List.flatMap_cons, List.append_assoc]

lemma traces_halt (s : State) (stop : Lexeme.Stop) : tracesOf (s.halt stop).1 = [] := by
  cases stop with
  | unknown p => rfl
  | finish p => exact s.plain_finish.traces

lemma traces_complete (h : (s.complete o xs stop).2 = .ok ()) :
    tracesOf (s.complete o xs stop).1 = xs.flatMap Lexeme.traces ∧
      ∀ x ∈ xs, x.symbol.IsReadable o.literalPolicy := by
  cases hr : s.run o xs with
  | mk events result =>
    cases result with
    | error e =>
      rw [complete_of_error hr] at h
      cases h
    | ok t =>
      rw [complete_of_ok hr, tracesOf_append, traces_halt, List.append_nil]
      exact traces_of_run hr

lemma exists_traces_of_complete (hp : (Lexeme.offsets (xs, stop)).Pairwise (· < ·))
    (h : (s.complete o xs stop).2 = .error e) :
    ∃ last, xs.filter (·.token.position ≤ e.position) = xs.filter (·.token.position < e.position) ++ last ∧
      tracesOf (s.complete o xs stop).1 =
        (xs.filter (·.token.position < e.position)).flatMap Lexeme.traces ++ last.map (Event.token ·.token) ∧
      ∀ x ∈ xs.filter (·.token.position < e.position), x.symbol.IsReadable o.literalPolicy := by
  obtain ⟨hsorted, -, hstop⟩ := List.pairwise_append.1 hp
  cases hr : s.run o xs with
  | mk events result =>
    cases result with
    | error e' =>
      rw [complete_of_error hr] at h ⊢
      cases h
      obtain ⟨before, x, after, rfl, hpos, htraces, hread⟩ := exists_traces_of_run hr
      obtain ⟨hlt, hle⟩ := Lexeme.filter_of_pairwise hsorted
      rw [hpos, hlt, hle]
      exact ⟨[x], rfl, htraces, hread⟩
    | ok t =>
      rw [complete_of_ok hr] at h ⊢
      have hpos : e.position = stop.position := by
        cases stop with
        | unknown p => cases h; rfl
        | finish p =>
          cases hf : t.finish.result with
          | ok u => simp [halt, hf, Except.map, Except.mapError] at h
          | error k =>
            simp only [halt, hf] at h
            cases h
            rfl
      have hlt (x : Lexeme) (hx : x ∈ xs) : x.token.position < e.position :=
        hpos ▸ hstop _ (List.mem_map_of_mem hx) _ List.mem_cons_self
      rw [List.filter_eq_self.2 fun x hx => decide_eq_true (hlt x hx),
        List.filter_eq_self.2 fun x hx => decide_eq_true (hlt x hx).le]
      obtain ⟨htraces, hread⟩ := traces_of_run hr
      refine ⟨[], (List.append_nil xs).symm, ?_, hread⟩
      rw [tracesOf_append, traces_halt, htraces]
      rfl

end State

namespace Compilation

variable {o : Options} {expression : String} {e : CompileError}

lemma traces_of_ok (h : (ofExpression o expression).result = .ok ()) :
    tracesOf (ofExpression o expression).events =
        (Lexeme.ofExpression expression).1.flatMap Lexeme.traces ∧
      ∀ x ∈ (Lexeme.ofExpression expression).1, x.symbol.IsReadable o.literalPolicy := by
  rw [ofExpression_eq_complete rfl] at h ⊢
  exact State.traces_complete h

lemma exists_traces_of_error (h : (ofExpression o expression).result = .error e) :
    ∃ last, (Lexeme.ofExpression expression).1.filter (·.token.position ≤ e.position) =
        (Lexeme.ofExpression expression).1.filter (·.token.position < e.position) ++ last ∧
      tracesOf (ofExpression o expression).events =
        ((Lexeme.ofExpression expression).1.filter (·.token.position < e.position)).flatMap Lexeme.traces ++
          last.map (Event.token ·.token) ∧
      ∀ x ∈ (Lexeme.ofExpression expression).1.filter (·.token.position < e.position),
        x.symbol.IsReadable o.literalPolicy := by
  rw [ofExpression_eq_complete rfl] at h ⊢
  exact State.exists_traces_of_complete (Lexeme.pairwise_offsets expression) h

end Compilation

end FormulaCode
