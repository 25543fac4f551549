import FormulaCode.Proofs.Boundaries
import FormulaCode.Proofs.Emitting

/-!
A `;` joins compilations: the expressions on its two sides come out as they would alone, except that what
stands after it is read, and refused, so much further on.
-/

namespace FormulaCode

section Effects

def effectsOf (events : List Event) : List Event :=
  events.filter fun
    | .token _ => false
    | _ => true

variable {events events' : List Event}

lemma effectsOf_append (events events' : List Event) :
    effectsOf (events ++ events') = effectsOf events ++ effectsOf events' := List.filter_append ..

lemma effectsOf_token (t : Token) (events : List Event) :
    effectsOf (.token t :: events) = effectsOf events := rfl

lemma emissionsOf_effectsOf (events : List Event) : emissionsOf (effectsOf events) = emissionsOf events := by
  rw [emissionsOf, effectsOf, List.filterMap_filter]
  refine List.filterMap_congr fun x _ => ?_
  cases x <;> rfl

lemma breach_mem_effectsOf {b : Breach} : .breach b ∈ effectsOf events ↔ .breach b ∈ events :=
  List.mem_filter.trans (and_iff_left rfl)

def InRange : Int → List Emission → Prop
  | _, [] => True
  | d, e :: es => (e.isWhole = true ∧ inCounterRange (e.depthAfter d) = true) ∧ InRange (e.depthAfter d) es

lemma inRange_append {d : Int} {es fs : List Emission} :
    InRange d (es ++ fs) ↔ InRange d es ∧ InRange (State.depthOf d es) fs := by
  induction es generalizing d with
  | nil => exact (and_iff_right trivial).symm
  | cons e es ih =>
    rw [List.cons_append, InRange, InRange, ih, ← and_assoc]
    rfl

lemma breaches_foldl_iff (t : Tally) (es : List Emission) :
    (es.foldl Tally.add t).breaches = [] ↔ t.breaches = [] ∧ InRange t.depth es := by
  induction es generalizing t with
  | nil => exact (and_iff_left trivial).symm
  | cons e es ih =>
    rw [List.foldl_cons, ih]
    simp [Tally.add, InRange, and_assoc]

structure Quiet (events : List Event) : Prop where
  told : ∀ b, .breach b ∉ events
  inRange : InRange 0 (emissionsOf events)

lemma quiet_effectsOf : Quiet (effectsOf events) ↔ Quiet events := by
  constructor
  · rintro ⟨ht, hr⟩
    exact ⟨fun b hb => ht b (breach_mem_effectsOf.2 hb), by rwa [emissionsOf_effectsOf] at hr⟩
  · rintro ⟨ht, hr⟩
    exact ⟨fun b hb => ht b (breach_mem_effectsOf.1 hb), by rwa [emissionsOf_effectsOf]⟩

/-- The end of an expression leaves nothing on the value stack, so that what follows starts anew. -/
lemma Quiet.join (h : Quiet events) (h' : Quiet events') :
    Quiet (events ++ .emit (.op Opcode.endExpr.byte) :: events') := by
  refine ⟨fun b hb => ?_, ?_⟩
  · rcases List.mem_append.1 hb with hb | hb
    · exact h.told b hb
    · exact h'.told b (by simpa using hb)
  · rw [emissionsOf_append]
    exact inRange_append.2 ⟨h.inRange, ⟨rfl, rfl⟩, h'.inRange⟩

end Effects

def CompileError.moved (k : Nat) (e : CompileError) : CompileError := { e with position := e.position + k }

namespace State

variable {o : Options} {s t : State}

lemma complete_of_finish (h : s.finish.result = .ok t) : s.Complete := by
  by_contra hc
  obtain ⟨k, hk⟩ := fails_finish hc
  rw [hk] at h
  cases h

lemma step_terminator_of_ok (h : s.finish.result = .ok t) : s.step o .terminator =
    ⟨s.finish.events ++ [.emit (.op Opcode.endExpr.byte)], .ok {}⟩ := by
  have hr : (s.step o .terminator).result = .ok {} := (gives_step_terminator (complete_of_finish h)).1
  rw [← hr]
  change s.finish >>= _ = Step.mk _ (s.finish >>= _).result
  rw [Step.bind_of_ok h]
  rfl

lemma step_terminator_of_error {k : ErrorKind} (h : s.finish.result = .error k) :
    s.step o .terminator = ⟨s.finish.events, .error k⟩ := Step.bind_of_error h _

lemma run_of_ok {x : Lexeme} {events : List Event} (h : s.step o x.symbol = ⟨events, .ok t⟩)
    (xs : List Lexeme) :
    s.run o (x :: xs) = (.token x.token :: events ++ (t.run o xs).1, (t.run o xs).2) := by
  rw [run, h]

lemma run_of_error {x : Lexeme} {events : List Event} {k : ErrorKind}
    (h : s.step o x.symbol = ⟨events, .error k⟩) (xs : List Lexeme) :
    s.run o (x :: xs) = (.token x.token :: events, .error ⟨k, x.token.position⟩) := by
  rw [run, h]

lemma run_moved (k : Nat) (s : State) (xs : List Lexeme) :
    effectsOf (s.run o (xs.map (Lexeme.moved k))).1 = effectsOf (s.run o xs).1 ∧
      (s.run o (xs.map (Lexeme.moved k))).2 = (s.run o xs).2.mapError (CompileError.moved k) := by
  induction xs generalizing s with
  | nil => exact ⟨rfl, rfl⟩
  | cons x xs ih =>
    rw [List.map_cons]
    cases hs : s.step o x.symbol with
    | mk events result =>
      cases result with
      | error e =>
        rw [run_of_error hs, run_of_error (x := x.moved k) hs]
        exact ⟨rfl, rfl⟩
      | ok t =>
        obtain ⟨he, hr⟩ := ih t
        rw [run_of_ok hs, run_of_ok (x := x.moved k) hs]
        refine ⟨?_, hr⟩
        rw [effectsOf_append, effectsOf_append, he]
        rfl

def halt (s : State) : Lexeme.Stop → List Event × Except CompileError Unit
  | .unknown p => ([], .error ⟨.unknownToken, p⟩)
  | .finish p => (s.finish.events, (s.finish.result.map fun _ => ()).mapError fun k => ⟨k, p⟩)

def complete (o : Options) (s : State) (xs : List Lexeme) (stop : Lexeme.Stop) :
    List Event × Except CompileError Unit :=
  match s.run o xs with
  | (events, .error e) => (events, .error e)
  | (events, .ok t) => (events ++ (t.halt stop).1, (t.halt stop).2)

variable {xs : List Lexeme} {events : List Event} {e : CompileError} {stop : Lexeme.Stop}

lemma complete_of_ok (h : s.run o xs = (events, .ok t)) :
    s.complete o xs stop = (events ++ (t.halt stop).1, (t.halt stop).2) := by
  rw [complete, h]

lemma complete_of_error (h : s.run o xs = (events, .error e)) :
    s.complete o xs stop = (events, .error e) := by
  rw [complete, h]

lemma complete_append (h : s.run o xs = (events, .ok t)) (ys : List Lexeme) :
    s.complete o (xs ++ ys) stop =
      (events ++ (t.complete o ys stop).1, (t.complete o ys stop).2) := by
  have hj := run_append h ys
  cases hr : t.run o ys with
  | mk events' result =>
    rw [hr] at hj
    cases result with
    | error e => rw [complete_of_error hj, complete_of_error hr]
    | ok u => rw [complete_of_ok hj, complete_of_ok hr, List.append_assoc]

lemma halt_moved (k : Nat) (s : State) (stop : Lexeme.Stop) :
    s.halt (stop.moved k) = ((s.halt stop).1, (s.halt stop).2.mapError (CompileError.moved k)) := by
  cases stop with
  | unknown p => rfl
  | finish p =>
    simp only [halt, Lexeme.Stop.moved]
    cases s.finish.result <;> rfl

lemma complete_moved (k : Nat) (s : State) (xs : List Lexeme) (stop : Lexeme.Stop) :
    effectsOf (s.complete o (xs.map (Lexeme.moved k)) (stop.moved k)).1 =
        effectsOf (s.complete o xs stop).1 ∧
      (s.complete o (xs.map (Lexeme.moved k)) (stop.moved k)).2 =
        (s.complete o xs stop).2.mapError (CompileError.moved k) := by
  obtain ⟨he, hr⟩ := run_moved (o := o) k s xs
  cases hs : s.run o xs with
  | mk events result =>
    rw [hs] at he hr
    cases result with
    | error e =>
      rw [complete_of_error hs, complete_of_error (Prod.ext rfl hr)]
      exact ⟨he, rfl⟩
    | ok t =>
      rw [complete_of_ok hs, complete_of_ok (Prod.ext rfl hr), halt_moved]
      refine ⟨?_, rfl⟩
      rw [effectsOf_append, effectsOf_append, he]

lemma complete_unknown_ne_ok (s : State) (xs : List Lexeme) (p : Nat) :
    (s.complete o xs (.unknown p)).2 ≠ .ok () := by
  rw [complete]
  split <;> simp [halt]

section Terminator

variable {x : Lexeme} (hx : x.symbol = .terminator)
include hx

-- The `;` refuses the expression before it just as the end of the text does.
lemma complete_terminator_of_error (h : (s.complete o xs (.finish x.token.position)).2 = .error e)
    (ys : List Lexeme) (stop : Lexeme.Stop) :
    effectsOf (s.complete o (xs ++ x :: ys) stop).1 =
        effectsOf (s.complete o xs (.finish x.token.position)).1 ∧
      (s.complete o (xs ++ x :: ys) stop).2 = .error e := by
  cases hs : s.run o xs with
  | mk events result =>
    cases result with
    | error e' =>
      rw [complete_of_error hs] at h ⊢
      rw [complete_of_error (run_append_of_error hs _)]
      exact ⟨rfl, h⟩
    | ok t =>
      rw [complete_of_ok hs] at h ⊢
      rw [complete_append hs]
      cases hf : t.finish.result with
      | ok u =>
        rw [halt, hf] at h
        cases h
      | error k =>
        have hstep : t.step o x.symbol = ⟨t.finish.events, .error k⟩ :=
          hx ▸ step_terminator_of_error hf
        rw [halt, hf] at h ⊢
        rw [complete_of_error (run_of_error hstep ys)]
        refine ⟨?_, h⟩
        rw [effectsOf_append, effectsOf_append, effectsOf_token]

-- After the `;` the compiler is in the state it starts in.
lemma complete_terminator_of_ok (h : (s.complete o xs (.finish x.token.position)).2 = .ok ())
    (ys : List Lexeme) (stop : Lexeme.Stop) :
    effectsOf (s.complete o (xs ++ x :: ys) stop).1 =
        effectsOf (s.complete o xs (.finish x.token.position)).1 ++
          .emit (.op Opcode.endExpr.byte) :: effectsOf (complete o {} ys stop).1 ∧
      (s.complete o (xs ++ x :: ys) stop).2 = (complete o {} ys stop).2 := by
  cases hs : s.run o xs with
  | mk events result =>
    cases result with
    | error e =>
      rw [complete_of_error hs] at h
      cases h
    | ok t =>
      rw [complete_of_ok hs] at h ⊢
      cases hf : t.finish.result with
      | error k =>
        rw [halt, hf] at h
        cases h
      | ok u =>
        have hstep : t.step o x.symbol = ⟨t.finish.events ++ [.emit (.op Opcode.endExpr.byte)], .ok {}⟩ :=
          hx ▸ step_terminator_of_ok hf
        have hj : s.run o (xs ++ [x]) = (events ++ (.token x.token :: t.finish.events ++
            [.emit (.op Opcode.endExpr.byte)]), .ok {}) := by
          rw [run_append hs, run_of_ok hstep]
          simp [run]
        rw [List.append_cons, complete_append hj]
        refine ⟨?_, rfl⟩
        simp only [effectsOf_append, effectsOf_token, List.append_assoc, List.cons_append]
        rfl

end Terminator

end State

namespace Compilation

variable {o : Options} {e₁ : String}

lemma ofExpression_eq_complete {expression : String} {xs : List Lexeme} {stop : Lexeme.Stop}
    (hl : Lexeme.ofExpression expression = (xs, stop)) :
    ofExpression o expression =
      ⟨expression, (State.complete o {} xs stop).1, (State.complete o {} xs stop).2⟩ := by
  cases hr : State.run o {} xs with
  | mk events result =>
    cases result with
    | error e => rw [ofExpression_of_error hl hr, State.complete_of_error hr]
    | ok s =>
      rw [State.complete_of_ok hr]
      cases stop with
      | unknown p =>
        rw [ofExpression_of_unknown hl hr, State.halt, List.append_nil]
      | finish p =>
        rw [ofExpression_of_finish hl hr, State.halt]
        cases s.finish.result <;> rfl

lemma ofExpression_semicolon_of_error {e : CompileError} (h : (ofExpression o e₁).result = .error e)
    (e₂ : String) :
    effectsOf (ofExpression o (e₁ ++ ";" ++ e₂)).events = effectsOf (ofExpression o e₁).events ∧
      (ofExpression o (e₁ ++ ";" ++ e₂)).result = .error e := by
  cases hl : Lexeme.ofExpression e₁ with
  | mk xs stop =>
    rw [ofExpression_eq_complete hl] at h ⊢
    cases stop with
    | unknown p =>
      rw [ofExpression_eq_complete (Lexeme.ofExpression_semicolon_of_unknown hl e₂)]
      exact ⟨rfl, h⟩
    | finish p =>
      obtain ⟨-, hj⟩ := Lexeme.ofExpression_semicolon_of_finish hl e₂
      rw [ofExpression_eq_complete hj]
      exact State.complete_terminator_of_error (x := Lexeme.semicolon p) rfl h _ _

lemma ofExpression_semicolon_of_ok (h : (ofExpression o e₁).result = .ok ()) (e₂ : String) :
    effectsOf (ofExpression o (e₁ ++ ";" ++ e₂)).events = effectsOf (ofExpression o e₁).events ++
        .emit (.op Opcode.endExpr.byte) :: effectsOf (ofExpression o e₂).events ∧
      (ofExpression o (e₁ ++ ";" ++ e₂)).result = (ofExpression o e₂).result.mapError
        (CompileError.moved (Text.byteLength e₁.toList + 1)) := by
  cases hl : Lexeme.ofExpression e₁ with
  | mk xs stop =>
    rw [ofExpression_eq_complete hl] at h ⊢
    cases stop with
    | unknown p => exact absurd h (State.complete_unknown_ne_ok _ _ _)
    | finish p =>
      cases hl₂ : Lexeme.ofExpression e₂ with
      | mk ys stop₂ =>
        obtain ⟨hp, hj⟩ := Lexeme.ofExpression_semicolon_of_finish hl e₂
        rw [hl₂] at hj
        rw [ofExpression_eq_complete hj, ofExpression_eq_complete hl₂, ← hp]
        obtain ⟨he, hr⟩ := State.complete_terminator_of_ok (x := Lexeme.semicolon p) rfl h
          (ys.map (Lexeme.moved (p + 1))) (stop₂.moved (p + 1))
        obtain ⟨he', hr'⟩ := State.complete_moved (o := o) (p + 1) {} ys stop₂
        rw [he'] at he
        exact ⟨he, hr.trans hr'⟩

lemma breaches_eq_nil_iff (o : Options) (expression : String) :
    (ofExpression o expression).breaches = [] ↔ Quiet (ofExpression o expression).events := by
  rw [breaches_eq, List.append_eq_nil_iff, List.eq_nil_iff_forall_not_mem, tally, Tally.ofList,
    breaches_foldl_iff]
  constructor
  · rintro ⟨ht, -, hr⟩
    exact ⟨fun b hb => ht b (mem_breachesOf.2 hb), hr⟩
  · rintro ⟨ht, hr⟩
    exact ⟨fun b hb => ht b (mem_breachesOf.1 hb), rfl, hr⟩

lemma emissions_eq (o : Options) (expression : String) : (ofExpression o expression).emissions =
    emissionsOf (effectsOf (ofExpression o expression).events) := (emissionsOf_effectsOf _).symm

lemma emissions_semicolon (h : (ofExpression o e₁).result = .ok ()) (e₂ : String) :
    (ofExpression o (e₁ ++ ";" ++ e₂)).emissions =
      (ofExpression o e₁).emissions ++ .op Opcode.endExpr.byte :: (ofExpression o e₂).emissions := by
  rw [emissions_eq, (ofExpression_semicolon_of_ok h e₂).1, emissionsOf_append, emissions_eq o e₁,
    emissions_eq o e₂]
  rfl

lemma breaches_semicolon {e₂ : String} (h : (ofExpression o e₁).result = .ok ())
    (h₁ : (ofExpression o e₁).breaches = []) (h₂ : (ofExpression o e₂).breaches = []) :
    (ofExpression o (e₁ ++ ";" ++ e₂)).breaches = [] := by
  rw [breaches_eq_nil_iff, ← quiet_effectsOf] at h₁ h₂ ⊢
  rw [(ofExpression_semicolon_of_ok h e₂).1]
  exact h₁.join h₂

end Compilation

section Join

variable {o : Options} {e₁ e₂ : String}

lemma codeBytes_join (es fs : List Emission) :
    codeBytes (es ++ .op Opcode.endExpr.byte :: fs) =
      codeBytes es ++ [Opcode.endExpr.byte] ++ codeBytes fs := by
  simp [codeBytes, Emission.bytes]

lemma Program.bytes_join (is js : List Instruction) : Program.bytes ⟨is ++ .endExpr :: js⟩ =
    is.flatMap Instruction.bytes ++ [Opcode.endExpr.byte] ++ Program.bytes ⟨js⟩ := by
  simp [bytes, Instruction.bytes, Instruction.opcode, Instruction.operand, Operand.bytes]

lemma codeBytes_of_compile {p : Program} {code : List UInt8} (h : compile o e₁ = .program p)
    (hp : p.bytes = code ++ [Opcode.stop.byte]) :
    codeBytes (Compilation.ofExpression o e₁).emissions = code := by
  obtain ⟨-, -, hb⟩ := compile_eq_program_iff.1 h
  have hc := Program.ofBytes_eq_ok_iff.1 hb
  rw [hp] at hc
  exact List.append_cancel_right hc

lemma compile_semicolon_of_failure {f : Failure} (h : compile o e₁ = .failure f) (e₂ : String) :
    compile o (e₁ ++ ";" ++ e₂) = .failure f := by
  obtain ⟨hb, hr, hf⟩ := compile_eq_failure_iff.1 h
  obtain ⟨he, hr'⟩ := Compilation.ofExpression_semicolon_of_error hr e₂
  refine compile_eq_failure_iff.2 ⟨?_, hr', ?_⟩
  · rw [Compilation.breaches_eq_nil_iff, ← quiet_effectsOf] at hb ⊢
    rwa [he]
  · rw [hf, Compilation.emissions_eq, Compilation.emissions_eq, he]

lemma compile_semicolon_of_programs {p₁ p₂ : Program} (h₁ : compile o e₁ = .program p₁)
    (h₂ : compile o e₂ = .program p₂) :
    compile o (e₁ ++ ";" ++ e₂) = .program ⟨p₁.body ++ .endExpr :: p₂.body⟩ := by
  obtain ⟨hb₁, hr₁, -⟩ := compile_eq_program_iff.1 h₁
  obtain ⟨hb₂, hr₂, -⟩ := compile_eq_program_iff.1 h₂
  refine compile_eq_program_iff.2 ⟨Compilation.breaches_semicolon hr₁ hb₁ hb₂, ?_, ?_⟩
  · rw [(Compilation.ofExpression_semicolon_of_ok hr₁ e₂).2, hr₂]
    rfl
  · have hc₁ := codeBytes_of_compile h₁ rfl
    have hc₂ := codeBytes_of_compile h₂ rfl
    refine Program.ofBytes_eq_ok_iff.2 ?_
    rw [Compilation.emissions_semicolon hr₁, codeBytes_join, hc₁, hc₂, Program.bytes_join, List.append_assoc]
    rfl

lemma compile_semicolon_of_program_failure {p₁ : Program} {f : Failure}
    (h₁ : compile o e₁ = .program p₁) (h₂ : compile o e₂ = .failure f) :
    compile o (e₁ ++ ";" ++ e₂) = .failure ⟨f.error.moved (Text.byteLength e₁.toList + 1),
      failedBytes ((Compilation.ofExpression o e₁).emissions ++
        .op Opcode.endExpr.byte :: (Compilation.ofExpression o e₂).emissions)⟩ := by
  obtain ⟨hb₁, hr₁, -⟩ := compile_eq_program_iff.1 h₁
  obtain ⟨hb₂, hr₂, -⟩ := compile_eq_failure_iff.1 h₂
  refine compile_eq_failure_iff.2 ⟨Compilation.breaches_semicolon hr₁ hb₁ hb₂, ?_, ?_⟩
  · rw [(Compilation.ofExpression_semicolon_of_ok hr₁ e₂).2, hr₂]
    rfl
  · rw [Compilation.emissions_semicolon hr₁]

/-- What comes out of two texts with a `;` between them is what comes out of each alone, put together. A
failure of the first stands for both, and one of the second moves behind the first. -/
theorem compile_join (o : Options) (e₁ e₂ : String) :
    (∀ f, compile o e₁ = .failure f → compile o (e₁ ++ ";" ++ e₂) = .failure f) ∧
      ∀ p₁ code₁, compile o e₁ = .program p₁ → p₁.bytes = code₁ ++ [Opcode.stop.byte] →
        (∀ p₂, compile o e₂ = .program p₂ → ∃ p, compile o (e₁ ++ ";" ++ e₂) = .program p ∧
          p.bytes = code₁ ++ [Opcode.endExpr.byte] ++ p₂.bytes) ∧
        ∀ f, compile o e₂ = .failure f → compile o (e₁ ++ ";" ++ e₂) = .failure
          ⟨⟨f.error.kind, Text.byteLength e₁.toList + 1 + f.error.position⟩,
            (code₁ ++ [Opcode.endExpr.byte] ++
              codeBytes (Compilation.ofExpression o e₂).emissions).set 0 badExpressionByte⟩ := by
  refine ⟨fun f h => compile_semicolon_of_failure h e₂, fun p₁ code₁ h₁ hp₁ => ⟨?_, ?_⟩⟩
  · intro p₂ h₂
    refine ⟨_, compile_semicolon_of_programs h₁ h₂, ?_⟩
    have hc : p₁.body.flatMap Instruction.bytes = code₁ := List.append_cancel_right hp₁
    rw [Program.bytes_join, hc]
  · intro f h₂
    rw [compile_semicolon_of_program_failure h₁ h₂, failedBytes_of_ne_nil (by simp), codeBytes_join,
      codeBytes_of_compile h₁ hp₁, CompileError.moved, Nat.add_comm f.error.position]

theorem compile_join_unfinished : compile {} ("C*(" ++ ";" ++ "A+B;") =
      .failure ⟨⟨.missingOperand, 3⟩, [0x00, 2]⟩ ∧
    compile {} ("A+B;" ++ ";" ++ "C*(") = .failure ⟨⟨.missingOperand, 8⟩, [0x00, 0, Opcode.fetch.byte, 1,
      BinaryOp.add.byte, Opcode.endExpr.byte, Opcode.endExpr.byte, Opcode.fetch.byte, 2]⟩ ∧
    ∃ p, compile {} ("A+B;" ++ ";" ++ "A+B;") = .program p ∧ p.bytes = [Opcode.fetch.byte, 0,
      Opcode.fetch.byte, 1, BinaryOp.add.byte, Opcode.endExpr.byte, Opcode.endExpr.byte, Opcode.fetch.byte, 0,
      Opcode.fetch.byte, 1, BinaryOp.add.byte, Opcode.endExpr.byte, Opcode.stop.byte] := by
  have h₁ : compile {} "A+B;" = .program ⟨[.fetch 0, .fetch 1, .binary .add, .endExpr]⟩ := by
    decide +kernel
  have h₂ : compile {} "C*(" = .failure ⟨⟨.missingOperand, 3⟩, [0x00, 2]⟩ := by decide +kernel
  have he : (Compilation.ofExpression {} "C*(").emissions = [.fetch 2] := by decide +kernel
  have hj := ((compile_join {} "A+B;" "C*(").2 _ _ h₁ rfl).2 _ h₂
  rw [he] at hj
  exact ⟨(compile_join {} "C*(" "A+B;").1 _ h₂, hj, ((compile_join {} "A+B;" "A+B;").2 _ _ h₁ rfl).1 _ h₁⟩

end Join

end FormulaCode
