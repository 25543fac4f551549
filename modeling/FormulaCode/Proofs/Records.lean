import FormulaCode.Proofs.Accounting
import FormulaCode.Proofs.Listings
import FormulaCode.Proofs.Traces
import FormulaCode.Record

namespace FormulaCode

namespace Tally

lemma depth_ofList (es : List Emission) : (ofList es).depth = State.depthOf 0 es := depth_foldl {} es

lemma exists_highest (es : List Emission) :
    ∃ k ≤ es.length, State.depthOf 0 (es.take k) = (ofList es).highest := by
  induction es using List.reverseRecOn with
  | nil => exact ⟨0, le_rfl, rfl⟩
  | append_singleton es e ih =>
    obtain ⟨k, hk, hdepth⟩ := ih
    have hadd : ofList (es ++ [e]) = (ofList es).add e := List.foldl_append
    rcases max_choice (ofList es).highest (e.depthAfter (ofList es).depth) with hmax | hmax
    · refine ⟨k, hk.trans (by simp), ?_⟩
      rw [List.take_append_of_le_length hk, hdepth, hadd]
      exact hmax.symm
    · refine ⟨(es ++ [e]).length, le_rfl, ?_⟩
      rw [List.take_length, ← depth_ofList, hadd]
      exact hmax.symm

lemma isGreatest_highest (es : List Emission) :
    IsGreatest (Set.range fun k => State.depthOf 0 (es.take k)) (ofList es).highest := by
  constructor
  · obtain ⟨k, -, hk⟩ := exists_highest es
    exact ⟨k, hk⟩
  · rintro _ ⟨k, rfl⟩
    exact (depth_ofList (es.take k)).symm.le.trans (depth_take_le le_rfl es k)

end Tally

/-! ### What the records tell -/

def Record.isFrom (part : String) (r : Record) : Bool := r.target == "softcalc_codegen::" ++ part

def Token.record (t : Token) : Record :=
  .ofCompiler .trace "tokenizer" <|
    "Token " ++ Text.quoted t.text ++ " (" ++ t.element.kind.name ++ ") at " ++ toString t.position

def Numeral.warning (n : Numeral) : Record :=
  .ofCompiler .warn "literal" ("Numeral " ++ Text.quoted n.text ++ " is malformed, encoding 0")

def Operand.told : Operand → String
  | .none => ""
  | .index i => " " ++ toString i.toNat
  | .literal x => " " ++ x.display

def Line.record (l : Line) : Record :=
  .ofCompiler .trace "emit" ("Emit " ++ mnemonic l.code ++ l.operand.told)

def Operand.value? : Operand → Option Double
  | .literal x => some x
  | _ => Option.none

def Emission.record (e : Emission) : Record := .ofCompiler .trace "emit" ("Emit " ++ e.text)

def Emission.value? : Emission → Option Double
  | .literal x => some x
  | _ => none

def Symbol.numeral? : Symbol → Option Numeral
  | .numeral n => some n
  | _ => none

lemma Symbol.eq_numeral {y : Symbol} {n : Numeral} (h : y.numeral? = some n) : y = .numeral n := by
  cases y with
  | numeral m => rw [Option.some.inj h]
  | _ => cases h

def Lexeme.numerals (xs : List Lexeme) : List Numeral := xs.filterMap (·.symbol.numeral?)

/-- Records tell that `found` were the lexemes found and `read` those that were read whole, that the
instructions of `lines` were emitted, and at the end `message`. -/
structure Mirrors (o : Options) (expression : String) (records : List Record) (found read : List Lexeme)
    (lines : List Line) (message : String) : Prop where
  first : records.head? =
    some (.ofCompiler .debug "compile" ("Compiling expression " ++ Text.quoted expression.toList))
  last : records.getLast? = some (.ofCompiler .debug "compile" message)
  emits : records.filter (·.isFrom "emit") = lines.map Line.record
  faithful : ∀ q : Program, records.filter (·.isFrom "emit") = q.lines.dropLast.map Line.record ↔
    List.Forall₂ Line.Agrees lines q.lines.dropLast
  tokens : records.filter (·.isFrom "tokenizer") = found.map (·.token.record)
  increasing : found.Pairwise (·.token.position < ·.token.position)
  quotes : ∀ x ∈ found,
    Text.slice? (Text.upper expression.toList) x.token.position x.token.length = some x.token.text
  warnings : records.filter (·.isFrom "literal") = ((Lexeme.numerals read).filter fun n =>
    o.literalPolicy = .zeroOnError ∧ n.value? = none).map Numeral.warning
  literals : lines.filterMap (·.operand.value?) = (Lexeme.numerals read).map Numeral.encoded

lemma Record.isFrom_ofCompiler (level : Level) (part part' message : String) :
    (ofCompiler level part' message).isFrom part = (part' == part) := by
  rw [Bool.eq_iff_iff, isFrom, beq_iff_eq, beq_iff_eq]
  exact String.append_right_inj _

def Event.token? : Event → Option Token
  | .token t => some t
  | _ => none

def Event.zeroed? : Event → Option Numeral
  | .zeroed n => some n
  | _ => none

def Event.literal? : Event → Option Double
  | .emit (.literal x) => some x
  | _ => none

lemma Event.views_eq_none {e : Event} (h : e.isOfText = false) :
    e.token? = none ∧ e.zeroed? = none ∧ e.literal? = none := by
  cases e with
  | emit e =>
    cases e with
    | literal x => cases h
    | _ => exact ⟨rfl, rfl, rfl⟩
  | refused n => exact ⟨rfl, rfl, rfl⟩
  | breach b => exact ⟨rfl, rfl, rfl⟩
  | _ => cases h

lemma filterMap_tracesOf {β : Type} {f : Event → Option β} (hf : ∀ e, e.isOfText = false → f e = none)
    (events : List Event) : (tracesOf events).filterMap f = events.filterMap f := by
  rw [tracesOf, List.filterMap_filter]
  refine List.filterMap_congr fun e _ => ?_
  cases he : e.isOfText with
  | false => simp [hf e he]
  | true => simp

lemma filterMap_traces {β : Type} {f : Event → Option β} {g : Lexeme → List β} {xs : List Lexeme}
    (h : ∀ x ∈ xs, x.traces.filterMap f = g x) : (xs.flatMap Lexeme.traces).filterMap f = xs.flatMap g := by
  rw [List.filterMap_flatMap]
  exact List.flatMap_congr h

lemma tokens_traces (xs : List Lexeme) :
    (xs.flatMap Lexeme.traces).filterMap Event.token? = xs.map Lexeme.token := by
  have hsymbol (y : Symbol) : y.traces.filterMap Event.token? = [] := by
    cases y with
    | operand e => cases e <;> rfl
    | numeral n =>
      rw [Symbol.traces]
      split <;> rfl
    | _ => rfl
  have htraces (x : Lexeme) : x.traces.filterMap Event.token? = [x.token] := by
    rw [Lexeme.traces, List.filterMap_cons, hsymbol]
    rfl
  rw [filterMap_traces fun x _ => htraces x]
  exact List.flatMap_pure_eq_map ..

lemma numerals_eq_flatMap (xs : List Lexeme) :
    Lexeme.numerals xs = xs.flatMap (·.symbol.numeral?.toList) :=
  List.filterMap_eq_flatMap_toList ..

lemma zeroed_traces (xs : List Lexeme) :
    (xs.flatMap Lexeme.traces).filterMap Event.zeroed? = (Lexeme.numerals xs).filter (·.value?.isNone) := by
  have hsymbol (y : Symbol) :
      y.traces.filterMap Event.zeroed? = y.numeral?.toList.filter (·.value?.isNone) := by
    cases y with
    | operand e => cases e <;> rfl
    | numeral n =>
      cases hn : n.value?.isNone <;> simp [Symbol.traces, Symbol.numeral?, Event.zeroed?, hn]
    | _ => rfl
  rw [filterMap_traces fun x _ => hsymbol x.symbol, numerals_eq_flatMap, List.filter_flatMap]

lemma literals_traces {xs : List Lexeme} (h : ∀ x ∈ xs, ∀ v, x.symbol ≠ .operand (.literal v)) :
    (xs.flatMap Lexeme.traces).filterMap Event.literal? = (Lexeme.numerals xs).map Numeral.encoded := by
  have hsymbol (y : Symbol) (hy : ∀ v, y ≠ .operand (.literal v)) :
      y.traces.filterMap Event.literal? = y.numeral?.toList.map Numeral.encoded := by
    cases y with
    | operand e =>
      cases e with
      | literal v => exact absurd rfl (hy v)
      | _ => rfl
    | numeral n =>
      rw [Symbol.traces]
      split <;> rfl
    | _ => rfl
  rw [filterMap_traces fun x hx => hsymbol x.symbol (h x hx), numerals_eq_flatMap, List.map_flatMap]

lemma filter_numerals {policy : LiteralPolicy} {xs : List Lexeme} (h : ∀ x ∈ xs, x.symbol.IsReadable policy) :
    (Lexeme.numerals xs).filter (·.value?.isNone) =
      (Lexeme.numerals xs).filter fun n => policy = .zeroOnError ∧ n.value? = none := by
  refine List.filter_congr fun n hn => ?_
  obtain ⟨x, hx, hsymbol⟩ := List.mem_filterMap.1 hn
  have hvalue : (n.valueUnder policy).isSome = true := h x hx n (Symbol.eq_numeral hsymbol)
  cases hv : n.value? <;> cases policy <;> simp [Numeral.valueUnder, hv] at hvalue ⊢

lemma literals_events (c : Compilation) :
    c.events.filterMap Event.literal? = c.emissions.filterMap Emission.value? := by
  rw [Compilation.emissions, List.filterMap_filterMap]
  refine List.filterMap_congr fun e _ => ?_
  cases e with
  | emit e => cases e <;> rfl
  | _ => rfl

namespace Compilation

lemma filter_records {part : String} (hpart : ("compile" == part) = false) (c : Compilation) :
    c.records.filter (·.isFrom part) = c.events.filterMap fun e => e.record?.filter (·.isFrom part) := by
  have hfirst : c.firstRecord.isFrom part = false := by rw [firstRecord, Record.isFrom_ofCompiler, hpart]
  have hlast : c.lastRecord.isFrom part = false := by rw [lastRecord, Record.isFrom_ofCompiler, hpart]
  rw [records, List.cons_append, List.filter_cons_of_neg (by simp [hfirst]), List.filter_append,
    List.filter_cons_of_neg (by simp [hlast]), List.filter_nil, List.append_nil, List.filter_filterMap]

lemma records_part {β : Type} {part : String} {view : Event → Option β} {write : β → Record}
    (hpart : ("compile" == part) = false)
    (h : ∀ e : Event, e.record?.filter (·.isFrom part) = (view e).map write) (c : Compilation) :
    c.records.filter (·.isFrom part) = (c.events.filterMap view).map write := by
  rw [filter_records hpart, List.map_filterMap]
  exact List.filterMap_congr fun e _ => h e

lemma records_emit (c : Compilation) : c.records.filter (·.isFrom "emit") = c.emissions.map Emission.record :=
  records_part (by decide) (fun e => by cases e <;> rfl) c

lemma records_token (c : Compilation) :
    c.records.filter (·.isFrom "tokenizer") = (c.events.filterMap Event.token?).map Token.record :=
  records_part (by decide) (fun e => by cases e <;> rfl) c

lemma records_zeroed (c : Compilation) :
    c.records.filter (·.isFrom "literal") = (c.events.filterMap Event.zeroed?).map Numeral.warning :=
  records_part (by decide) (fun e => by cases e <;> rfl) c

end Compilation

lemma Lexeme.symbol_ne_literal {expression : String} {x : Lexeme} (h : x ∈ (ofExpression expression).1)
    (v : Double) : x.symbol ≠ .operand (.literal v) := by
  obtain ⟨-, here, -, -, -, hs⟩ := occurs_of_mem_ofExpression h
  rw [hs, Token.symbol]
  cases x.token.element.kind with
  | operand => by_cases hc : (x.token.element.code == Opcode.fetch.byte) = true <;> simp [hc]
  | conditional => by_cases hc : (x.token.element.code == Opcode.branchElse.byte) = true <;> simp [hc]
  | _ => simp

lemma Instruction.record_eq (i : Instruction) (offset : Nat) :
    Line.record ⟨offset, i.opcode.byte, i.operand⟩ = (Emission.ofInstruction i).record := by
  cases i <;> simp [Line.record, Operand.told, Emission.record, Emission.ofInstruction, Emission.text, opcode,
    operand, mnemonic_byte, String.append_assoc]

namespace Line

variable {i j : Instruction} {offset : Nat}

lemma isBlank_told (a : Operand) : ∀ c ∈ a.told.toList.head?, (!Text.isBlank c) = false := by
  cases a <;> simp [Operand.told] <;> decide

lemma fields_of_record {a b : Opcode} {x y : Operand}
    (h : record ⟨offset, a.byte, x⟩ = record ⟨offset, b.byte, y⟩) : a = b ∧ x.told = y.told := by
  have hclass (op : Opcode) : ∀ c ∈ op.mnemonic.toList, (!Text.isBlank c) = true := fun c hc => by
    rw [Bool.not_eq_true']
    exact Bool.eq_false_iff.2 fun hb => Opcode.notMem_mnemonic hb op hc
  have htext : "Emit " ++ a.mnemonic ++ x.told = "Emit " ++ b.mnemonic ++ y.told := by
    rw [record, record, mnemonic_byte, mnemonic_byte] at h
    exact congrArg Record.message h
  rw [String.append_assoc, String.append_assoc, String.append_right_inj, ← String.toList_inj,
    String.toList_append, String.toList_append] at htext
  obtain ⟨hname, htold⟩ := append_inj_of_class (hclass a) (hclass b) (isBlank_told x) (isBlank_told y) htext
  exact ⟨Opcode.mnemonic_injective (String.toList_inj.1 hname), String.toList_inj.1 htold⟩

lemma Agrees.record_eq {l m : Line} (h : l.Agrees m) : l.record = m.record := by
  cases h with
  | same => rfl
  | payload hx hy => rw [record, record, Operand.told, Operand.told, Double.display_eq_iff.2 (.inr ⟨hx, hy⟩)]

/-- A record tells its instruction, but for the bits of a literal that is no number. -/
lemma record_eq_iff : record ⟨offset, i.opcode.byte, i.operand⟩ = record ⟨offset, j.opcode.byte, j.operand⟩ ↔
    Agrees ⟨offset, i.opcode.byte, i.operand⟩ ⟨offset, j.opcode.byte, j.operand⟩ := by
  refine ⟨fun h => ?_, Agrees.record_eq⟩
  obtain ⟨hop, htold⟩ := fields_of_record h
  cases i with
  | fetch v =>
    cases j with
    | fetch w =>
      have hv : (UInt8.ofNat v.val).toNat = (UInt8.ofNat w.val).toNat :=
        Nat.repr_inj.1 ((String.append_right_inj _).1 htold)
      rw [toNat_variable, toNat_variable] at hv
      rw [Fin.ext hv]
      exact .same
    | _ => cases hop
  | literal x =>
    cases j with
    | literal y =>
      rcases Double.display_eq_iff.1 ((String.append_right_inj _).1 htold) with rfl | ⟨hx, hy⟩
      · exact .same
      · exact .payload hx hy
    | _ => cases hop
  | _ =>
    cases j <;> cases hop
    exact .same

end Line

namespace Program

lemma records_linesFrom (offset : Nat) (is : List Instruction) : (linesFrom offset is).map Line.record =
    (is.map Emission.ofInstruction).map Emission.record ++ [Line.record ⟨0, Opcode.stop.byte, .none⟩] := by
  induction is generalizing offset with
  | nil => rfl
  | cons i is ih =>
    rw [linesFrom, List.map_cons, ih, i.record_eq, List.map_cons, List.map_cons, List.cons_append]

lemma records_lines (p : Program) :
    p.lines.dropLast.map Line.record = (p.body.map Emission.ofInstruction).map Emission.record := by
  rw [List.map_dropLast, lines, records_linesFrom, List.dropLast_concat]

lemma dropLast_linesFrom_cons (offset : Nat) (i : Instruction) (is : List Instruction) :
    (linesFrom offset (i :: is)).dropLast =
      ⟨offset, i.opcode.byte, i.operand⟩ :: (linesFrom (offset + i.size) is).dropLast := by
  cases is <;> rfl

lemma agrees_of_records {offset : Nat} {is js : List Instruction}
    (h : (linesFrom offset is).dropLast.map Line.record = (linesFrom offset js).dropLast.map Line.record) :
    List.Forall₂ Line.Agrees (linesFrom offset is).dropLast (linesFrom offset js).dropLast := by
  induction is generalizing offset js with
  | nil =>
    cases js with
    | nil => exact .nil
    | cons j js =>
      rw [dropLast_linesFrom_cons] at h
      cases h
  | cons i is ih =>
    cases js with
    | nil =>
      rw [dropLast_linesFrom_cons] at h
      cases h
    | cons j js =>
      rw [dropLast_linesFrom_cons, dropLast_linesFrom_cons, List.map_cons, List.map_cons,
        List.cons.injEq] at h
      -- the instructions are of one size, so the rest starts at the same offset
      have hsize : i.size = j.size := by
        rw [Instruction.size, (Line.fields_of_record h.1).1, Instruction.size]
      rw [dropLast_linesFrom_cons, dropLast_linesFrom_cons]
      exact .cons (Line.record_eq_iff.1 h.1) (hsize ▸ ih (by rw [h.2, hsize]))

lemma records_eq_iff {p q : Program} : p.lines.dropLast.map Line.record = q.lines.dropLast.map Line.record ↔
    List.Forall₂ Line.Agrees p.lines.dropLast q.lines.dropLast := by
  refine ⟨agrees_of_records, fun h => ?_⟩
  rw [← List.forall₂_eq_eq_eq, List.forall₂_map_left_iff, List.forall₂_map_right_iff]
  exact h.imp fun _ _ => Line.Agrees.record_eq

lemma values_lines (p : Program) :
    p.lines.dropLast.filterMap (·.operand.value?) =
      (p.body.map .ofInstruction).filterMap Emission.value? := by
  have hline (l : Line) : (Emission.ofLine l).value? = l.operand.value? := by
    cases l with
    | mk offset code operand => cases operand <;> rfl
  rw [← replay_lines, List.filterMap_map]
  exact List.filterMap_congr fun l _ => (hline l).symm

end Program

namespace Compilation

variable {o : Options} {expression message : String} {read last : List Lexeme} {p : Program}

lemma mirrors (hsub : (read ++ last).Sublist (Lexeme.ofExpression expression).1)
    (htraces : tracesOf (ofExpression o expression).events =
      read.flatMap Lexeme.traces ++ last.map (Event.token ·.token))
    (hread : ∀ x ∈ read, x.symbol.IsReadable o.literalPolicy)
    (he : (ofExpression o expression).emissions = p.body.map .ofInstruction)
    (hlast : (ofExpression o expression).lastRecord = .ofCompiler .debug "compile" message) :
    Mirrors o expression (ofExpression o expression).records (read ++ last) read p.lines.dropLast message where
  first := by rw [records, List.cons_append, List.head?_cons, firstRecord, expression_ofExpression]
  last := by rw [records, List.getLast?_concat, hlast]
  emits := by rw [records_emit, he, p.records_lines]
  faithful := fun q => by rw [records_emit, he, ← p.records_lines, Program.records_eq_iff]
  tokens := by
    have htokens : (last.map (Event.token ·.token)).filterMap Event.token? = last.map Lexeme.token := by
      simp [List.filterMap_map, Function.comp_def, Event.token?]
    rw [records_token, ← filterMap_tracesOf fun _ he => (Event.views_eq_none he).1, htraces,
      List.filterMap_append, tokens_traces, htokens, ← List.map_append, List.map_map]
    rfl
  increasing := by
    have hsorted := (List.pairwise_append.1 (Lexeme.pairwise_offsets expression)).1
    exact (List.pairwise_map.1 hsorted).sublist hsub
  quotes := fun x hx => (Lexeme.occurs_of_mem_ofExpression (hsub.subset hx)).slice_token
  warnings := by
    have hnone : (last.map (Event.token ·.token)).filterMap Event.zeroed? = [] := by
      simp [List.filterMap_map, Function.comp_def, Event.zeroed?]
    rw [records_zeroed, ← filterMap_tracesOf fun _ he => (Event.views_eq_none he).2.1, htraces,
      List.filterMap_append, zeroed_traces, hnone, List.append_nil, filter_numerals hread]
  literals := by
    have hnone : (last.map (Event.token ·.token)).filterMap Event.literal? = [] := by
      simp [List.filterMap_map, Function.comp_def, Event.literal?]
    have hplain (x : Lexeme) (hx : x ∈ read) : ∀ v, x.symbol ≠ .operand (.literal v) :=
      Lexeme.symbol_ne_literal (hsub.subset (List.mem_append_left last hx))
    rw [p.values_lines, ← he, ← literals_events,
      ← filterMap_tracesOf fun _ he => (Event.views_eq_none he).2.2, htraces, List.filterMap_append,
      literals_traces hplain, hnone, List.append_nil]

end Compilation

/-- What is recorded of a compilation is what it does. First comes the expression, then the tokens in the
order of the text and the code in the order of the program, with one warning for each malformed numeral
that stands in it as zero, and at the end the outcome. The records of the code fit no other program, the bits
of literals that are no numbers apart. -/
theorem compile_records (o : Options) (expression : String) :
    (∀ p, compile o expression = .program p → ∃ depth : Int,
      IsGreatest (Set.range fun k => State.depthOf 0 ((p.body.map .ofInstruction).take k)) depth ∧
        Mirrors o expression (Compilation.ofExpression o expression).records (Lexeme.ofExpression expression).1
          (Lexeme.ofExpression expression).1 p.lines.dropLast
          ("Compiled " ++ toString p.size ++ " bytes, value stack depth " ++ toString depth)) ∧
      (∀ f, compile o expression = .failure f → ∃ q : Program,
        q.bytes.dropLast = codeBytes (Compilation.ofExpression o expression).emissions ∧
          f.emitted = badExpressionByte :: q.bytes.dropLast.drop 1 ∧
          Mirrors o expression (Compilation.ofExpression o expression).records
            ((Lexeme.ofExpression expression).1.filter (·.token.position ≤ f.error.position))
            ((Lexeme.ofExpression expression).1.filter (·.token.position < f.error.position)) q.lines.dropLast
            ("Compile failed: " ++ f.error.message)) ∧
      ∀ b, compile o expression = .breach b →
        b = .counterRange ∧ 2 ^ 31 ≤ Text.byteLength expression.toList := by
  obtain ⟨q, hq, he⟩ := Compilation.exists_program o expression
  refine ⟨fun p h => ?_, fun f h => ?_, fun b => counterRange_of_compile⟩
  · obtain ⟨-, hr, hp⟩ := compile_eq_program_iff.1 h
    obtain rfl : q = p := Except.ok.inj (hq.symm.trans hp)
    obtain ⟨htraces, hread⟩ := Compilation.traces_of_ok hr
    rw [← List.append_nil (List.flatMap _ _)] at htraces
    have hlast : (Compilation.ofExpression o expression).lastRecord = .ofCompiler .debug "compile"
        ("Compiled " ++ toString q.size ++ " bytes, value stack depth " ++
          toString (Tally.ofList (q.body.map .ofInstruction)).highest) := by
      rw [Compilation.lastRecord, hr, Compilation.tally, he, Program.size, q.bytes_eq_codeBytes,
        List.length_append]
      rfl
    have hmirrors := Compilation.mirrors (by rw [List.append_nil]) htraces hread he hlast
    rw [List.append_nil] at hmirrors
    exact ⟨_, Tally.isGreatest_highest _, hmirrors⟩
  · obtain ⟨-, hr, hf⟩ := compile_eq_failure_iff.1 h
    obtain ⟨last, hfound, htraces, hread⟩ := Compilation.exists_traces_of_error hr
    have hbytes : q.bytes.dropLast = codeBytes (Compilation.ofExpression o expression).emissions := by
      rw [he, q.bytes_eq_codeBytes, List.dropLast_concat]
    refine ⟨q, hbytes, ?_, ?_⟩
    · rw [hf, hbytes, failedBytes]
    · rw [hfound]
      refine Compilation.mirrors (hfound ▸ List.filter_sublist) htraces hread he ?_
      rw [Compilation.lastRecord, hr]

theorem compile_records_malformed :
    compile { literalPolicy := .zeroOnError } ".+a" = .program ⟨[.literal .zero, .fetch 0, .binary .add]⟩ ∧
      (Compilation.ofExpression { literalPolicy := .zeroOnError } ".+a").records.filter (·.isFrom "literal") =
        [.ofCompiler .warn "literal" "Numeral \".\" is malformed, encoding 0"] ∧
      compile {} ".+a" = .failure ⟨⟨.badLiteral, 0⟩, [badExpressionByte]⟩ ∧
      (Compilation.ofExpression {} ".+a").records.filter (·.isFrom "literal") = [] := by
  have hp : compile { literalPolicy := .zeroOnError } ".+a" =
      .program ⟨[.literal .zero, .fetch 0, .binary .add]⟩ := by decide +kernel
  have hf : compile {} ".+a" = .failure ⟨⟨.badLiteral, 0⟩, [badExpressionByte]⟩ := by decide +kernel
  obtain ⟨_, -, hmirrors⟩ := (compile_records _ _).1 _ hp
  obtain ⟨_, -, -, hmirrors'⟩ := (compile_records _ _).2.1 _ hf
  exact ⟨hp, hmirrors.warnings.trans (by decide +kernel), hf, hmirrors'.warnings.trans (by decide +kernel)⟩

end FormulaCode
