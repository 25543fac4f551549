import FormulaCode.Proofs.Acceptance

namespace FormulaCode

variable {policy : LiteralPolicy}

namespace Draft

variable {d d' : Draft policy}

lemma wait_of_reads {w : Word policy} (hd : d.Formed) (h : d.Reads w d') :
    w.wait d.waiting = some d'.waiting := by
  cases h with
  | colon hv hw => exact if_neg hw
  | terminator hf =>
    rcases finish_eq_some hf with ⟨-, hf⟩ | ⟨-, -, -, -, hw, -⟩
    · exact congrArg some (hd.fresh hf)
    · exact congrArg some hw
  | _ => rfl

def Balanced (d : Draft policy) : Prop :=
  (∀ e, some e ∈ d.ended → waitAfter 0 e.words = some 0) ∧ waitAfter 0 d.words = some d.waiting

lemma waitAfter_ended {ended : List (Option (Phrase policy))}
    (h : ∀ e, some e ∈ ended → waitAfter 0 e.words = some 0) :
    waitAfter 0 (endedWords ended) = some 0 := by
  induction ended with
  | nil => rfl
  | cons x ended ih =>
    have hx : waitAfter 0 (x.elim [] Phrase.words) = some 0 := by
      cases x with
      | none => rfl
      | some e => exact h e List.mem_cons_self
    rw [endedWords, List.reverse_cons, List.flatMap_append, waitAfter_append]
    change (waitAfter 0 (endedWords ended)).bind _ = _
    rw [ih fun e he => h e (List.mem_cons_of_mem _ he), Option.bind_some, List.flatMap_singleton,
      waitAfter_append, hx]
    rfl

lemma Balanced.finish (h : d.Balanced) (hd : d.Formed) {e : Phrase policy}
    (hf : d.finish = some (some e)) : waitAfter 0 e.words = some 0 := by
  obtain ⟨he, hw⟩ := h
  have h0 : d.waiting = 0 := by
    rcases finish_eq_some hf with ⟨hx, -⟩ | ⟨-, -, -, -, hw, -⟩
    · cases hx
    · exact hw
  rw [← words_finish hd hf, waitAfter_append, waitAfter_ended he, h0] at hw
  exact hw

lemma Balanced.of_reads {w : Word policy} (h : d.Balanced) (hd : d.Formed) (hp : w.Plain)
    (hr : d.Reads w d') : d'.Balanced := by
  refine ⟨?_, ?_⟩
  · intro e he
    cases hr with
    | terminator hf =>
      rcases List.mem_cons.1 he with rfl | he
      · exact h.finish hd hf
      · exact h.1 e he
    | _ => exact h.1 e he
  · rw [words_of_reads hd hp hr, waitAfter_append, h.2, Option.bind_some, waitAfter_cons,
      wait_of_reads hd hr]
    rfl

lemma balanced_run {ws : List (Word policy)} (hd : d.Formed) (h : d.Balanced)
    (hp : ∀ w ∈ ws, w.Plain) (hr : d.run ws = some d') : d'.Balanced := by
  induction ws generalizing d with
  | nil =>
    cases hr
    exact h
  | cons w ws ih =>
    obtain ⟨hw, hws⟩ := List.forall_mem_cons.1 hp
    obtain ⟨e, he, hr⟩ := Option.bind_eq_some_iff.1 hr
    have hreads := reads_of_step he
    exact ih (formed_of_reads hd hreads) (h.of_reads hd hw hreads) hws hr

lemma run_ended (es ended : List (Option (Phrase policy)))
    (h : ∀ e, some e ∈ es → e.Whole ∧ waitAfter 0 e.words = some 0) :
    run { ended } (es.flatMap fun e => e.elim [] Phrase.words ++ [.terminator]) =
      some { ended := es.reverse ++ ended } := by
  induction es generalizing ended with
  | nil => rfl
  | cons x es ih =>
    have hx : ∃ d, run { ended } (x.elim [] Phrase.words) = some d ∧ d.ended = ended ∧
        d.finish = some x := by
      cases x with
      | none => exact ⟨{ ended }, rfl, rfl, rfl⟩
      | some e => exact Phrase.run_words (h e List.mem_cons_self).1 (h e List.mem_cons_self).2 ended
    obtain ⟨d, hrun, rfl, hf⟩ := hx
    rw [List.flatMap_cons, List.append_assoc, run_append, hrun, Option.bind_some, List.singleton_append,
      run_cons]
    simp only [step, hf, Option.map_some, Option.bind_some]
    rw [ih _ fun e he => h e (List.mem_cons_of_mem _ he)]
    simp

end Draft

lemma Function.plain_word (f : Function) : (f.word : Word policy).Plain := by
  cases f with
  | one f =>
    rcases f.word_eq policy with ⟨-, h⟩ | h
    · rw [word, h]
      trivial
    · rw [word, h]
      exact h
  | two f => rfl

lemma BinaryForm.plain_word (f : BinaryForm) : (f.word : Word policy).Plain := by
  rcases f.word_eq policy with ⟨-, h⟩ | h
  · rw [h]
    trivial
  · rw [h]
    exact h

lemma Phrase.plain_words (e : Phrase policy) : ∀ w ∈ e.words, w.Plain := by
  induction e with
  | atom a => simp [words, Word.Plain]
  | apply f e ih => exact List.forall_mem_cons.2 ⟨f.plain_word, ih⟩
  | binary f l r ihl ihr =>
    exact List.forall_mem_append.2 ⟨ihl, List.forall_mem_cons.2 ⟨f.plain_word, ihr⟩⟩
  | mark m l r ihl ihr => exact List.forall_mem_append.2 ⟨ihl, List.forall_mem_cons.2 ⟨trivial, ihr⟩⟩
  | paren e ih =>
    exact List.forall_mem_append.2 ⟨List.forall_mem_cons.2 ⟨trivial, ih⟩, by simp [Word.Plain]⟩
  | pair a b iha ihb =>
    exact List.forall_mem_append.2 ⟨List.forall_mem_append.2 ⟨List.forall_mem_cons.2 ⟨trivial, iha⟩,
      List.forall_mem_cons.2 ⟨trivial, ihb⟩⟩, by simp [Word.Plain]⟩

def Phrase.Closed (e : Phrase policy) : Prop := e.Whole ∧ waitAfter 0 e.words = some 0

variable {symbols : List Symbol} {es fs : List (Option (Phrase policy))}

lemma Accepted.closed (h : Accepted policy symbols es) : ∀ e, some e ∈ es → e.Closed := by
  obtain ⟨ws, d, x, hp, -, hrun, hf, rfl⟩ := h
  have hd := Draft.formed_run Draft.formed_start hrun
  have hb := Draft.balanced_run Draft.formed_start ⟨nofun, rfl⟩ hp hrun
  have hw := (hd.terminator hf).ended
  intro e he
  rw [List.mem_reverse] at he
  refine ⟨hw e he, ?_⟩
  rcases List.mem_cons.1 he with rfl | he
  · exact hb.finish hd hf
  · exact hb.1 e he

lemma Accepted.symbols_eq (h : Accepted policy symbols es) :
    symbols = (wordsOf es).map Word.symbol := by
  obtain ⟨ws, d, x, hp, rfl, hrun, hf, rfl⟩ := h
  have hd := Draft.formed_run Draft.formed_start hrun
  have hw := Draft.words_run Draft.formed_start hp hrun
  rw [wordsOf_reverse, Draft.words_finish hd hf, hw]
  simp [Draft.words, Draft.endedWords, Group.words]

lemma Accepted.ne_nil (h : Accepted policy symbols es) : es ≠ [] := by
  obtain ⟨ws, d, x, -, -, -, -, rfl⟩ := h
  simp

lemma plain_wordsOf (es : List (Option (Phrase policy))) : ∀ w ∈ wordsOf es, w.Plain := by
  have hx (x : Option (Phrase policy)) : ∀ w ∈ x.elim [] Phrase.words, w.Plain := by
    cases x with
    | none => exact nofun
    | some e => exact e.plain_words
  rcases List.eq_nil_or_concat' es with rfl | ⟨init, x, rfl⟩
  · exact nofun
  · rw [wordsOf_concat]
    refine List.forall_mem_append.2 ⟨fun w hw => ?_, hx x⟩
    obtain ⟨y, -, hw⟩ := List.mem_flatMap.1 hw
    rcases List.mem_append.1 hw with hw | hw
    · exact hx y w hw
    · rw [List.mem_singleton.1 hw]
      trivial

lemma accepted_of_closed (hn : es ≠ []) (h : ∀ e, some e ∈ es → e.Closed) :
    Accepted policy ((wordsOf es).map Word.symbol) es := by
  obtain ⟨init, x, rfl⟩ := List.eq_nil_or_concat' es |>.resolve_left hn
  have hinit : ∀ e, some e ∈ init → e.Closed := fun e he => h e (List.mem_append_left _ he)
  have hrun := Draft.run_ended init [] hinit
  have hx : ∃ d, Draft.run { ended := init.reverse ++ [] } (x.elim [] Phrase.words) = some d ∧
      d.ended = init.reverse ++ [] ∧ d.finish = some x := by
    cases x with
    | none => exact ⟨_, rfl, rfl, rfl⟩
    | some e => exact Phrase.run_words (h e (by simp)).1 (h e (by simp)).2 _
  obtain ⟨d, hd, hend, hf⟩ := hx
  refine ⟨_, d, x, plain_wordsOf _, rfl, ?_, hf, by simp [hend]⟩
  rw [wordsOf_concat, Draft.run_append, hrun, Option.bind_some, hd]

lemma Function.eq_of_element {f g : Function} (h : f.element = g.element) : f = g := by
  have hc := congrArg Element.code h
  cases f with
  | one f =>
    cases g with
    | one g => exact congrArg Function.one (Form.eq_of_element (fun _ _ => Opcode.unary.inj) h)
    | two g =>
      cases Opcode.byte_injective (a := .unary f.op) (b := .binary g.op)
        (f.code_eq.symm.trans (hc.trans g.code_eq))
  | two f =>
    cases g with
    | one g =>
      cases Opcode.byte_injective (a := .binary f.op) (b := .unary g.op)
        (f.code_eq.symm.trans (hc.trans g.code_eq))
    | two g => exact congrArg Function.two (Form.eq_of_element (fun _ _ => Opcode.binary.inj) h)

lemma Function.element_ne_openParen (f : Function) : f.element ≠ .openParen := by
  intro h
  have hp := f.isOpenParen_eq
  rw [h] at hp
  cases hp

lemma Atom.symbol_injective {a b : Atom policy} (h : a.symbol = b.symbol) : a = b := by
  cases a with
  | letter v =>
    cases b with
    | letter w =>
      have hn := congrArg UInt8.toNat (Emission.fetch.inj (Symbol.operand.inj h))
      rw [toNat_variable, toNat_variable] at hn
      exact congrArg Atom.letter (Fin.ext hn)
    | _ => cases h
  | constant c =>
    cases b with
    | constant d =>
      cases Opcode.byte_injective (a := .constant c) (b := .constant d)
        (Emission.op.inj (Symbol.operand.inj h))
      rfl
    | _ => cases h
  | numeral n x hx =>
    cases b with
    | numeral m y hy =>
      cases Symbol.numeral.inj h
      cases Option.some.inj (hx.symm.trans hy)
      rfl
    | _ => cases h

lemma Word.symbol_injective {v w : Word policy} (h : v.symbol = w.symbol) : v = w := by
  cases v with
  | atom a =>
    cases w with
    | atom b => exact congrArg Word.atom (Atom.symbol_injective h)
    | mark m => cases a <;> cases m <;> cases h
    | _ => cases a <;> cases h
  | function f =>
    cases w with
    | function g => exact congrArg Word.function (Function.eq_of_element (Symbol.unary.inj h))
    | openParen => exact absurd (Symbol.unary.inj h) f.element_ne_openParen
    | atom b => cases b <;> cases h
    | mark m => cases m <;> cases h
    | _ => cases h
  | operator f =>
    cases w with
    | operator g =>
      exact congrArg Word.operator (Form.eq_of_element (fun _ _ => Opcode.binary.inj) (Symbol.binary.inj h))
    | atom b => cases b <;> cases h
    | mark m => cases m <;> cases h
    | _ => cases h
  | openParen =>
    cases w with
    | openParen => rfl
    | function g => exact absurd (Symbol.unary.inj h).symm g.element_ne_openParen
    | atom b => cases b <;> cases h
    | mark m => cases m <;> cases h
    | _ => cases h
  | mark m =>
    cases w with
    | mark n => cases m <;> cases n <;> first | rfl | cases h
    | atom b => cases b <;> cases m <;> cases h
    | _ => cases m <;> cases h
  | _ =>
    cases w with
    | atom b => cases b <;> cases h
    | mark m => cases m <;> cases h
    | _ => first | rfl | cases h

lemma Accepted.unique (he : Accepted policy symbols es) (hf : Accepted policy symbols fs) : es = fs := by
  obtain ⟨ws, d, x, -, hws, hd, hx, rfl⟩ := he
  obtain ⟨vs, e, y, -, hvs, he, hy, rfl⟩ := hf
  cases (List.map_injective_iff.2 fun _ _ => Word.symbol_injective) (hws.symm.trans hvs)
  cases hd.symm.trans he
  cases hx.symm.trans hy
  rfl

end FormulaCode
