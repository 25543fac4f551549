import FormulaCode.Proofs.Outcome

/-! Every formula is a phrase with the same words and the same code, in which the marks of nested
conditionals stand in one row. -/

namespace FormulaCode

variable {policy : LiteralPolicy}

namespace Phrase

/-- Puts a phrase and a mark in front of the row of marks of another phrase. -/
def link (m : Mark) (l : Phrase policy) : Phrase policy → Phrase policy
  | .mark n a b => .mark n (link m l a) b
  | r => .mark m l r

section Link

variable (m : Mark) (l r : Phrase policy)

lemma words_link : (link m l r).words = l.words ++ .mark m :: r.words := by
  induction r with
  | mark n a b iha _ => simp [link, words, iha]
  | _ => rfl

lemma main_link : (link m l r).main = l.main ++ m.instruction :: r.main := by
  induction r with
  | mark n a b iha _ => simp [link, main, iha]
  | _ => rfl

lemma ends_link : (link m l r).ends = l.ends + m.ends + r.ends := by
  induction r with
  | mark n a b iha _ => simp [link, ends, iha, Nat.add_assoc]
  | _ => rfl

lemma net_link : (link m l r).net = l.net + r.net - 1 := by
  induction r with
  | mark n a b iha _ => simp only [link, net, iha]; omega
  | _ => rfl

lemma rank_link : (link m l r).rank = 0 := by
  cases r <;> rfl

lemma width_link : (link m l r).width? = none := by
  cases r <;> rfl

lemma formed_link {m : Mark} {l r : Phrase policy} (hl : l.Formed) (hr : r.Formed)
    (hwl : l.width? ≠ some 2) (hwr : r.width? ≠ some 2) : (link m l r).Formed := by
  induction r with
  | mark n a b iha _ =>
    obtain ⟨ha, hb, hp, hwa, hwb⟩ := hr
    exact ⟨iha ha hwa, hb, hp, by rw [width_link]; nofun, hwb⟩
  | binary f a b => exact ⟨hl, hr, f.priority_pos, hwl, hwr⟩
  | _ => exact ⟨hl, hr, (by decide : 0 < 7), hwl, hwr⟩

end Link

end Phrase

namespace Formula

def phrase {p : Nat} : Formula policy p → Phrase policy
  | .atom a => .atom a
  | .apply f e => .apply (.one f) e.phrase
  | .call f a b => .apply (.two f) (.pair a.phrase b.phrase)
  | .paren e => .paren e.phrase
  | .binary f l r _ _ => .binary f l.phrase r.phrase
  | .conditional c t e _ => .link .colon (.link .question c.phrase t.phrase) e.phrase

variable {p : Nat} (e : Formula policy p)

lemma rank_phrase : e.phrase.rank = p := by
  cases e with
  | conditional c t e hc => exact Phrase.rank_link ..
  | _ => rfl

lemma width_phrase : e.phrase.width? ≠ some 2 := by
  cases e with
  | conditional c t e hc => rw [phrase, Phrase.width_link]; nofun
  | _ => exact nofun

lemma net_phrase : e.phrase.net = 1 := by
  induction e with
  | atom a => rfl
  | apply f e ih =>
    simp [phrase, Phrase.net, ih, Function.instruction, Instruction.opcode, Opcode.stackEffect]
  | call f a b iha ihb =>
    simp [phrase, Phrase.net, iha, ihb, Function.instruction, Instruction.opcode, Opcode.stackEffect]
  | paren e ih => exact ih
  | binary f l r _ _ ihl ihr => simp [phrase, Phrase.net, ihl, ihr]
  | conditional c t e _ ihc iht ihe => simp [phrase, Phrase.net_link, ihc, iht, ihe]

lemma ends_phrase : e.phrase.ends = e.ends := by
  induction e with
  | conditional c t e hc ihc iht ihe =>
    simp only [phrase, Phrase.ends_link, ihc, iht, ihe, ends, Mark.ends, c.ends_eq_zero hc]
    omega
  | _ => rfl

lemma main_phrase : e.phrase.main = e.main := by
  induction e with
  | atom a => rfl
  | apply f e ih => simp [phrase, Phrase.main, main, ih, Function.instruction]
  | call f a b iha ihb =>
    simp [phrase, Phrase.main, main, iha, ihb, ends_phrase, Function.instruction]
  | paren e ih => simp [phrase, Phrase.main, main, ih, ends_phrase]
  | binary f l r _ _ ihl ihr => simp [phrase, Phrase.main, main, ihl, ihr]
  | conditional c t e _ ihc iht ihe =>
    simp [phrase, Phrase.main_link, main, ihc, iht, ihe, Mark.instruction]

lemma code_phrase : e.phrase.code = e.code := by
  rw [Phrase.code, code, main_phrase, ends_phrase]

lemma formed_phrase : e.phrase.Formed := by
  induction e with
  | atom a => trivial
  | apply f e ih =>
    exact ⟨ih, e.rank_phrase, fun n hn => (Phrase.eq_one_of_width hn e.width_phrase).symm⟩
  | call f a b iha ihb =>
    exact ⟨⟨⟨iha, a.net_phrase, a.width_phrase⟩, ihb, b.net_phrase, b.width_phrase⟩, rfl,
      fun n hn => Option.some.inj hn⟩
  | paren e ih => exact ⟨ih, e.net_phrase, e.width_phrase⟩
  | binary f l r hl hr ihl ihr =>
    exact ⟨ihl, ihr, by rwa [l.rank_phrase], by rwa [r.rank_phrase], l.width_phrase, r.width_phrase⟩
  | conditional c t e hc ihc iht ihe =>
    exact Phrase.formed_link (Phrase.formed_link ihc iht c.width_phrase t.width_phrase) ihe
      (by rw [Phrase.width_link]; nofun) e.width_phrase

lemma symbol_unary (f : UnaryForm) : (f.word : Word policy).symbol = f.symbol := by
  rw [UnaryForm.word, UnaryForm.symbol]
  split <;> rfl

lemma symbol_binary (f : BinaryForm) : (f.word : Word policy).symbol = f.symbol := by
  rw [BinaryForm.word, BinaryForm.symbol]
  split <;> rfl

lemma symbols_phrase : e.phrase.words.map Word.symbol = e.yield := by
  induction e with
  | atom a => rfl
  | apply f e ih => simp [phrase, Phrase.words, yield, Function.word, symbol_unary, ih]
  | call f a b iha ihb =>
    simp [phrase, Phrase.words, yield, Function.word, Word.symbol, iha, ihb, Function.element]
  | paren e ih => simp [phrase, Phrase.words, yield, Word.symbol, ih]
  | binary f l r _ _ ihl ihr => simp [phrase, Phrase.words, yield, symbol_binary, ihl, ihr]
  | conditional c t e _ ihc iht ihe =>
    simp [phrase, Phrase.words_link, yield, Word.symbol, Mark.symbol, ihc, iht, ihe]

lemma waitAfter_phrase (n : Nat) : waitAfter n e.phrase.words = some n := by
  induction e generalizing n with
  | atom a => rfl
  | apply f e ih =>
    rw [phrase, Phrase.words, waitAfter_cons, Function.wait_word]
    exact ih n
  | call f a b iha ihb =>
    simp only [phrase, Phrase.words, waitAfter_cons, Option.bind_some, List.cons_append,
      waitAfter_append, iha, ihb, Word.wait]
    rfl
  | paren e ih =>
    simp only [phrase, Phrase.words, waitAfter_cons, Option.bind_some, List.cons_append,
      waitAfter_append, ih, Word.wait]
    rfl
  | binary f l r _ _ ihl ihr =>
    simp only [phrase, Phrase.words, waitAfter_append, waitAfter_cons, BinaryForm.wait_word,
      Option.bind_some, ihl, ihr]
  | conditional c t e _ ihc iht ihe =>
    simp only [phrase, Phrase.words_link, List.append_assoc, waitAfter_append, waitAfter_cons, ihc, iht,
      ihe, Option.bind_some, Word.wait, List.cons_append]
    simp

lemma closed_phrase : e.phrase.Closed :=
  ⟨⟨e.formed_phrase, e.net_phrase, e.width_phrase⟩, e.waitAfter_phrase 0⟩

end Formula

/-- Expressions one after the other, some of which may be empty. -/
abbrev Series (policy : LiteralPolicy) := List (Option (Σ p, Formula policy p))

namespace Series

def yield (es : Series policy) : List Symbol :=
  List.intercalate [.terminator] (es.map fun e => e.elim [] fun e => e.2.yield)

def code (es : Series policy) : List Instruction :=
  joined (es.map fun e => e.elim [] fun e => e.2.code)

def phrases (es : Series policy) : List (Option (Phrase policy)) :=
  es.map fun e => e.map fun e => e.2.phrase

variable (es : Series policy)

lemma code_phrases : joined (codesOf es.phrases) = es.code := by
  rw [code, codesOf, phrases, List.map_map]
  congr 1
  refine List.map_congr_left fun e _ => ?_
  cases e with
  | none => rfl
  | some e => exact e.2.code_phrase

lemma symbols_phrases : (wordsOf es.phrases).map Word.symbol = es.yield := by
  have hx (e : Option (Σ p, Formula policy p)) :
      ((e.map fun e => e.2.phrase).elim [] Phrase.words).map Word.symbol =
        e.elim [] fun e => e.2.yield := by
    cases e with
    | none => rfl
    | some e => exact e.2.symbols_phrase
  rw [wordsOf, map_intercalate, phrases, List.map_map, List.map_map, yield]
  exact congrArg _ (List.map_congr_left fun e _ => hx e)

lemma accepted (h : es ≠ []) : Accepted policy es.yield es.phrases := by
  rw [← symbols_phrases]
  refine accepted_of_closed (by simpa [phrases] using h) fun x hx => ?_
  obtain ⟨e, -, he⟩ := List.mem_map.1 hx
  obtain ⟨e, rfl, rfl⟩ := Option.map_eq_some_iff.1 he
  exact e.2.closed_phrase

end Series

end FormulaCode
