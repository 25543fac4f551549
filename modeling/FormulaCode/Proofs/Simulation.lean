import FormulaCode.Proofs.Following
import FormulaCode.Proofs.Reading
import FormulaCode.Proofs.Relaxation
import FormulaCode.Proofs.Wording

/-! The compiler runs through a text exactly as a draft reads its words: where the operator stack is
large enough the compiler follows the draft, and where the compiler goes on it has followed one. -/

namespace FormulaCode

lemma Phrase.ends_le {policy : LiteralPolicy} (e : Phrase policy) : e.ends ≤ e.words.length := by
  induction e with
  | mark m l r ihl ihr =>
    have hm : m.ends ≤ 1 := by cases m <;> decide
    simp only [ends, words, List.length_append, List.length_cons]
    omega
  | _ => exact Nat.zero_le _

namespace Draft

variable {policy : LiteralPolicy}

lemma length_frames_le (frames : List (Frame policy)) :
    frames.length ≤ (frames.reverse.flatMap Frame.words).length := by
  induction frames with
  | nil => exact Nat.zero_le _
  | cons x frames ih =>
    have hx : 0 < x.words.length := by cases x <;> simp [Frame.words]
    simp only [List.reverse_cons, List.flatMap_append, List.length_append, List.length_cons,
      List.flatMap_cons, List.flatMap_nil, List.append_nil]
    omega

lemma length_pending_group (g : Group policy) : g.pending.length ≤ g.words.length := by
  have hf := length_frames_le g.frames
  have hc : g.ends ≤ (g.chain.elim [] fun c => c.1.words ++ [.mark c.2]).length := by
    rw [Group.ends]
    cases g.chain with
    | none => exact Nat.zero_le _
    | some c =>
      have he := c.1.ends_le
      have hm : c.2.ends ≤ 1 := by cases c.2 <;> decide
      simp only [Option.elim_some, List.length_append, List.length_singleton]
      omega
  simp only [Group.pending, Group.words, List.length_append, List.length_map, List.length_replicate]
  omega

lemma length_pending_outer (outer : List (Group policy)) :
    (outer.flatMap fun g => Element.openParen :: g.pending).length ≤
      (outer.reverse.flatMap fun g => g.words ++ [Word.openParen]).length := by
  induction outer with
  | nil => exact Nat.zero_le _
  | cons g outer ih =>
    have hg := length_pending_group g
    simp only [List.flatMap_cons, List.reverse_cons, List.flatMap_append, List.length_append,
      List.length_cons, List.flatMap_nil, List.length_nil]
    omega

lemma length_pending_le (d : Draft policy) : d.state.pending.length ≤ d.words.length := by
  have hg := length_pending_group d.group
  have ho := length_pending_outer d.outer
  simp only [state, words, List.length_append]
  omega

lemma formed_run {d d' : Draft policy} {ws : List (Word policy)} (hd : d.Formed)
    (h : d.run ws = some d') : d'.Formed := by
  induction ws generalizing d with
  | nil =>
    cases h
    exact hd
  | cons w ws ih =>
    obtain ⟨e, he, h⟩ := Option.bind_eq_some_iff.1 h
    exact ih (formed_of_reads hd (reads_of_step he)) h

lemma words_run {d d' : Draft policy} {ws : List (Word policy)} (hd : d.Formed)
    (hp : ∀ w ∈ ws, w.Plain) (h : d.run ws = some d') : d'.words = d.words ++ ws := by
  induction ws generalizing d with
  | nil =>
    cases h
    exact (List.append_nil _).symm
  | cons w ws ih =>
    obtain ⟨hw, hws⟩ := List.forall_mem_cons.1 hp
    obtain ⟨e, he, h⟩ := Option.bind_eq_some_iff.1 h
    have hr := reads_of_step he
    rw [ih (formed_of_reads hd hr) hws h, words_of_reads hd hw hr, List.append_assoc,
      List.singleton_append]

section Run

open Step

variable {o : Options} {d d' : Draft o.literalPolicy} {ws : List (Word o.literalPolicy)}
  {xs : List Lexeme} {events : List Event}

def Leads (o : Options) (d d' : Draft o.literalPolicy) (xs : List Lexeme) (events : List Event) : Prop :=
  d.state.run o xs = (events, .ok d'.state) ∧
    ∃ new, d'.code = d.code ++ new ∧ emissionsOf events = new.map .ofInstruction

lemma leads_nil (d : Draft o.literalPolicy) : Leads o d d [] [] :=
  ⟨rfl, [], (List.append_nil _).symm, rfl⟩

lemma leads_cons {x : Lexeme} {w : Word o.literalPolicy} {e : Draft o.literalPolicy}
    (hw : Follows o d w e) (hx : x.symbol = w.symbol) (h : Leads o e d' xs events) :
    Leads o d d' (x :: xs) (.token x.token :: (d.state.step o x.symbol).events ++ events) := by
  obtain ⟨new, hc, hg⟩ := hw
  obtain ⟨hr, more, hm, he⟩ := h
  rw [← hx] at hg
  refine ⟨by simp [State.run, hg.1, hr], new ++ more, by rw [hm, hc, List.append_assoc], ?_⟩
  rw [List.map_append, ← hg.2, ← he]
  exact emissionsOf_append _ _

lemma leads_of_run (hd : d.Formed) (hp : ∀ w ∈ ws, w.Plain) (h : d.run ws = some d')
    (hx : xs.map Lexeme.symbol = ws.map Word.symbol)
    (hl : d.words.length + ws.length ≤ o.maxStackDepth) : ∃ events, Leads o d d' xs events := by
  induction ws generalizing d xs with
  | nil =>
    cases h
    cases List.map_eq_nil_iff.1 hx
    exact ⟨[], leads_nil _⟩
  | cons w ws ih =>
    obtain ⟨x, xs, rfl, hxw, hxs⟩ := List.map_eq_cons_iff.1 hx
    obtain ⟨hw, hws⟩ := List.forall_mem_cons.1 hp
    obtain ⟨e, he, h⟩ := Option.bind_eq_some_iff.1 h
    have hr := reads_of_step he
    have hwords := words_of_reads hd hw hr
    have hlen := e.length_pending_le
    rw [hwords, List.length_append, List.length_singleton] at hlen
    rw [List.length_cons] at hl
    obtain ⟨events, hlead⟩ := ih (formed_of_reads hd hr) hws h hxs
      (by rw [hwords, List.length_append, List.length_singleton]; omega)
    exact ⟨_, leads_cons (follows_of_reads hd hr (by omega)) hxw hlead⟩

lemma follows_of_ok {w : Word o.literalPolicy} {s : State} (hd : d.Formed)
    (h : (d.state.step o w.symbol).result = .ok s) :
    ∃ e, d.step w = some e ∧ s = e.state ∧ Follows o d w e := by
  cases he : d.step w with
  | none =>
    obtain ⟨k, hk⟩ := fails_of_step hd he
    cases h.symm.trans hk
  | some e =>
    let n := max o.maxStackDepth e.state.pending.length
    have hwide : o.Relaxes { o with maxStackDepth := n } := ⟨le_max_left _ _, .inl rfl⟩
    have hb := (State.relaxes_step hwide d.state w.symbol).eq_of_ok h
    obtain ⟨new, hc, hg⟩ := follows_of_reads (o := { o with maxStackDepth := n }) hd (reads_of_step he)
      (le_max_right _ _)
    rw [hb] at hg
    exact ⟨e, rfl, Except.ok.inj (h.symm.trans hg.1), new, hc, hg⟩

lemma fails_refused {s : State} {n : Numeral} (hn : n.valueUnder o.literalPolicy = none) :
    (s.step o (.numeral n)).Fails := by
  have hl : (s.literal o.literalPolicy n).Fails := by
    simp only [State.literal, hn]
    exact Gives.bind_fails (a := ()) ⟨rfl, rfl⟩ (fails_fail _)
  cases hs : s.operandNeeded with
  | false => exact (fails_require hs _).bind _
  | true => exact (gives_require hs _).bind_fails (hl.bind _)

lemma leads_of_ok {s : State} (hd : d.Formed) (hx : ∀ x ∈ xs, x.symbol.Spoken o.literalPolicy)
    (h : d.state.run o xs = (events, .ok s)) : ∃ ws d', (∀ w ∈ ws, w.Plain) ∧
      xs.map Lexeme.symbol = ws.map Word.symbol ∧ d.run ws = some d' ∧ Leads o d d' xs events := by
  induction xs generalizing d events with
  | nil =>
    cases h
    exact ⟨[], d, nofun, rfl, rfl, leads_nil d⟩
  | cons x xs ih =>
    obtain ⟨hxw, hxs⟩ := List.forall_mem_cons.1 hx
    rcases hxw with ⟨w, hw, hxw⟩ | ⟨n, hn, hv⟩
    · rw [State.run, ← hxw] at h
      cases hr : (d.state.step o w.symbol).result with
      | error k => simp [hr] at h
      | ok t =>
        obtain ⟨e, he, rfl, hf⟩ := follows_of_ok hd hr
        simp only [hr, Prod.mk.injEq] at h
        obtain ⟨rfl, h⟩ := h
        obtain ⟨ws, d', hws, hmap, hrun, hlead⟩ := ih (formed_of_reads hd (reads_of_step he)) hxs
          (Prod.ext rfl h)
        refine ⟨w :: ws, d', List.forall_mem_cons.2 ⟨hw, hws⟩, by simp [hxw, hmap], ?_, ?_⟩
        · rw [run_cons, he]
          exact hrun
        · have hl := leads_cons hf hxw.symm hlead
          rwa [← hxw] at hl
    · obtain ⟨k, hk⟩ := fails_refused (s := d.state) hv
      simp [State.run, hn, hk] at h

end Run

end Draft

end FormulaCode
