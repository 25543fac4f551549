import FormulaCode.Proofs.Forming

namespace FormulaCode

variable {policy : LiteralPolicy}

lemma UnaryForm.word_negate : (UnaryForm.negate.word : Word policy) = .minus := if_pos rfl

lemma BinaryForm.word_subtract : (BinaryForm.subtract.word : Word policy) = .minus := if_pos rfl

namespace Draft

variable {d d' : Draft policy} {e : Phrase policy}

lemma words_hold (hv : d.value = none) (f : Function) : (d.hold f).words = d.words ++ [f.word] := by
  simp [hold, words, Group.words, Frame.words, hv]

lemma words_push (hv : d.value = some e) (f : BinaryForm) :
    (d.push f e).words = d.words ++ [f.word] := by
  have hsplit (c : Frame policy → Bool) : d.group.frames.reverse.flatMap Frame.words =
      (d.group.frames.dropWhile c).reverse.flatMap Frame.words ++
        (d.group.frames.takeWhile c).reverse.flatMap Frame.words := by
    rw [← List.flatMap_append, ← List.reverse_append, List.takeWhile_append_dropWhile]
  rw [words, words, Group.words, Group.words, hsplit fun x => f.priority ≤ x.element.stackPriority]
  simp [push, Frame.words, words_complete, hv]

lemma words_marked (hv : d.value = some e) (m : Mark) (n : Nat) :
    (d.marked m e n).words = d.words ++ [.mark m] := by
  have hc := congrArg (· ++ [Word.mark m]) (d.group.words_closed e)
  rw [words, words, Group.words, hv, Option.elim_some]
  simp only [List.append_assoc] at hc
  simp [marked, hc]

lemma words_closeParen {l : Phrase policy} {g : Group policy} {outer : List (Group policy)}
    (hv : d.value = some e) (ho : d.outer = g :: outer)
    (hl : listOf d.group.arguments (d.group.closed e) = some l) :
    words { d with outer, group := g, value := some l } = d.words ++ [.closeParen] := by
  have hc := congrArg (· ++ [Word.closeParen]) (d.group.words_closed e)
  simp only [List.append_assoc] at hc
  simp [words, words_listOf hl, hv, ho, hc]

lemma words_finish {x : Option (Phrase policy)} (hd : d.Formed) (h : d.finish = some x) :
    endedWords d.ended ++ x.elim [] Phrase.words = d.words := by
  rcases finish_eq_some h with ⟨rfl, hf⟩ | ⟨e, rfl, ho, hv, hw, hn⟩
  · obtain ⟨ho, hg, hv⟩ := eq_of_isFresh hf
    simp [words, ho, hg, hv, Group.words]
  · have hc := d.group.words_closed e
    rw [arguments_of_outer_nil hd ho] at hc
    simpa [words, ho, hv] using hc

lemma words_of_reads {w : Word policy} (hd : d.Formed) (hp : w.Plain) (h : d.Reads w d') :
    d'.words = d.words ++ [w] := by
  cases h with
  | atom hv a => simp [words, hv, Phrase.words]
  | function hv f => rw [words_hold hv, hp]
  | sign hv => rw [words_hold hv, Function.word, UnaryForm.word_negate]
  | operator hv f => rw [words_push hv, hp]
  | subtraction hv => rw [words_push hv, BinaryForm.word_subtract]
  | openParen hv => simp [words, Group.words, hv]
  | @separator e hv ho hn =>
    have hc := congrArg (· ++ [Word.separator]) (d.group.words_closed e)
    rw [words, words, Group.words, hv]
    simp only [List.append_assoc] at hc
    simp [hc]
  | closeParen hv ho hn ha hl => exact words_closeParen hv ho hl
  | question hv => exact words_marked hv _ _
  | colon hv hw => exact words_marked hv _ _
  | terminator hf =>
    rw [← words_finish hd hf]
    simp [words, endedWords, Group.words]

end Draft

def Word.wait (n : Nat) : Word policy → Option Nat
  | .mark .question => some (n + 1)
  | .mark .colon => if n = 0 then none else some (n - 1)
  | _ => some n

def waitAfter (n : Nat) (ws : List (Word policy)) : Option Nat := ws.foldlM Word.wait n

lemma waitAfter_append (n : Nat) (xs ys : List (Word policy)) :
    waitAfter n (xs ++ ys) = (waitAfter n xs).bind (waitAfter · ys) := List.foldlM_append

lemma waitAfter_cons (n : Nat) (w : Word policy) (ws : List (Word policy)) :
    waitAfter n (w :: ws) = (w.wait n).bind (waitAfter · ws) := rfl

lemma waitAfter_openParen (n : Nat) (ws : List (Word policy)) :
    waitAfter n (.openParen :: ws) = waitAfter n ws := rfl

lemma waitAfter_separator (n : Nat) (ws : List (Word policy)) :
    waitAfter n (.separator :: ws) = waitAfter n ws := rfl

lemma UnaryForm.word_eq (policy : LiteralPolicy) (f : UnaryForm) :
    f = .negate ∧ (f.word : Word policy) = .minus ∨ (f.word : Word policy) = .function (.one f) := by
  by_cases h : f.element = .negate
  · exact .inl ⟨Form.eq_of_element (fun _ _ => Opcode.unary.inj) h, if_pos h⟩
  · exact .inr (if_neg h)

lemma BinaryForm.word_eq (policy : LiteralPolicy) (f : BinaryForm) :
    f = .subtract ∧ (f.word : Word policy) = .minus ∨ (f.word : Word policy) = .operator f := by
  by_cases h : f.element = .subtract
  · exact .inl ⟨Form.eq_of_element (fun _ _ => Opcode.binary.inj) h, if_pos h⟩
  · exact .inr (if_neg h)

lemma Function.wait_word (f : Function) (n : Nat) : (f.word : Word policy).wait n = some n := by
  cases f with
  | one f => rcases f.word_eq policy with ⟨_, h⟩ | h <;> rw [word, h] <;> rfl
  | two f => rfl

lemma BinaryForm.wait_word (f : BinaryForm) (n : Nat) : (f.word : Word policy).wait n = some n := by
  rcases f.word_eq policy with ⟨_, h⟩ | h <;> rw [h] <;> rfl

namespace Draft

variable {d : Draft policy} {e : Phrase policy}

lemma step_function (hv : d.value = none) (f : Function) : d.step f.word = some (d.hold f) := by
  cases f with
  | one f =>
    rcases f.word_eq policy with ⟨rfl, h⟩ | h <;> rw [Function.word, h] <;> simp [step, hv]
  | two f => simp [Function.word, step, hv]

lemma step_binary (hv : d.value = some e) (f : BinaryForm) : d.step f.word = some (d.push f e) := by
  rcases f.word_eq policy with ⟨rfl, h⟩ | h <;> rw [h] <;> simp [step, hv]

lemma step_openParen (hv : d.value = none) :
    d.step .openParen = some { d with outer := d.group :: d.outer, group := {} } := by
  simp [step, hv]

lemma step_separator (hv : d.value = some e) (ho : d.outer ≠ []) (hn : (d.group.closed e).net = 1) :
    d.step .separator = some
      { d with group := { arguments := d.group.closed e :: d.group.arguments }, value := none } := by
  simp [step, hv, ho, hn]

lemma step_closeParen {l : Phrase policy} {g : Group policy} {outer : List (Group policy)}
    (hv : d.value = some e) (ho : d.outer = g :: outer) (hn : (d.group.closed e).net = 1)
    (ha : d.group.arguments.length + 1 = g.expected)
    (hl : listOf d.group.arguments (d.group.closed e) = some l) :
    d.step .closeParen = some { d with outer, group := g, value := some l } := by
  simp [step, hv, ho, hn, ha, hl]

lemma run_append (d : Draft policy) (xs ys : List (Word policy)) :
    d.run (xs ++ ys) = (d.run xs).bind (·.run ys) := List.foldlM_append

lemma run_cons (d : Draft policy) (w : Word policy) (ws : List (Word policy)) :
    d.run (w :: ws) = (d.step w).bind (·.run ws) := rfl

def landed (d : Draft policy) (g : Group policy) (v : Phrase policy) (n : Nat) : Draft policy :=
  { d with group := g, value := some v, waiting := n }

def awaiting (d : Draft policy) (frames : List (Frame policy)) (n : Nat) : Draft policy :=
  { d with group := { d.group with frames }, value := none, waiting := n }

end Draft

namespace Phrase

def Tight (e : Phrase policy) : Prop :=
  ∀ (d : Draft policy) (n : Nat), d.value = none → e.Fits d.group.frames →
    waitAfter d.waiting e.words = some n → ∃ frames v, complete frames v = e ∧
      (∀ x ∈ frames, e.rank ≤ x.element.stackPriority) ∧
      d.run e.words = some (d.landed { d.group with frames := frames ++ d.group.frames } v n)

def Loose (e : Phrase policy) : Prop :=
  ∀ (d : Draft policy) (n : Nat), d.value = none → d.group.chain = none → d.group.frames = [] →
    e.Formed → e.width? ≠ some 2 → waitAfter d.waiting e.words = some n →
      ∃ g v, g.closed v = e ∧ g.arguments = d.group.arguments ∧ d.run e.words = some (d.landed g v n)

lemma eq_one_of_width {e : Phrase policy} {n : Nat} (hn : e.width? = some n) (hw : e.width? ≠ some 2) :
    n = 1 := by
  cases e <;> simp_all [width?]

lemma fits_nil {e : Phrase policy} (he : e.Formed) (hr : 0 < e.rank) (hw : e.width? ≠ some 2) :
    e.Fits [] := by
  exact ⟨he, hr, fun n hn => (eq_one_of_width hn hw).symm⟩

lemma Tight.loose {e : Phrase policy} (h : e.Tight) (hr : 0 < e.rank) : e.Loose := by
  intro d n hv hc hf he hw hn
  obtain ⟨frames, v, hcomplete, -, hrun⟩ := h d n hv (by rw [hf]; exact fits_nil he hr hw) hn
  refine ⟨{ d.group with frames := frames ++ d.group.frames }, v, ?_, rfl, hrun⟩
  simp [Group.closed, Group.linked, hc, hf, hcomplete]

lemma tight_atom (a : Atom policy) : (atom a).Tight := by
  intro d n hv _ hn
  cases hn
  exact ⟨[], .atom a, rfl, nofun, by simp [Draft.run, words, Draft.step, hv, Draft.landed]⟩

lemma tight_apply {e : Phrase policy} (h : e.Tight) (f : Function) : (apply f e).Tight := by
  intro d n hv hfit hn
  obtain ⟨he, hr, hw⟩ := hfit.formed
  rw [words, waitAfter_cons, f.wait_word] at hn
  obtain ⟨frames, v, hc, hp, hrun⟩ := h (d.hold f) n hv ⟨he, hr.ge, hw⟩ hn
  refine ⟨frames ++ [.apply f], v, ?_, ?_, ?_⟩
  · rw [complete, List.foldl_append]
    exact congrArg (apply f) hc
  · rw [hr] at hp
    exact List.forall_mem_append.2 ⟨hp, List.forall_mem_singleton.2 f.priorities.1.ge⟩
  · rw [words, Draft.run_cons, Draft.step_function hv, Option.bind_some, hrun]
    simp [Draft.landed, Draft.hold]

lemma expectedOf_of_floor {frames : List (Frame policy)} (h : floorOf frames < 7) :
    expectedOf frames = 1 := by
  match frames with
  | [] => rfl
  | .apply f :: _ => exact absurd h (lt_irrefl 7)
  | .binary _ _ :: _ => rfl

lemma Fits.left {f : BinaryForm} {l r : Phrase policy} {frames : List (Frame policy)}
    (h : (binary f l r).Fits frames) : l.Fits frames := by
  obtain ⟨hl, -, hp, -, hw, -⟩ := h.formed
  have hb : floorOf frames ≤ f.priority := h.floor
  refine ⟨hl, hb.trans hp, fun n hn => ?_⟩
  rw [eq_one_of_width hn hw]
  exact expectedOf_of_floor (hb.trans_lt (Nat.lt_succ_of_le f.priority_le))

lemma split_of_floor {p : Nat} {frames rest : List (Frame policy)} (hb : floorOf rest ≤ p) (hp : p ≤ 6)
    (hf : ∀ x ∈ frames, p ≤ x.element.stackPriority) :
    ((frames ++ rest).takeWhile fun x => decide (p ≤ x.element.stackPriority)) = frames ∧
      ((frames ++ rest).dropWhile fun x => decide (p ≤ x.element.stackPriority)) = rest := by
  have hr : (rest.takeWhile fun x => decide (p ≤ x.element.stackPriority)) = [] ∧
      (rest.dropWhile fun x => decide (p ≤ x.element.stackPriority)) = rest := by
    match rest, hb with
    | [], _ => exact ⟨rfl, rfl⟩
    | .apply f :: _, hb => exact absurd (hb.trans hp) (by simp [floorOf])
    | .binary f l :: _, hb =>
      have hx : ¬ p ≤ (Frame.binary f l).element.stackPriority := Nat.not_le_of_lt hb
      simp [hx]
  have hd : ∀ x ∈ frames, decide (p ≤ x.element.stackPriority) = true := fun x hx =>
    decide_eq_true (hf x hx)
  rw [List.takeWhile_append_of_pos hd, List.dropWhile_append_of_pos hd, hr.1, hr.2, List.append_nil]
  exact ⟨rfl, rfl⟩

lemma tight_binary {l r : Phrase policy} (hl : l.Tight) (hr : r.Tight) (f : BinaryForm) :
    (binary f l r).Tight := by
  intro d n hv hfit hn
  obtain ⟨-, her, hpl, hpr, -, hwr⟩ := hfit.formed
  rw [words, waitAfter_append] at hn
  obtain ⟨k, hk, hm⟩ := Option.bind_eq_some_iff.1 hn
  rw [waitAfter_cons, f.wait_word, Option.bind_some] at hm
  obtain ⟨frames, v, rfl, hp, hrun⟩ := hl d k hv hfit.left hk
  have hs := split_of_floor (p := f.priority) hfit.floor f.priority_le
    fun x hx => hpl.trans (hp x hx)
  have hpush : (d.landed { d.group with frames := frames ++ d.group.frames } v k).push f v =
      d.awaiting (.binary f (complete frames v) :: d.group.frames) k := by
    simp only [Draft.push, Draft.landed, Draft.awaiting, hs.1, hs.2]
  obtain ⟨gs, u, rfl, hq, hrun'⟩ :=
    hr (d.awaiting (.binary f (complete frames v) :: d.group.frames) k) n rfl
    ⟨her, hpr, fun n hn => (eq_one_of_width hn hwr).symm⟩ hm
  refine ⟨gs ++ [.binary f (complete frames v)], u, ?_, ?_, ?_⟩
  · rw [complete, List.foldl_append]
    rfl
  · exact List.forall_mem_append.2
      ⟨fun x hx => (Nat.le_of_lt hpr).trans (hq x hx), List.forall_mem_singleton.2 le_rfl⟩
  · rw [words, Draft.run_append, hrun, Option.bind_some, Draft.run_cons, Draft.step_binary rfl,
      Option.bind_some, hpush, hrun']
    simp [Draft.landed, Draft.awaiting]

lemma loose_mark {l r : Phrase policy} (hl : l.Loose) (hr : r.Tight) (m : Mark) :
    (mark m l r).Loose := by
  intro d n hv hc hf he _ hn
  obtain ⟨hel, her, hpr, hwl, hwr⟩ := he
  rw [words, waitAfter_append] at hn
  obtain ⟨k, hk, hm⟩ := Option.bind_eq_some_iff.1 hn
  rw [waitAfter_cons] at hm
  obtain ⟨j, hj, hm⟩ := Option.bind_eq_some_iff.1 hm
  obtain ⟨g, v, rfl, ha, hrun⟩ := hl d k hv hc hf hel hwl hk
  have hstep : (d.landed g v k).step (.mark m) = some ((d.landed g v k).marked m v j) := by
    cases m with
    | question =>
      cases hj
      rfl
    | colon =>
      obtain ⟨h0, hj⟩ := Option.ite_none_left_eq_some.1 hj
      cases hj
      exact if_neg h0
  obtain ⟨frames, u, rfl, -, hrun'⟩ :=
    hr ((d.landed g v k).marked m v j) n rfl (fits_nil her hpr hwr) hm
  refine ⟨⟨g.arguments, some (g.closed v, m), frames⟩, u, rfl, ha, ?_⟩
  rw [words, Draft.run_append, hrun, Option.bind_some, Draft.run_cons, hstep, Option.bind_some, hrun']
  simp [Draft.landed, Draft.marked]

lemma tight_paren {e : Phrase policy} (h : e.Loose) : (paren e).Tight := by
  intro d n hv hfit hn
  obtain ⟨he, hnet, hw⟩ := hfit.formed
  have hexp : d.group.expected = 1 := hfit.width 1 rfl
  rw [words, List.cons_append, waitAfter_openParen, waitAfter_append] at hn
  obtain ⟨k, hk, hn⟩ := Option.bind_eq_some_iff.1 hn
  cases hn
  obtain ⟨g, v, rfl, ha, hrun⟩ :=
    h { d with outer := d.group :: d.outer, group := {} } n hv rfl rfl he hw hk
  refine ⟨[], .paren (g.closed v), rfl, List.forall_mem_nil _, ?_⟩
  rw [words, List.cons_append, Draft.run_cons, Draft.step_openParen hv, Option.bind_some,
    Draft.run_append, hrun, Option.bind_some, Draft.run_cons,
    Draft.step_closeParen (l := .paren (g.closed v)) rfl rfl hnet (by simp [Draft.landed, ha, hexp])
      (by simp [Draft.landed, ha, Draft.listOf])]
  rfl

lemma tight_pair {a b : Phrase policy} (ha : a.Loose) (hb : b.Loose) : (pair a b).Tight := by
  intro d n hv hfit hn
  obtain ⟨⟨hea, hna, hwa⟩, heb, hnb, hwb⟩ := hfit.formed
  have hexp : d.group.expected = 2 := hfit.width 2 rfl
  rw [words, List.append_assoc, List.cons_append, waitAfter_openParen, waitAfter_append] at hn
  obtain ⟨k, hk, hn⟩ := Option.bind_eq_some_iff.1 hn
  rw [List.cons_append, waitAfter_separator, waitAfter_append] at hn
  obtain ⟨j, hj, hn⟩ := Option.bind_eq_some_iff.1 hn
  cases hn
  obtain ⟨g, v, rfl, hga, hrun⟩ :=
    ha { d with outer := d.group :: d.outer, group := {} } k hv rfl rfl hea hwa hk
  obtain ⟨h, u, rfl, hha, hrun'⟩ :=
    hb { d with
      outer := d.group :: d.outer, group := { arguments := [g.closed v] }, value := none, waiting := k }
      n rfl rfl rfl heb hwb hj
  refine ⟨[], .pair (g.closed v) (h.closed u), rfl, List.forall_mem_nil _, ?_⟩
  rw [words, List.append_assoc, List.cons_append, Draft.run_cons, Draft.step_openParen hv,
    Option.bind_some, Draft.run_append, hrun, Option.bind_some, List.cons_append, Draft.run_cons,
    Draft.step_separator rfl (by simp [Draft.landed]) hna, Option.bind_some, Draft.run_append]
  simp only [Draft.landed, hga, hrun', Option.bind_some]
  rw [Draft.run_cons, Draft.step_closeParen (l := .pair (g.closed v) (h.closed u)) rfl rfl hnb
    (by simp [hha, hexp]) (by simp [hha, Draft.listOf])]
  rfl

lemma tight_and_loose (e : Phrase policy) (he : e.Formed) : (0 < e.rank → e.Tight) ∧ e.Loose := by
  induction e with
  | atom a => exact ⟨fun _ => tight_atom a, (tight_atom a).loose (by decide : 0 < 7)⟩
  | apply f e ih =>
    obtain ⟨he, hr, -⟩ := he
    have ht := tight_apply ((ih he).1 (by omega)) f
    exact ⟨fun _ => ht, ht.loose (by decide : 0 < 7)⟩
  | binary f l r ihl ihr =>
    obtain ⟨hl, hr, hpl, hpr, -⟩ := he
    have hp := f.priority_pos
    have ht := tight_binary ((ihl hl).1 (by omega)) ((ihr hr).1 (by omega)) f
    exact ⟨fun _ => ht, ht.loose hp⟩
  | mark m l r ihl ihr =>
    obtain ⟨hl, hr, hpr, -⟩ := he
    exact ⟨fun h => absurd h (lt_irrefl 0), loose_mark (ihl hl).2 ((ihr hr).1 hpr) m⟩
  | paren e ih =>
    have ht := tight_paren (ih he.1).2
    exact ⟨fun _ => ht, ht.loose (by decide : 0 < 7)⟩
  | pair a b iha ihb =>
    have ht := tight_pair (iha he.1.1).2 (ihb he.2.1).2
    exact ⟨fun _ => ht, ht.loose (by decide : 0 < 7)⟩

lemma run_words {e : Phrase policy} (he : e.Whole) (hw : waitAfter 0 e.words = some 0)
    (ended : List (Option (Phrase policy))) :
    ∃ d, Draft.run { ended } e.words = some d ∧ d.ended = ended ∧ d.finish = some (some e) := by
  obtain ⟨hf, hn, hwidth⟩ := he
  obtain ⟨g, v, rfl, -, hrun⟩ := (tight_and_loose e hf).2 { ended } 0 rfl rfl rfl hf hwidth hw
  exact ⟨_, hrun, rfl, by simp [Draft.finish, Draft.landed, hn]⟩

end Phrase

end FormulaCode
