import FormulaCode.Proofs.Lockstep

namespace FormulaCode

variable {policy : LiteralPolicy}

structure Phrase.Fits (e : Phrase policy) (frames : List (Frame policy)) : Prop where
  formed : e.Formed
  floor : floorOf frames ≤ e.rank
  width : ∀ n, e.width? = some n → expectedOf frames = n

lemma floorOf_le (frames : List (Frame policy)) : floorOf frames ≤ 7 := by
  match frames with
  | [] => exact (by decide : 1 ≤ 7)
  | .apply _ :: _ => exact le_refl 7
  | .binary f _ :: _ => exact Nat.succ_le_succ f.priority_le

lemma Phrase.Fits.fill {x : Frame policy} {frames : List (Frame policy)} {e : Phrase policy}
    (h : e.Fits (x :: frames)) (hf : FramesFormed (x :: frames)) : (x.fill e).Fits frames := by
  cases x with
  | apply f =>
    have hr : e.rank = 7 := le_antisymm e.rank_le h.floor
    exact ⟨⟨h.formed, hr, h.width⟩, floorOf_le frames, nofun⟩
  | binary f l =>
    obtain ⟨hl, hw, hp, hb, -⟩ := hf
    have he : e.width? ≠ some 2 := fun h2 => absurd (h.width 2 h2) (by simp [expectedOf])
    exact ⟨⟨hl, h.formed, hp, h.floor, hw, he⟩, hb, nofun⟩

lemma FramesFormed.tail {x : Frame policy} {frames : List (Frame policy)}
    (h : FramesFormed (x :: frames)) : FramesFormed frames := by
  cases x with
  | apply f => exact h
  | binary f l => exact h.2.2.2.2

lemma Phrase.Fits.complete_takeWhile {p : Nat} (hp : 0 < p ∧ p ≤ 7) {frames : List (Frame policy)}
    {e : Phrase policy} (h : e.Fits frames) (hr : p ≤ e.rank) (hf : FramesFormed frames) :
    let strong := fun x : Frame policy => decide (p ≤ x.element.stackPriority)
    let l := complete (frames.takeWhile strong) e
    l.Formed ∧ p ≤ l.rank ∧ l.width? ≠ some 2 ∧ floorOf (frames.dropWhile strong) ≤ p ∧
      FramesFormed (frames.dropWhile strong) := by
  induction frames generalizing e with
  | nil =>
    have hw : e.width? ≠ some 2 := fun h2 => absurd (h.width 2 h2) (by simp [expectedOf])
    exact ⟨h.formed, hr, hw, hp.1, trivial⟩
  | cons x frames ih =>
    by_cases hx : p ≤ x.element.stackPriority
    · simp only [List.takeWhile_cons, List.dropWhile_cons, hx, decide_true, if_true, complete_cons]
      exact ih (h.fill hf) (by rwa [x.rank_fill]) hf.tail
    · simp only [List.takeWhile_cons, List.dropWhile_cons, hx, decide_false, Bool.false_eq_true,
        if_false]
      cases x with
      | apply f => exact absurd hp.2 (by simpa [Frame.element, f.priorities.1] using hx)
      | binary f l =>
        have hw : e.width? ≠ some 2 := fun h2 => absurd (h.width 2 h2) (by simp [expectedOf])
        exact ⟨h.formed, hr, hw, Nat.lt_of_not_le hx, hf⟩

lemma Phrase.Fits.complete {frames : List (Frame policy)} {e : Phrase policy} (h : e.Fits frames)
    (hr : 0 < e.rank) (hf : FramesFormed frames) : (complete frames e).Formed ∧
      0 < (FormulaCode.complete frames e).rank ∧ (FormulaCode.complete frames e).width? ≠ some 2 := by
  have hall : (frames.takeWhile fun x => decide (1 ≤ x.element.stackPriority)) = frames :=
    List.takeWhile_eq_self_iff.2 fun x _ => decide_eq_true x.stackPriority_pos
  have hc := h.complete_takeWhile (p := 1) (by decide) hr hf
  simp only [hall] at hc
  exact ⟨hc.1, hc.2.1, hc.2.2.1⟩

lemma Group.Formed.closed {g : Group policy} {e : Phrase policy} (hg : g.Formed)
    (h : e.Fits g.frames) (hr : 0 < e.rank) :
    (g.closed e).Formed ∧ (g.closed e).width? ≠ some 2 := by
  obtain ⟨hf, hp, hw⟩ := h.complete hr hg.frames
  rw [Group.closed, Group.linked]
  cases hc : g.chain with
  | none => exact ⟨hf, hw⟩
  | some c =>
    obtain ⟨hl, hlw⟩ := hg.chain c hc
    exact ⟨⟨hl, hf, hp, hlw, hw⟩, by simp [Phrase.width?]⟩

namespace Draft

variable {d d' : Draft policy} {e : Phrase policy}

section List

variable {arguments : List (Phrase policy)} {e l : Phrase policy} (h : listOf arguments e = some l)
include h

lemma main_listOf : l.main = arguments.reverse.flatMap Phrase.code ++ e.code := by
  match arguments, h with
  | [], rfl => rfl
  | [a], rfl => simp [Phrase.main, Phrase.code]

lemma net_listOf : l.net = (arguments.map Phrase.net).sum + e.net := by
  match arguments, h with
  | [], rfl => simp [Phrase.net]
  | [a], rfl => simp [Phrase.net]

lemma words_listOf : l.words = .openParen ::
    arguments.reverse.flatMap (fun a => a.words ++ [.separator]) ++ e.words ++ [.closeParen] := by
  match arguments, h with
  | [], rfl => rfl
  | [a], rfl => simp [Phrase.words]

lemma width_listOf : l.width? = some (arguments.length + 1) := by
  match arguments, h with
  | [], rfl => rfl
  | [a], rfl => rfl

lemma rank_listOf : l.rank = 7 := by
  match arguments, h with
  | [], rfl => rfl
  | [a], rfl => rfl

lemma formed_listOf (ha : ∀ a ∈ arguments, a.Whole) (he : e.Whole) : l.Formed := by
  match arguments, h with
  | [], rfl => exact he
  | [a], rfl => exact ⟨ha a List.mem_cons_self, he⟩

end List

lemma rank_value (hd : d.Formed) (hv : d.value = some e) : 0 < e.rank := by
  rw [(hd.value e hv).2.1]
  decide

lemma arguments_of_outer_nil (hd : d.Formed) (ho : d.outer = []) : d.group.arguments = [] :=
  hd.bottom d.group (by simp [ho])

lemma finish_eq_some {x : Option (Phrase policy)} {d : Draft policy} (h : d.finish = some x) :
    (x = none ∧ d.isFresh = true) ∨ ∃ e, x = some (d.group.closed e) ∧ d.outer = [] ∧
      d.value = some e ∧ d.waiting = 0 ∧ (d.group.closed e).net = 1 := by
  rw [finish] at h
  split at h
  · rename_i e ho hv
    obtain ⟨hc, hx⟩ := Option.ite_none_right_eq_some.1 h
    exact .inr ⟨e, (Option.some.inj hx).symm, ho, hv, hc⟩
  · obtain ⟨hf, hx⟩ := Option.ite_none_right_eq_some.1 h
    exact .inl ⟨(Option.some.inj hx).symm, hf⟩
  · cases h

lemma eq_of_isFresh {d : Draft policy} (h : d.isFresh = true) :
    d.outer = [] ∧ d.group = {} ∧ d.value = none := by
  obtain ⟨ended, outer, ⟨arguments, chain, frames⟩, value, waiting⟩ := d
  simpa [isFresh, Group.isEmpty, and_assoc] using h

lemma Formed.fits (hd : d.Formed) (hv : d.value = some e) : e.Fits d.group.frames := by
  obtain ⟨hf, hr, hw⟩ := hd.value e hv
  exact ⟨hf, by rw [hr]; exact floorOf_le _, hw⟩

lemma Formed.closed (hd : d.Formed) (hv : d.value = some e) :
    (d.group.closed e).Formed ∧ (d.group.closed e).width? ≠ some 2 :=
  (hd.groups d.group List.mem_cons_self).closed (hd.fits hv) (rank_value hd hv)

lemma Formed.withGroup (hd : d.Formed) {g : Group policy} (hg : g.Formed)
    (ha : d.outer = [] → g.arguments = []) (hf : g.isEmpty = false) (n : Nat) :
    Formed { d with group := g, value := none, waiting := n } where
  ended := hd.ended
  groups := List.forall_mem_cons.2 ⟨hg, fun h hh => hd.groups h (List.mem_cons_of_mem _ hh)⟩
  bottom := by
    cases ho : d.outer with
    | nil => simpa [ho] using ha
    | cons h outer => simpa [ho] using hd.bottom
  value := nofun
  fresh := by simp [isFresh, hf]

lemma Formed.hold (hd : d.Formed) (hv : d.value = none) (f : Function) : (d.hold f).Formed := by
  have hg := hd.groups d.group List.mem_cons_self
  have hh := hd.withGroup (g := { d.group with frames := .apply f :: d.group.frames })
    ⟨hg.arguments, hg.chain, hg.frames⟩ (arguments_of_outer_nil hd) (by simp [Group.isEmpty]) d.waiting
  rwa [← hv] at hh

lemma Formed.push (hd : d.Formed) (hv : d.value = some e) (f : BinaryForm) : (d.push f e).Formed := by
  have hg := hd.groups d.group List.mem_cons_self
  have hp : 0 < f.priority ∧ f.priority ≤ 7 := ⟨f.priority_pos, f.priority_le.trans (by decide)⟩
  obtain ⟨hl, hr, hw, hb, hf⟩ := (hd.fits hv).complete_takeWhile hp
    (by rw [(hd.value e hv).2.1]; exact hp.2) hg.frames
  exact hd.withGroup (g := (d.push f e).group) ⟨hg.arguments, hg.chain, hl, hw, hr, hb, hf⟩
    (arguments_of_outer_nil hd) (by simp [Draft.push, Group.isEmpty]) d.waiting

lemma Formed.marked (hd : d.Formed) (hv : d.value = some e) (m : Mark) (n : Nat) :
    (d.marked m e n).Formed := by
  have hg := hd.groups d.group List.mem_cons_self
  refine hd.withGroup (g := (d.marked m e n).group) ⟨hg.arguments, ?_, trivial⟩
    (arguments_of_outer_nil hd) (by simp [Draft.marked, Group.isEmpty]) n
  rintro _ ⟨rfl⟩
  exact hd.closed hv

lemma Formed.openParen (hd : d.Formed) (hv : d.value = none) :
    Formed { d with outer := d.group :: d.outer, group := {} } where
  ended := hd.ended
  groups := List.forall_mem_cons.2 ⟨⟨nofun, nofun, trivial⟩, hd.groups⟩
  bottom := by simpa using hd.bottom
  value := by simp [hv]
  fresh := by simp [isFresh]

lemma Formed.closeParen {l : Phrase policy} {g : Group policy} {outer : List (Group policy)}
    (hd : d.Formed) (hv : d.value = some e) (ho : d.outer = g :: outer)
    (hn : (d.group.closed e).net = 1) (ha : d.group.arguments.length + 1 = g.expected)
    (hl : listOf d.group.arguments (d.group.closed e) = some l) :
    Formed { d with outer, group := g, value := some l } where
  ended := hd.ended
  groups := fun h hh => hd.groups h (by rw [ho]; exact List.mem_cons_of_mem _ hh)
  bottom := by simpa [ho] using hd.bottom
  value := by
    rintro _ ⟨rfl⟩
    have hg := hd.groups d.group List.mem_cons_self
    have hc := hd.closed hv
    refine ⟨formed_listOf hl hg.arguments ⟨hc.1, hn, hc.2⟩, rank_listOf hl, fun n hw => ?_⟩
    rw [width_listOf hl] at hw
    exact ha.symm.trans (Option.some.inj hw)
  fresh := by simp [isFresh]

lemma Formed.terminator {x : Option (Phrase policy)} (hd : d.Formed) (h : d.finish = some x) :
    Formed { ended := x :: d.ended } where
  ended := by
    intro e he
    rcases List.mem_cons.1 he with rfl | he
    · rcases finish_eq_some h with ⟨hx, -⟩ | ⟨v, hx, ho, hv, hw, hn⟩
      · cases hx
      · rw [Option.some.inj hx]
        exact ⟨(hd.closed hv).1, hn, (hd.closed hv).2⟩
    · exact hd.ended e he
  groups := by
    rintro g hg
    cases List.mem_singleton.1 hg
    exact ⟨nofun, nofun, trivial⟩
  bottom := by
    rintro g ⟨rfl⟩
    rfl
  value := nofun
  fresh := fun _ => rfl

lemma formed_of_reads {w : Word policy} (hd : d.Formed) (h : d.Reads w d') : d'.Formed := by
  cases h with
  | atom hv a =>
    refine ⟨hd.ended, hd.groups, hd.bottom, ?_, by simp [isFresh]⟩
    rintro _ ⟨rfl⟩
    exact ⟨trivial, rfl, by simp [Phrase.width?]⟩
  | function hv f => exact hd.hold hv f
  | sign hv => exact hd.hold hv _
  | operator hv f => exact hd.push hv f
  | subtraction hv => exact hd.push hv _
  | openParen hv => exact hd.openParen hv
  | @separator e hv ho hn =>
    have hc := hd.closed hv
    have hg := hd.groups d.group List.mem_cons_self
    exact hd.withGroup (g := { arguments := d.group.closed e :: d.group.arguments })
      ⟨List.forall_mem_cons.2 ⟨⟨hc.1, hn, hc.2⟩, hg.arguments⟩, by simp, trivial⟩
      (fun h => absurd h ho) (by simp [Group.isEmpty]) d.waiting
  | closeParen hv ho hn ha hl => exact hd.closeParen hv ho hn ha hl
  | question hv => exact hd.marked hv _ _
  | colon hv hw => exact hd.marked hv _ _
  | terminator hf => exact hd.terminator hf

end Draft

end FormulaCode
