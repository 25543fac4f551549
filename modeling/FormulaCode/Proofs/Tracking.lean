import FormulaCode.Proofs.Course
import FormulaCode.Proofs.Wording

/-! The state of the compiler against the lexemes of the current expression: its flags, its operator stack
and its counters tell the last lexeme and the numbers of parentheses and conditionals. -/

namespace FormulaCode

namespace Symbol

variable {x : Symbol} {e : Element} {policy : LiteralPolicy}

/-- The lexemes of the current expression are those behind the last `;`. -/
def current (xs : List Symbol) : List Symbol := xs.rtakeWhile (· != .terminator)

lemma current_concat (xs : List Symbol) (h : x ≠ .terminator) :
    current (xs ++ [x]) = current xs ++ [x] :=
  List.rtakeWhile_concat_pos _ _ _ (bne_iff_ne.2 h)

lemma current_terminator (xs : List Symbol) : current (xs ++ [.terminator]) = [] :=
  List.rtakeWhile_concat_neg _ _ _ (by decide)

def nesting (xs : List Symbol) : Int := xs.count (.unary .openParen) - xs.count .closeParen

lemma nesting_append (xs ys : List Symbol) : nesting (xs ++ ys) = nesting xs + nesting ys := by
  rw [nesting, nesting, nesting, List.count_append, List.count_append]
  omega

def endsOperand : Symbol → Bool
  | .operand _ | .numeral _ | .closeParen => true
  | _ => false

def waits : Symbol → Bool
  | .unary _ | .binary _ | .minus | .colon => true
  | _ => false

def Regular : Symbol → Prop
  | .unary e => 0 < e.arrivalPriority ∧ (e.isOpenParen = true → e = .openParen)
  | .binary e => 0 < e.arrivalPriority ∧ e.isOpenParen = false
  | _ => True

lemma Regular.joins (hx : x.Regular) (h : x.Joins e) :
    0 < e.arrivalPriority ∧ e.isOpenParen = false := by
  rcases h with rfl | ⟨-, rfl⟩
  · exact hx
  · decide

lemma Regular.precedes (hx : x.Regular) (h : x.Precedes e) :
    0 < e.arrivalPriority ∧ (e.isOpenParen = true → e = .openParen) := by
  rcases h with rfl | ⟨-, rfl⟩
  · exact hx
  · decide

lemma Spoken.regular (h : x.Spoken policy) : x.Regular := by
  rcases h with ⟨w, -, rfl⟩ | ⟨n, rfl, -⟩
  · cases w with
    | atom a => cases a <;> trivial
    | function f =>
      refine ⟨by rw [f.priorities.2]; decide, fun ho => ?_⟩
      rw [f.isOpenParen_eq] at ho
      cases ho
    | operator f => exact ⟨by rw [f.arrivalPriority_eq]; exact f.priority_pos, f.isOpenParen_eq⟩
    | openParen => exact ⟨by decide, fun _ => rfl⟩
    | mark m => cases m <;> trivial
    | _ => trivial
  · trivial

end Symbol

lemma Lexeme.regular_of_mem {expression : String} {x : Lexeme} (h : x ∈ (ofExpression expression).1) :
    x.symbol.Regular :=
  ((occurs_of_mem_ofExpression h).spoken .strict).regular

namespace State

variable {o : Options} {s t : State} {x : Symbol} {xs : List Symbol} {k : ErrorKind} {es : List Emission}

def opened (s : State) : Nat := s.pending.countP Element.isOpenParen

structure Tracks (s : State) (xs : List Symbol) : Prop where
  operand : s.operandNeeded = !xs.getLast?.any Symbol.endsOperand
  fresh : s.fresh = xs.isEmpty
  nesting : Symbol.nesting xs = s.opened
  lists : s.lists.length = s.opened
  conditionals : s.openConditionals + xs.count .colon = xs.count .question
  waiting : s.pending.length ≤ xs.countP Symbol.waits
  weak : ∀ e ∈ s.pending, e.isOpenParen = true → e = .openParen

lemma opened_unloaded {c : Element → Bool} (h : ∀ e ∈ s.pending, e.isOpenParen = true → c e = false) :
    (s.pending.dropWhile c).countP Element.isOpenParen = s.opened := by
  have ht : (s.pending.takeWhile c).countP Element.isOpenParen = 0 := by
    refine List.countP_eq_zero.2 fun e he ho => ?_
    have hc := List.mem_takeWhile_imp he
    rw [h e (List.takeWhile_subset _ he) ho] at hc
    cases hc
  rw [opened, ← List.takeWhile_append_dropWhile (p := c) (l := s.pending), List.countP_append, ht,
    Nat.zero_add, List.takeWhile_append_dropWhile]

lemma opened_eq_zero_iff : s.opened = 0 ↔ s.pending.dropWhile Element.isOperator = [] := by
  rw [opened, List.countP_eq_zero, List.dropWhile_eq_nil_iff]
  simp

lemma start_tracks : Tracks {} [] := ⟨rfl, rfl, rfl, rfl, rfl, le_rfl, List.forall_mem_nil _⟩

namespace Tracks

variable {e : Element}

lemma extend (hs : s.Tracks xs) (ho : t.operandNeeded = !x.endsOperand) (hf : t.fresh = false) {n : Nat}
    (hp : t.pending.countP Element.isOpenParen = n) (hn : s.opened + Symbol.nesting [x] = n)
    (hl : t.lists.length = n)
    (hc : t.openConditionals + [x].count .colon = s.openConditionals + [x].count .question)
    (hw : t.pending.length ≤ s.pending.length + [x].countP Symbol.waits)
    (hweak : ∀ e ∈ t.pending, e.isOpenParen = true → e = .openParen) : t.Tracks (xs ++ [x]) where
  operand := by rw [List.getLast?_concat, ho, Option.any_some]
  fresh := by rw [hf, List.isEmpty_eq_false_iff.2 (by simp)]
  nesting := by rw [Symbol.nesting_append, hs.nesting, hn, opened, hp]
  lists := by rw [hl, opened, hp]
  conditionals := by
    have hc' := hs.conditionals
    rw [List.count_append, List.count_append]
    omega
  waiting := by
    rw [List.countP_append]
    exact hw.trans (Nat.add_le_add_right hs.waiting _)
  weak := hweak

lemma yields_open (hs : s.Tracks xs) (ha : 0 < e.arrivalPriority) :
    (s.pending.dropWhile e.yields).countP Element.isOpenParen = s.opened := by
  refine opened_unloaded fun top ht ho => ?_
  rw [hs.weak top ht ho]
  exact decide_eq_false (Nat.not_le.2 ha)

lemma binds_open (hs : s.Tracks xs) :
    (s.pending.dropWhile Element.binds).countP Element.isOpenParen = s.opened := by
  refine opened_unloaded fun top ht ho => ?_
  rw [hs.weak top ht ho]
  rfl

lemma weak_unloaded (hs : s.Tracks xs) (c : Element → Bool) :
    ∀ e ∈ s.pending.dropWhile c, e.isOpenParen = true → e = .openParen :=
  fun e he => hs.weak e (List.dropWhile_subset _ he)

lemma not_fresh (hs : s.Tracks xs) (hn : s.operandNeeded = false) : s.fresh = false := by
  have ho := hs.operand
  rw [hn] at ho
  cases xs with
  | nil => cases ho
  | cons x xs => rw [hs.fresh, List.isEmpty_cons]

lemma takes_joins (hs : s.Tracks xs) (hx : x.Regular) (hn : s.operandNeeded = false) (hj : x.Joins e) :
    Tracks { s.unloaded e.yields with
      pending := e :: s.pending.dropWhile e.yields
      operandNeeded := true } (xs ++ [x]) := by
  obtain ⟨ha, ho⟩ := hx.joins hj
  have hopen : (e :: s.pending.dropWhile e.yields).countP Element.isOpenParen = s.opened := by
    rw [List.countP_cons_of_neg (by simp [ho]), hs.yields_open ha]
  have hlength := Nat.succ_le_succ (List.length_dropWhile_le e.yields s.pending)
  have hweak : ∀ top ∈ e :: s.pending.dropWhile e.yields, top.isOpenParen = true → top = .openParen :=
    List.forall_mem_cons.2 ⟨by simp [ho], hs.weak_unloaded _⟩
  rcases hj with rfl | ⟨rfl, rfl⟩
  · exact hs.extend rfl (hs.not_fresh hn) hopen (add_zero _) hs.lists rfl hlength hweak
  · exact hs.extend rfl (hs.not_fresh hn) hopen (add_zero _) hs.lists rfl hlength hweak

lemma takes_precedes (hs : s.Tracks xs) (hx : x.Regular) (hp : x.Precedes e) :
    Tracks { s.unloaded e.yields with
      pending := e :: s.pending.dropWhile e.yields
      lists := if e.isOpenParen then ⟨(s.unloaded e.yields).depth, 0⟩ :: s.lists else s.lists
      operandNeeded := true
      fresh := false } (xs ++ [x]) := by
  obtain ⟨ha, ho⟩ := hx.precedes hp
  have hlength := Nat.succ_le_succ (List.length_dropWhile_le e.yields s.pending)
  have hweak : ∀ top ∈ e :: s.pending.dropWhile e.yields, top.isOpenParen = true → top = .openParen :=
    List.forall_mem_cons.2 ⟨ho, hs.weak_unloaded _⟩
  have hopen := hs.yields_open ha
  rcases hp with rfl | ⟨rfl, rfl⟩
  · cases hpar : e.isOpenParen with
    | true =>
      cases ho hpar
      refine hs.extend (n := s.opened + 1) rfl rfl ?_ rfl ?_ rfl hlength hweak
      · rw [List.countP_cons_of_pos hpar, hopen]
      · exact congrArg Nat.succ hs.lists
    | false =>
      have hne : Symbol.nesting [.unary e] = 0 := by
        have h : e ≠ .openParen := by
          rintro rfl
          cases hpar
        simp [Symbol.nesting, h]
      refine hs.extend (n := s.opened) rfl rfl ?_ (by rw [hne, add_zero]) hs.lists rfl hlength hweak
      rw [List.countP_cons_of_neg (by simp [hpar]), hopen]
  · refine hs.extend (n := s.opened) rfl rfl ?_ (add_zero _) hs.lists rfl hlength hweak
    rw [List.countP_cons_of_neg (by decide), hopen]

end Tracks

lemma Takes.tracks (h : s.Takes o x es (.ok t)) (hs : s.Tracks xs) (hx : x.Regular)
    (hne : x ≠ .terminator) : t.Tracks (xs ++ [x]) := by
  cases h with
  | operand => exact hs.extend rfl rfl rfl (add_zero _) hs.lists rfl le_rfl hs.weak
  | numeral => exact hs.extend rfl rfl rfl (add_zero _) hs.lists rfl le_rfl hs.weak
  | binary hn hj => exact hs.takes_joins hx hn hj
  | unary hn hp => exact hs.takes_precedes hx hp
  | separator hn hp hl =>
    have hlists := hs.lists
    rw [hl] at hlists
    exact hs.extend rfl (hs.not_fresh hn) (opened_unloaded (by simp)) (add_zero _) hlists rfl
      (List.length_dropWhile_le ..) (hs.weak_unloaded _)
  | @closeParen list lists p pending hn hp hl =>
    have hpar : p.isOpenParen = true := by
      have h := List.head?_dropWhile_not Element.isOperator s.pending
      simpa [hp] using h
    have hopen : pending.countP Element.isOpenParen + 1 = s.opened := by
      rw [← List.countP_cons_of_pos hpar, ← hp]
      exact opened_unloaded (by simp)
    have hlists : lists.length + 1 = s.opened := by
      rw [← hs.lists, hl, List.length_cons]
    have hsuffix : pending <:+ s.pending :=
      (List.suffix_cons p pending).trans (hp ▸ List.dropWhile_suffix _)
    have hnesting : s.opened + Symbol.nesting [.closeParen] = pending.countP Element.isOpenParen := by
      have hone : Symbol.nesting [.closeParen] = -1 := rfl
      rw [hone, ← hopen]
      omega
    exact hs.extend rfl (hs.not_fresh hn) rfl hnesting (Nat.succ.inj (hlists.trans hopen.symm)) rfl
      hsuffix.length_le fun e he => hs.weak e (hsuffix.subset he)
  | question hn =>
    exact hs.extend rfl (hs.not_fresh hn) hs.binds_open (add_zero _) hs.lists rfl
      (List.length_dropWhile_le ..) (hs.weak_unloaded _)
  | colon hn hc =>
    refine hs.extend (n := s.opened) rfl (hs.not_fresh hn) ?_ (add_zero _) hs.lists
      (Nat.sub_add_cancel (Nat.pos_of_ne_zero hc)) (Nat.succ_le_succ (List.length_dropWhile_le ..)) ?_
    · rw [List.countP_cons_of_neg (by decide), hs.binds_open]
    · exact List.forall_mem_cons.2 ⟨by decide, hs.weak_unloaded _⟩
  | terminator => exact absurd rfl hne

lemma Takes.tracks_current (h : s.Takes o x es (.ok t)) (hs : s.Tracks (Symbol.current xs))
    (hx : x.Regular) : t.Tracks (Symbol.current (xs ++ [x])) := by
  by_cases hne : x = .terminator
  · subst hne
    rw [Symbol.current_terminator]
    cases h with
    | binary _ hj => rcases hj with hj | ⟨hj, -⟩ <;> cases hj
    | unary _ hp => rcases hp with hp | ⟨hp, -⟩ <;> cases hp
    | terminator => exact start_tracks
  · rw [Symbol.current_concat xs hne]
    exact h.tracks hs hx hne

lemma Reaches.tracks (h : Reaches o {} xs t es) (hx : ∀ x ∈ xs, x.Regular) :
    t.Tracks (Symbol.current xs) := by
  have hstart : Tracks {} (Symbol.current []) := start_tracks
  exact h.keeps (P := fun xs s _ => s.Tracks (Symbol.current xs))
    (fun hs hx ht => ht.tracks_current hs hx) hx hstart

end State

end FormulaCode
