import FormulaCode.Proofs.Trees

/-! The grammar of expressions without conditionals, in which priorities play no part, and its trees:
every sequence of lexemes that it derives is spelled by a formula. -/

namespace FormulaCode

variable {policy : LiteralPolicy}

mutual

inductive Derives (policy : LiteralPolicy) : List Symbol → Prop
  | operand {u : List Symbol} (h : DerivesOperand policy u) : Derives policy u
  | binary {b u : List Symbol} (hb : Derives policy b) (f : BinaryForm) (hu : DerivesOperand policy u) :
    Derives policy (b ++ f.symbol :: u)

inductive DerivesOperand (policy : LiteralPolicy) : List Symbol → Prop
  | atom (a : Atom policy) : DerivesOperand policy [a.symbol]
  | apply {u : List Symbol} (f : UnaryForm) (h : DerivesOperand policy u) :
    DerivesOperand policy (f.symbol :: u)
  | call {a b : List Symbol} (f : PairForm) (ha : Derives policy a) (hb : Derives policy b) :
    DerivesOperand policy
      (.unary f.element :: .unary .openParen :: a ++ .separator :: b ++ [.closeParen])
  | paren {b : List Symbol} (h : Derives policy b) :
    DerivesOperand policy (.unary .openParen :: b ++ [.closeParen])

end

def DerivesSeries (policy : LiteralPolicy) (symbols : List Symbol) : Prop :=
  ∃ bs : List (List Symbol), bs ≠ [] ∧ (∀ b ∈ bs, b = [] ∨ Derives policy b) ∧
    symbols = List.intercalate [.terminator] bs

namespace Formula

lemma exists_attach {p : Nat} (e : Formula policy p) (hp : 0 < p) (f : BinaryForm)
    (u : Formula policy 7) : ∃ (q : Nat) (e' : Formula policy q),
      e'.yield = e.yield ++ f.symbol :: u.yield ∧ min f.priority p ≤ q := by
  have hu : f.priority < 7 := Nat.lt_succ_of_le f.priority_le
  have htop (e : Formula policy 7) : ∃ (q : Nat) (e' : Formula policy q),
      e'.yield = e.yield ++ f.symbol :: u.yield ∧ min f.priority 7 ≤ q :=
    ⟨f.priority, .binary f e u hu.le hu, rfl, min_le_left _ _⟩
  induction e with
  | binary g l r hl hr _ ihr =>
    by_cases hf : f.priority ≤ g.priority
    · exact ⟨f.priority, .binary f (.binary g l r hl hr) u hf hu, rfl, min_le_left _ _⟩
    · obtain ⟨q, r', hy, hq⟩ := ihr (by omega)
      refine ⟨g.priority, .binary g l r' hl (by omega), ?_, min_le_right _ _⟩
      simp [yield, hy]
  | conditional => exact absurd hp (lt_irrefl 0)
  | _ => exact htop _

end Formula

mutual

lemma exists_formula {symbols : List Symbol} : Derives policy symbols →
    ∃ (p : Nat) (e : Formula policy p), 0 < p ∧ e.yield = symbols
  | .operand h => by
    obtain ⟨e, rfl⟩ := exists_operand h
    exact ⟨7, e, by decide, rfl⟩
  | .binary hb f hu => by
    obtain ⟨p, e, hp, rfl⟩ := exists_formula hb
    obtain ⟨u, rfl⟩ := exists_operand hu
    obtain ⟨q, e', hy, hq⟩ := e.exists_attach hp f u
    have hf := f.priority_pos
    exact ⟨q, e', by omega, hy⟩

lemma exists_operand {symbols : List Symbol} : DerivesOperand policy symbols →
    ∃ e : Formula policy 7, e.yield = symbols
  | .atom a => ⟨.atom a, rfl⟩
  | .apply f h => by
    obtain ⟨e, rfl⟩ := exists_operand h
    exact ⟨.apply f e, rfl⟩
  | .call f ha hb => by
    obtain ⟨p, a, -, rfl⟩ := exists_formula ha
    obtain ⟨q, b, -, rfl⟩ := exists_formula hb
    exact ⟨.call f a b, rfl⟩
  | .paren h => by
    obtain ⟨p, e, -, rfl⟩ := exists_formula h
    exact ⟨.paren e, rfl⟩

end

lemma Derives.append {a b : List Symbol} (ha : Derives policy a) (f : BinaryForm) :
    Derives policy b → Derives policy (a ++ f.symbol :: b)
  | .operand h => .binary ha f h
  | .binary hb g hu => by simpa using (append ha f hb).binary g hu

namespace Formula

def Straight {p : Nat} : Formula policy p → Prop
  | .atom _ => True
  | .apply _ e => e.Straight
  | .call _ a b => a.Straight ∧ b.Straight
  | .paren e => e.Straight
  | .binary _ l r _ _ => l.Straight ∧ r.Straight
  | .conditional _ _ _ _ => False

variable {p : Nat}

lemma straight_of_yield (e : Formula policy p) (h : .question ∉ e.yield) : e.Straight := by
  induction e with
  | atom a => trivial
  | apply f e ih => exact ih fun hq => h (by simp [yield, hq])
  | call f a b iha ihb =>
    exact ⟨iha fun hq => h (by simp [yield, hq]), ihb fun hq => h (by simp [yield, hq])⟩
  | paren e ih => exact ih fun hq => h (by simp [yield, hq])
  | binary f l r hl hr ihl ihr =>
    exact ⟨ihl fun hq => h (by simp [yield, hq]), ihr fun hq => h (by simp [yield, hq])⟩
  | conditional c t e hc => exact h (by simp [yield])

lemma derives_yield (e : Formula policy p) (h : e.Straight) :
    Derives policy e.yield ∧ (p = 7 → DerivesOperand policy e.yield) := by
  have htop {symbols : List Symbol} (h : DerivesOperand policy symbols) (p : Nat) :
      Derives policy symbols ∧ (p = 7 → DerivesOperand policy symbols) := ⟨.operand h, fun _ => h⟩
  induction e with
  | atom a => exact htop (.atom a) 7
  | apply f e ih => exact htop (.apply f ((ih h).2 rfl)) 7
  | call f a b iha ihb => exact htop (.call f (iha h.1).1 (ihb h.2).1) 7
  | paren e ih => exact htop (.paren (ih h).1) 7
  | binary f l r hl hr ihl ihr =>
    have hf := f.priority_le
    exact ⟨(ihl h.1).1.append f (ihr h.2).1, fun hp => by omega⟩
  | conditional => exact h.elim

lemma eq_of_phrase {q : Nat} (e : Formula policy p) (e' : Formula policy q) (h : e.Straight)
    (h' : e'.Straight) (hp : e.phrase = e'.phrase) : (⟨p, e⟩ : Σ p, Formula policy p) = ⟨q, e'⟩ := by
  induction e generalizing q e' with
  | atom a =>
    cases e' with
    | atom b => cases hp; rfl
    | conditional => exact h'.elim
    | _ => cases hp
  | apply f e ih =>
    cases e' with
    | apply g e' =>
      obtain ⟨hf, he⟩ := Phrase.apply.inj hp
      cases hf
      cases ih e' h h' he
      rfl
    | conditional => exact h'.elim
    | _ => cases hp
  | call f a b iha ihb =>
    cases e' with
    | call g a' b' =>
      obtain ⟨hf, he⟩ := Phrase.apply.inj hp
      obtain ⟨ha, hb⟩ := Phrase.pair.inj he
      cases hf
      cases iha a' h.1 h'.1 ha
      cases ihb b' h.2 h'.2 hb
      rfl
    | conditional => exact h'.elim
    | _ => cases hp
  | paren e ih =>
    cases e' with
    | paren e' =>
      cases ih e' h h' (Phrase.paren.inj hp)
      rfl
    | conditional => exact h'.elim
    | _ => cases hp
  | binary f l r hl hr ihl ihr =>
    cases e' with
    | binary g l' r' hl' hr' =>
      obtain ⟨hf, hel, her⟩ := Phrase.binary.inj hp
      cases hf
      cases ihl l' h.1 h'.1 hel
      cases ihr r' h.2 h'.2 her
      rfl
    | conditional => exact h'.elim
    | _ => cases hp
  | conditional => exact h.elim

end Formula

namespace Phrase

def IsFormula (e : Phrase policy) : Prop := ∃ (p : Nat) (f : Formula policy p), f.phrase = e

def Markless (e : Phrase policy) : Prop := ∀ m, .mark m ∉ e.words

lemma IsFormula.apply {e : Phrase policy} (h : e.IsFormula) (hr : e.rank = 7) (f : UnaryForm) :
    (apply (.one f) e).IsFormula := by
  obtain ⟨p, t, rfl⟩ := h
  rw [t.rank_phrase] at hr
  subst hr
  exact ⟨7, .apply f t, rfl⟩

lemma IsFormula.binary {l r : Phrase policy} (hl : l.IsFormula) (hr : r.IsFormula) {f : BinaryForm}
    (hpl : f.priority ≤ l.rank) (hpr : f.priority < r.rank) : (binary f l r).IsFormula := by
  obtain ⟨p, l, rfl⟩ := hl
  obtain ⟨q, r, rfl⟩ := hr
  rw [l.rank_phrase] at hpl
  rw [r.rank_phrase] at hpr
  exact ⟨f.priority, .binary f l r hpl hpr, rfl⟩

/-- A function of two arguments that lacks its list takes away a value that nothing else gives back. -/
lemma isFormula_of_markless (e : Phrase policy) (he : e.Formed) (hm : e.Markless) :
    (e.width? ≠ some 2 → e.net ≤ 1 ∧ (e.net = 1 → e.IsFormula)) ∧
      ∀ a b, e = .pair a b → a.IsFormula ∧ b.IsFormula := by
  induction e with
  | atom a => exact ⟨fun _ => ⟨le_refl 1, fun _ => ⟨7, .atom a, rfl⟩⟩, by simp⟩
  | apply f e ih =>
    obtain ⟨he, hr, hw⟩ := he
    obtain ⟨hnet, hpair⟩ := ih he fun m h => hm m (List.mem_cons_of_mem _ h)
    refine ⟨fun _ => ?_, by simp⟩
    cases f with
    | one f =>
      have hw2 : e.width? ≠ some 2 := fun h => absurd (hw 2 h) (by simp [Function.arity])
      obtain ⟨hle, hform⟩ := hnet hw2
      have hn : (apply (.one f) e).net = e.net := by
        simp [net, Function.instruction, Instruction.opcode, Opcode.stackEffect]
      rw [hn]
      exact ⟨hle, fun h => (hform h).apply hr f⟩
    | two f =>
      have hn : (apply (.two f) e).net = e.net - 1 := rfl
      rw [hn]
      by_cases hw2 : e.width? = some 2
      · cases e with
        | pair a b =>
          obtain ⟨⟨p, a, rfl⟩, ⟨q, b, rfl⟩⟩ := hpair _ _ rfl
          have hab : (pair a.phrase b.phrase).net = 2 := by
            rw [net, a.net_phrase, b.net_phrase]
            rfl
          exact ⟨by omega, fun _ => ⟨7, .call f a b, rfl⟩⟩
        | _ => cases hw2
      · have hle := (hnet hw2).1
        exact ⟨by omega, fun h => by omega⟩
  | binary f l r ihl ihr =>
    obtain ⟨hl, hr, hpl, hpr, hwl, hwr⟩ := he
    obtain ⟨hnl, hfl⟩ := (ihl hl fun m h => hm m (by simp [words, h])).1 hwl
    obtain ⟨hnr, hfr⟩ := (ihr hr fun m h => hm m (by simp [words, h])).1 hwr
    have hn : (binary f l r).net = l.net + r.net - 1 := rfl
    refine ⟨fun _ => ⟨by omega, fun h => ?_⟩, by simp⟩
    exact (hfl (by omega)).binary (hfr (by omega)) hpl hpr
  | mark m l r => exact absurd (by simp [words]) (hm m)
  | paren e ih =>
    obtain ⟨he, hn, hw⟩ := he
    obtain ⟨p, f, rfl⟩ := ((ih he fun m h => hm m (by simp [words, h])).1 hw).2 hn
    exact ⟨fun _ => ⟨hn.le, fun _ => ⟨7, .paren f, rfl⟩⟩, by simp⟩
  | pair a b iha ihb =>
    obtain ⟨⟨hea, hna, hwa⟩, heb, hnb, hwb⟩ := he
    refine ⟨fun h => absurd rfl h, ?_⟩
    rintro _ _ ⟨rfl⟩
    exact ⟨((iha hea fun m h => hm m (by simp [words, h])).1 hwa).2 hna,
      ((ihb heb fun m h => hm m (by simp [words, h])).1 hwb).2 hnb⟩

end Phrase

end FormulaCode
