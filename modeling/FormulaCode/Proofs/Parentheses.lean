import FormulaCode.Proofs.Nesting
import FormulaCode.Proofs.Sequence
import FormulaCode.Proofs.Spelling

namespace FormulaCode

namespace State

open Step

variable {o o' : Options} {x : Symbol} {xs ys zs : List Symbol} {t u v : State} {e : Element}
  {code code' code'' : List Emission}

def awaiting (e : Element) (d : Int) : State where
  pending := [e]
  depth := d
  fresh := false

def asking : State where
  fresh := false
  openConditionals := 1

lemma complete_awaiting (hw : e.Waits) (ho : e.isOpenParen = false) {d : Int} {k : Nat}
    (hd : d + k + stackEffect e.code = 1) : ((awaiting e d).supplied k).Complete where
  operand := .inl rfl
  pending := by simp [supplied, awaiting, ho]
  conditionals := rfl
  depth := by
    simp only [unloaded, supplied, awaiting, List.takeWhile_cons, ho, List.takeWhile_nil, Bool.not_false,
      if_true, opsOf, List.map_cons, List.map_nil]
    rw [← hd]
    exact depthAfter_op hw _

lemma gives_precedes (hp : x.Precedes e) (ho : e.isOpenParen = false) (hl : 0 < o.maxStackDepth) :
    (step o {} x).Gives (awaiting e 0) [] := by
  refine (gives_step_precedes (s := {}) rfl hp hl).congr ?_ rfl
  rw [ho]
  rfl

lemma gives_joins (hj : x.Joins e) (hl : 0 < o.maxStackDepth) :
    ((supplied {} 1).step o x).Gives (awaiting e 1) [] :=
  (gives_step_joins (s := supplied {} 1) rfl hj hl).congr rfl rfl

lemma gives_asking : ((supplied {} 1).step o .question).Gives asking [.op Opcode.branchIf.byte] :=
  (gives_step_question rfl).congr rfl rfl

lemma gives_colon (hl : 0 < o.maxStackDepth) :
    ((asking.supplied 1).step o .colon).Gives (awaiting .branchEnd 0) [.op Opcode.branchElse.byte] :=
  (gives_step_colon (s := asking.supplied 1) rfl (by decide) hl).congr rfl rfl

lemma Reaches.closed {r : State} (h : Reaches o r (.unary .openParen :: (xs ++ [.closeParen])) t code)
    (h' : Reaches o t ys u code') :
    Reaches o r (.unary .openParen :: (xs ++ .closeParen :: ys)) u (code ++ code') := by
  rw [List.append_cons]
  exact h.append h'

section Around

variable (hp : o'.literalPolicy = o.literalPolicy) (hd : o.maxStackDepth + 2 ≤ o'.maxStackDepth)

include hp hd

lemma Argument.paren_start (h : Argument o xs t code) :
    Reaches o' {} (.unary .openParen :: (xs ++ [.closeParen])) (supplied {} 1) code :=
  h.paren rfl (List.forall_mem_nil _) hp (by simp; omega) rfl

lemma Argument.paren_awaiting (h : Argument o xs t code) (he : e.stackPriority < 8)
    (ha : e.argumentCount = 1) (d : Int) :
    Reaches o' (awaiting e d) (.unary .openParen :: (xs ++ [.closeParen])) ((awaiting e d).supplied 1)
      code :=
  h.paren rfl (List.forall_mem_singleton.2 he) hp (by simp [awaiting]; omega) ha

lemma Argument.pair_awaiting (h : Argument o xs t code) (h' : Argument o ys u code')
    (he : e.stackPriority < 8) (ha : e.argumentCount = 2) (d : Int) :
    Reaches o' (awaiting e d) (.unary .openParen :: (xs ++ .separator :: (ys ++ [.closeParen])))
      ((awaiting e d).supplied 2) (code ++ code') :=
  h.pair rfl (List.forall_mem_singleton.2 he) hp (by simp [awaiting]; omega) h' ha

lemma Argument.conditional (h : Argument o xs t code) (h' : Argument o ys u code')
    (h'' : Argument o zs v code'') :
    Reaches o' {} (.unary .openParen :: (xs ++ .closeParen :: .question ::
        .unary .openParen :: (ys ++ .closeParen :: .colon :: .unary .openParen :: (zs ++ [.closeParen]))))
      ((awaiting .branchEnd 0).supplied 1)
      (code ++ ([.op Opcode.branchIf.byte] ++ (code' ++ ([.op Opcode.branchElse.byte] ++ code'')))) := by
  have hthen : Reaches o' asking (.unary .openParen :: (ys ++ [.closeParen])) (asking.supplied 1) code' :=
    h'.paren rfl (List.forall_mem_nil _) hp (by simp [asking]; omega) rfl
  have helse := h''.paren_awaiting hp hd (e := .branchEnd) (by decide) (by decide) 0
  have hbranches := hthen.closed (.cons (gives_colon (by omega)) helse)
  exact (h.paren_start hp hd).closed (.cons gives_asking hbranches)

end Around

end State

/-- The text compiles to a program of the code and the end mark. -/
def CompilesTo (o : Options) (expression : String) (code : List UInt8) : Prop :=
  ∃ p, compile o expression = .program p ∧ p.bytes = code ++ [Opcode.stop.byte]

/-- The text is one expression, not empty and without `;`, that compiles to the code. -/
structure Single (o : Options) (expression : String) (code : List UInt8) : Prop where
  nonempty : (Lexeme.ofExpression expression).1 ≠ []
  single : ∀ x ∈ (Lexeme.ofExpression expression).1, x.symbol ≠ .terminator
  compiles : CompilesTo o expression code

/-- Texts around single expressions in parentheses, and the code they stand for. -/
inductive Parenthesized (o : Options) : String → List UInt8 → Prop
  | paren {e : String} {c : List UInt8} (h : Single o e c) : Parenthesized o ("(" ++ e ++ ")") c
  | apply (f : UnaryForm) {e : String} {c : List UInt8} (h : Single o e c) :
    Parenthesized o (f.element.pattern ++ "(" ++ e ++ ")") (c ++ [f.op.byte])
  | pair (f : PairForm) {e₁ e₂ : String} {c₁ c₂ : List UInt8} (h₁ : Single o e₁ c₁) (h₂ : Single o e₂ c₂) :
    Parenthesized o (f.element.pattern ++ "(" ++ e₁ ++ "," ++ e₂ ++ ")") (c₁ ++ c₂ ++ [f.op.byte])
  | binary (f : BinaryForm) {e₁ e₂ : String} {c₁ c₂ : List UInt8} (h₁ : Single o e₁ c₁)
    (h₂ : Single o e₂ c₂) :
    Parenthesized o ("(" ++ e₁ ++ ")" ++ f.element.pattern ++ "(" ++ e₂ ++ ")") (c₁ ++ c₂ ++ [f.op.byte])
  | conditional {e₁ e₂ e₃ : String} {c₁ c₂ c₃ : List UInt8} (h₁ : Single o e₁ c₁) (h₂ : Single o e₂ c₂)
    (h₃ : Single o e₃ c₃) :
    Parenthesized o ("(" ++ e₁ ++ ")?(" ++ e₂ ++ "):(" ++ e₃ ++ ")")
      (c₁ ++ [Opcode.branchIf.byte] ++ c₂ ++ [Opcode.branchElse.byte] ++ c₃ ++ [Opcode.branchEnd.byte])

section Compiling

variable {o o' : Options} {expression : String} {code : List UInt8} {xs : List Symbol} {t : State}
  {es : List Emission}

lemma Symbol.current_eq_self (h : ∀ x ∈ xs, x ≠ .terminator) : current xs = xs :=
  List.rtakeWhile_eq_self_iff.2 fun x hx => bne_iff_ne.2 (h x hx)

lemma State.Tracks.argument (hs : t.Tracks xs) (hne : xs ≠ []) (hx : ∀ x ∈ xs, Inner x)
    (hr : Reaches o {} xs t es) (hc : t.Complete) :
    Argument o xs t (es ++ opsOf (t.pending.takeWhile Element.isOperator)) where
  inner := hx
  complete := hc
  fresh := by rw [hs.fresh, List.isEmpty_eq_false_iff.2 hne]
  operand := by
    refine hc.operand.resolve_right fun hf => ?_
    rw [hs.fresh, List.isEmpty_iff] at hf
    exact hne hf
  lists := by rw [← List.length_eq_zero_iff, hs.lists, opened_eq_zero_iff, hc.pending]
  reaches := ⟨es, hr, rfl⟩

lemma Compilation.Ends.exists_reaches {lexemes : List Lexeme × Lexeme.Stop}
    (h : Ends o lexemes (.ok ()) es) : ∃ p t fs, lexemes.2 = .finish p ∧
      State.Reaches o {} (lexemes.1.map Lexeme.symbol) t fs ∧ t.Complete ∧
        es = fs ++ State.opsOf (t.pending.takeWhile Element.isOperator) := by
  cases h with
  | finished hr hf =>
    have hc := State.complete_of_finish hf.1
    exact ⟨_, _, _, rfl, hr, hc, by rw [← hf.2, (State.gives_finish hc).2]⟩

lemma Single.exists_argument (h : Single o expression code) : ∃ xs t es,
    Lexeme.Reads (Text.upper expression.toList) xs ∧ State.Argument o xs t es ∧ codeBytes es = code := by
  obtain ⟨p, hp, hbytes⟩ := h.compiles
  obtain ⟨-, hr, -⟩ := compile_eq_program_iff.1 hp
  have hends := Compilation.ends_ofExpression o expression
  rw [hr] at hends
  obtain ⟨q, t, fs, hq, hreach, hc, hes⟩ := hends.exists_reaches
  refine ⟨_, t, _, Lexeme.reads_upper hq, ?_, codeBytes_of_compile hp hbytes⟩
  have hinner : ∀ x ∈ (Lexeme.ofExpression expression).1.map Lexeme.symbol, State.Inner x :=
    List.forall_mem_map.2 fun x hx =>
      ⟨Compilation.known_lexemes expression x hx, Lexeme.regular_of_mem hx, h.single x hx⟩
  have htracks := hreach.tracks fun x hx => (hinner x hx).regular
  rw [Symbol.current_eq_self fun x hx => (hinner x hx).ne_terminator] at htracks
  rw [hes]
  exact htracks.argument (by simpa using h.nonempty) hinner hreach hc

lemma compilesTo_of_reaches (hb : Text.byteLength expression.toList < 2 ^ 31)
    (hx : Lexeme.Reads (Text.upper expression.toList) xs) (hr : State.Reaches o {} xs t es)
    (hc : t.Complete) :
    CompilesTo o expression
      (codeBytes es ++ codeBytes (State.opsOf (t.pending.takeWhile Element.isOperator))) := by
  obtain ⟨hs, q, hq⟩ := hx 0
  have hl : Lexeme.ofExpression expression = ((Lexeme.ofExpression expression).1, .finish q) :=
    Prod.ext rfl hq
  obtain ⟨hresult, hemissions⟩ := Compilation.result_of_reaches hl (hs ▸ hr) (State.gives_finish hc)
  obtain ⟨p, hp, he⟩ := Compilation.exists_program o expression
  refine ⟨p, compile_eq_program_iff.2 ⟨Compilation.breaches_eq_nil o hb, hresult, hp⟩, ?_⟩
  rw [p.bytes_eq_codeBytes, ← he, hemissions, codeBytes_append]

lemma compilesTo_of_awaiting {e : Element} {d : Int} {k : Nat}
    (hb : Text.byteLength expression.toList < 2 ^ 31)
    (hx : Lexeme.Reads (Text.upper expression.toList) xs)
    (hr : State.Reaches o {} xs ((State.awaiting e d).supplied k) es) (hw : e.Waits)
    (ho : e.isOpenParen = false) (hd : d + k + stackEffect e.code = 1) :
    CompilesTo o expression (codeBytes es ++ [e.code]) := by
  have hc := compilesTo_of_reaches hb hx hr (State.complete_awaiting hw ho hd)
  have htop : [e].takeWhile Element.isOperator = [e] := by simp [ho]
  rwa [State.supplied, State.awaiting, htop] at hc

end Compiling

section Forms

lemma UnaryForm.symbol_precedes (f : UnaryForm) : f.symbol.Precedes f.element := by
  rw [symbol]
  split
  · exact .inr ⟨rfl, ‹_›⟩
  · exact .inl rfl

lemma BinaryForm.symbol_joins (f : BinaryForm) : f.symbol.Joins f.element := by
  rw [symbol]
  split
  · exact .inr ⟨rfl, ‹_›⟩
  · exact .inl rfl

end Forms

lemma codeBytes_op (b : UInt8) : codeBytes [.op b] = [b] := rfl

namespace Single

open Lexeme

variable {o o' : Options} {e₁ e₂ e₃ : String} {c₁ c₂ c₃ : List UInt8}
  (hp : o'.literalPolicy = o.literalPolicy) (hd : o.maxStackDepth + 2 ≤ o'.maxStackDepth)

include hp hd

lemma paren (h : Single o e₁ c₁) (hb : Text.byteLength ("(" ++ e₁ ++ ")").toList < 2 ^ 31) :
    CompilesTo o' ("(" ++ e₁ ++ ")") c₁ := by
  obtain ⟨xs, t, es, hx, ha, rfl⟩ := h.exists_argument
  have hupper : Text.upper ("(" ++ e₁ ++ ")").toList = '(' :: (Text.upper e₁.toList ++ [')']) := by
    simp [Text.upper]
  have hreads := reads_paren hx reads_nil
  rw [← hupper] at hreads
  have hc := compilesTo_of_reaches hb hreads (ha.paren_start hp hd) ⟨.inl rfl, rfl, rfl, rfl⟩
  exact List.append_nil (codeBytes es) ▸ hc

lemma apply (f : UnaryForm) (h : Single o e₁ c₁)
    (hb : Text.byteLength (f.element.pattern ++ "(" ++ e₁ ++ ")").toList < 2 ^ 31) :
    CompilesTo o' (f.element.pattern ++ "(" ++ e₁ ++ ")") (c₁ ++ [f.op.byte]) := by
  obtain ⟨xs, t, es, hx, ha, rfl⟩ := h.exists_argument
  have hupper : Text.upper (f.element.pattern ++ "(" ++ e₁ ++ ")").toList =
      f.element.pattern.toList ++ '(' :: (Text.upper e₁.toList ++ [')']) := by
    rw [← f.upper_pattern]
    simp [Text.upper]
  have hreads := f.reads.append isBoundary_openParen (reads_paren hx reads_nil)
  rw [← hupper] at hreads
  have hstart := State.gives_precedes (o := o') f.symbol_precedes f.isOpenParen_eq (by omega)
  have hreach := State.Reaches.silent hstart
    (ha.paren_awaiting hp hd (by rw [f.priorities.1]; decide) f.argumentCount_eq 0)
  have hcode : f.op.byte = f.element.code := f.code_eq.symm
  rw [hcode]
  exact compilesTo_of_awaiting hb hreads hreach f.waits f.isOpenParen_eq (by rw [f.stackEffect_eq]; rfl)

lemma pair (f : PairForm) (h₁ : Single o e₁ c₁) (h₂ : Single o e₂ c₂)
    (hb : Text.byteLength (f.element.pattern ++ "(" ++ e₁ ++ "," ++ e₂ ++ ")").toList < 2 ^ 31) :
    CompilesTo o' (f.element.pattern ++ "(" ++ e₁ ++ "," ++ e₂ ++ ")") (c₁ ++ c₂ ++ [f.op.byte]) := by
  obtain ⟨xs, t, es, hx, ha, rfl⟩ := h₁.exists_argument
  obtain ⟨ys, u, fs, hy, ha', rfl⟩ := h₂.exists_argument
  have hupper : Text.upper (f.element.pattern ++ "(" ++ e₁ ++ "," ++ e₂ ++ ")").toList =
      f.element.pattern.toList ++
        '(' :: (Text.upper e₁.toList ++ ',' :: (Text.upper e₂.toList ++ [')'])) := by
    rw [← f.upper_pattern]
    simp [Text.upper]
  have hlist := hx.append isBoundary_comma
    (reads_comma (hy.append isBoundary_closeParen (reads_closeParen reads_nil)))
  have hreads := f.reads.append isBoundary_openParen (reads_openParen hlist)
  rw [← hupper] at hreads
  have hstart := State.gives_precedes (o := o') (.inl rfl) f.isOpenParen_eq (by omega)
  have hreach := State.Reaches.silent hstart
    (ha.pair_awaiting hp hd ha' (by rw [f.priorities.1]; decide) f.argumentCount_eq 0)
  have hcode : f.op.byte = f.element.code := f.code_eq.symm
  rw [hcode, ← codeBytes_append]
  exact compilesTo_of_awaiting hb hreads hreach f.waits f.isOpenParen_eq (by rw [f.stackEffect_eq]; rfl)

lemma binary (f : BinaryForm) (h₁ : Single o e₁ c₁) (h₂ : Single o e₂ c₂)
    (hb : Text.byteLength ("(" ++ e₁ ++ ")" ++ f.element.pattern ++ "(" ++ e₂ ++ ")").toList < 2 ^ 31) :
    CompilesTo o' ("(" ++ e₁ ++ ")" ++ f.element.pattern ++ "(" ++ e₂ ++ ")")
      (c₁ ++ c₂ ++ [f.op.byte]) := by
  obtain ⟨xs, t, es, hx, ha, rfl⟩ := h₁.exists_argument
  obtain ⟨ys, u, fs, hy, ha', rfl⟩ := h₂.exists_argument
  have hupper : Text.upper ("(" ++ e₁ ++ ")" ++ f.element.pattern ++ "(" ++ e₂ ++ ")").toList =
      '(' :: (Text.upper e₁.toList ++
        ')' :: (f.element.pattern.toList ++ '(' :: (Text.upper e₂.toList ++ [')']))) := by
    rw [← f.upper_pattern]
    simp [Text.upper]
  have hreads := reads_paren hx (f.reads.append isBoundary_openParen (reads_paren hy reads_nil))
  rw [← hupper] at hreads
  have hjoin := State.gives_joins (o := o') f.symbol_joins (by omega)
  have hright := ha'.paren_awaiting hp hd (f.priority_le.trans_lt (by decide)) f.argumentCount_eq 1
  have hreach := (ha.paren_start hp hd).closed (.silent hjoin hright)
  have hcode : f.op.byte = f.element.code := f.code_eq.symm
  rw [hcode, ← codeBytes_append]
  exact compilesTo_of_awaiting hb hreads hreach f.waits f.isOpenParen_eq (by rw [f.stackEffect_eq]; rfl)

lemma conditional (h₁ : Single o e₁ c₁) (h₂ : Single o e₂ c₂) (h₃ : Single o e₃ c₃)
    (hb : Text.byteLength ("(" ++ e₁ ++ ")?(" ++ e₂ ++ "):(" ++ e₃ ++ ")").toList < 2 ^ 31) :
    CompilesTo o' ("(" ++ e₁ ++ ")?(" ++ e₂ ++ "):(" ++ e₃ ++ ")")
      (c₁ ++ [Opcode.branchIf.byte] ++ c₂ ++ [Opcode.branchElse.byte] ++ c₃ ++ [Opcode.branchEnd.byte]) := by
  obtain ⟨xs, t, es, hx, ha, rfl⟩ := h₁.exists_argument
  obtain ⟨ys, u, fs, hy, ha', rfl⟩ := h₂.exists_argument
  obtain ⟨zs, v, gs, hz, ha'', rfl⟩ := h₃.exists_argument
  have hupper : Text.upper ("(" ++ e₁ ++ ")?(" ++ e₂ ++ "):(" ++ e₃ ++ ")").toList =
      '(' :: (Text.upper e₁.toList ++ ')' :: '?' :: '(' :: (Text.upper e₂.toList ++
        ')' :: ':' :: '(' :: (Text.upper e₃.toList ++ [')']))) := by
    simp [Text.upper]
  have hreads := reads_paren hx (reads_question
    (reads_paren hy (reads_colon (reads_paren hz reads_nil))))
  rw [← hupper] at hreads
  have hc := compilesTo_of_awaiting hb hreads (ha.conditional hp hd ha' ha'') Element.waits_branchEnd rfl
    (by decide)
  simp only [codeBytes_append, codeBytes_op, List.append_assoc] at hc ⊢
  exact hc

end Single

/-- Two more operators may have to wait than in the expressions: the one around and the parenthesis. -/
theorem compile_parenthesized {o o' : Options} (hp : o'.literalPolicy = o.literalPolicy)
    (hd : o.maxStackDepth + 2 ≤ o'.maxStackDepth) {expression : String} {code : List UInt8}
    (h : Parenthesized o expression code) (hb : Text.byteLength expression.toList < 2 ^ 31) :
    CompilesTo o' expression code := by
  cases h with
  | paren h => exact h.paren hp hd hb
  | apply f h => exact h.apply hp hd f hb
  | pair f h₁ h₂ => exact h₁.pair hp hd f h₂ hb
  | binary f h₁ h₂ => exact h₁.binary hp hd f h₂ hb
  | conditional h₁ h₂ h₃ => exact h₁.conditional hp hd h₂ h₃ hb

theorem compile_parenthesized_minus :
    Single ⟨2, .strict⟩ "A-B" [1, 0, 1, 1, 17] ∧ Single ⟨2, .strict⟩ "b-A*C" [1, 1, 1, 0, 1, 2, 18, 17] ∧
      CompilesTo ⟨4, .strict⟩ "(A-B)-(b-A*C)" [1, 0, 1, 1, 17, 1, 1, 1, 0, 1, 2, 18, 17, 17] ∧
      CompilesTo ⟨4, .strict⟩ "-(b-A*C)" [1, 1, 1, 0, 1, 2, 18, 17, 22] := by
  have h₁ : Single ⟨2, .strict⟩ "A-B" [1, 0, 1, 1, 17] :=
    ⟨by decide +kernel, by decide +kernel, ⟨[.fetch 0, .fetch 1, .binary .sub]⟩, by decide +kernel, rfl⟩
  have h₂ : Single ⟨2, .strict⟩ "b-A*C" [1, 1, 1, 0, 1, 2, 18, 17] :=
    ⟨by decide +kernel, by decide +kernel, ⟨[.fetch 1, .fetch 0, .fetch 2, .binary .mul, .binary .sub]⟩,
      by decide +kernel, rfl⟩
  have hdifference : Parenthesized ⟨2, .strict⟩ "(A-B)-(b-A*C)"
      [1, 0, 1, 1, 17, 1, 1, 1, 0, 1, 2, 18, 17, 17] := .binary .subtract h₁ h₂
  have hnegation : Parenthesized ⟨2, .strict⟩ "-(b-A*C)" [1, 1, 1, 0, 1, 2, 18, 17, 22] :=
    .apply .negate h₂
  exact ⟨h₁, h₂, compile_parenthesized (by rfl) (by decide) hdifference (by decide),
    compile_parenthesized (by rfl) (by decide) hnegation (by decide)⟩

end FormulaCode
