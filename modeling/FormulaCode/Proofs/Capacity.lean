import FormulaCode.Proofs.Course
import FormulaCode.Proofs.Lexing

/-! Room for the code: the bytes emitted and the elements that wait to be emitted grow by nine at most with
each lexeme. -/

namespace FormulaCode

lemma Emission.length_bytes_le (e : Emission) : e.bytes.length ≤ 9 := by
  cases e with
  | op code => exact Nat.le_add_left 1 8
  | fetch index => exact Nat.le_add_left 2 7
  | literal x => rw [bytes, List.length_cons, x.length_bytes]

lemma codeBytes_append (es fs : List Emission) : codeBytes (es ++ fs) = codeBytes es ++ codeBytes fs :=
  List.flatMap_append

lemma length_codeBytes_append (es fs : List Emission) :
    (codeBytes (es ++ fs)).length = (codeBytes es).length + (codeBytes fs).length := by
  rw [codeBytes_append, List.length_append]

lemma length_codeBytes_op (code : UInt8) : (codeBytes [.op code]).length = 1 := rfl

lemma length_codeBytes_singleton (e : Emission) : (codeBytes [e]).length ≤ 9 := by
  rw [codeBytes, List.flatMap_singleton]
  exact e.length_bytes_le

namespace State

variable {o : Options} {s t : State} {x : Symbol} {xs : List Symbol} {k : ErrorKind} {es : List Emission}

lemma length_codeBytes_opsOf (es : List Element) : (codeBytes (opsOf es)).length = es.length := by
  induction es with
  | nil => rfl
  | cons e es ih =>
    change (codeBytes ([.op e.code] ++ opsOf es)).length = _
    rw [length_codeBytes_append, length_codeBytes_op, ih, List.length_cons, Nat.add_comm]

lemma length_unloaded (s : State) (c : Element → Bool) :
    (codeBytes (opsOf (s.pending.takeWhile c))).length + (s.pending.dropWhile c).length =
      s.pending.length := by
  rw [length_codeBytes_opsOf, ← List.length_append, List.takeWhile_append_dropWhile]

lemma length_emptied (s : State) (c : Element → Bool) :
    (codeBytes (opsOf (s.pending.takeWhile c))).length ≤ s.pending.length :=
  Nat.le.intro (s.length_unloaded c)

lemma Takes.length_ok (h : s.Takes o x es (.ok t)) :
    (codeBytes es).length + t.pending.length ≤ s.pending.length + 9 := by
  cases h with
  | operand | numeral =>
    rw [Nat.add_comm]
    exact Nat.add_le_add_left (length_codeBytes_singleton _) _
  | binary | unary =>
    rw [List.length_cons, ← Nat.add_assoc, length_unloaded]
    exact Nat.add_le_add_left (Nat.le_add_left 1 8) _
  | separator =>
    rw [unloaded, length_unloaded]
    exact Nat.le_add_right _ 9
  | closeParen hn hp =>
    have hl := s.length_unloaded Element.isOperator
    rw [hp, List.length_cons] at hl
    dsimp only
    omega
  | question =>
    have hl := s.length_unloaded Element.binds
    rw [length_codeBytes_append, length_codeBytes_op]
    dsimp only [unloaded]
    omega
  | colon =>
    have hl := s.length_unloaded Element.binds
    rw [length_codeBytes_append, length_codeBytes_op, List.length_cons]
    omega
  | terminator =>
    have hl := s.length_emptied Element.isOperator
    rw [length_codeBytes_append, length_codeBytes_op]
    dsimp only [List.length_nil]
    omega

lemma Unfinished.length_le (h : s.Unfinished es k) : (codeBytes es).length ≤ s.pending.length := by
  cases h with
  | operand => exact Nat.zero_le _
  | _ => exact s.length_emptied _

lemma Takes.length_error (h : s.Takes o x es (.error k)) : (codeBytes es).length ≤ s.pending.length + 9 := by
  cases h with
  | misplaced | refused => exact Nat.zero_le _
  | unended =>
    rw [length_codeBytes_append, length_codeBytes_op]
    exact Nat.add_le_add (s.length_emptied _) (Nat.le_add_left 1 8)
  | unfinished h => exact h.length_le.trans (Nat.le_add_right _ 9)
  | _ => exact (s.length_emptied _).trans (Nat.le_add_right _ 9)

def Fits (xs : List Symbol) (s : State) (es : List Emission) : Prop :=
  (codeBytes es).length + s.pending.length ≤ 9 * xs.length

lemma Fits.takes {fs : List Emission} (hs : s.Fits xs es) (h : s.Takes o x fs (.ok t)) :
    t.Fits (xs ++ [x]) (es ++ fs) := by
  have hl := h.length_ok
  rw [Fits] at hs ⊢
  rw [length_codeBytes_append, List.length_append, List.length_singleton]
  omega

lemma Reaches.fits (h : Reaches o {} xs t es) : t.Fits xs es := by
  have hstart : Fits [] {} [] := Nat.zero_le _
  exact h.keeps (K := fun _ => True) (fun hs _ => hs.takes) (fun _ _ => trivial) hstart

lemma length_finish (s : State) : (codeBytes s.finish.emitted).length ≤ s.pending.length := by
  by_cases h : s.Complete
  · rw [(gives_finish h).2]
    exact s.length_emptied _
  · obtain ⟨es, k, hu, hr⟩ := exists_unfinished h
    rw [hr.2]
    exact hu.length_le

end State

namespace Compilation

variable {o : Options} {lexemes : List Lexeme × Lexeme.Stop} {result : Except CompileError Unit}
  {es : List Emission}

lemma Ends.length_le (h : Ends o lexemes result es) : (codeBytes es).length ≤ 9 * lexemes.1.length := by
  cases h with
  | refused hr hx =>
    have hl := hr.fits
    have hx := (State.takes_of_raises hx).length_error
    rw [State.Fits, List.length_map] at hl
    rw [length_codeBytes_append, List.length_append, List.length_cons]
    omega
  | unknown hr =>
    have hl := hr.fits
    rw [State.Fits, List.length_map] at hl
    exact (Nat.le_add_right _ _).trans hl
  | unfinished hr hf | finished hr hf =>
    have hl := hr.fits
    have hf := hf.2 ▸ State.length_finish _
    rw [State.Fits, List.length_map] at hl
    rw [length_codeBytes_append]
    exact (Nat.add_le_add_left hf _).trans hl

lemma length_codeBytes_lt (o : Options) (expression : String) :
    (codeBytes (ofExpression o expression).emissions).length <
      capacityBound (Text.byteLength expression.toList) := by
  have hl := Lexeme.length_ofExpression_le expression
  calc (codeBytes (ofExpression o expression).emissions).length
      ≤ 9 * (Lexeme.ofExpression expression).1.length := (ends_ofExpression o expression).length_le
    _ ≤ 9 * Text.byteLength expression.toList := Nat.mul_le_mul_left 9 hl
    _ < capacityBound (Text.byteLength expression.toList) := Nat.lt_succ_self _

end Compilation

end FormulaCode
