import FormulaCode.Proofs.Lexing

namespace FormulaCode.Text

variable {cs ds rest : List Char} {n : Nat}

def bytes (cs : List Char) : List UInt8 := cs.flatMap String.utf8EncodeChar

@[simp] lemma bytes_nil : bytes [] = [] := rfl

@[simp] lemma bytes_cons (c : Char) (cs : List Char) :
    bytes (c :: cs) = String.utf8EncodeChar c ++ bytes cs := rfl

@[simp] lemma bytes_append (cs ds : List Char) : bytes (cs ++ ds) = bytes cs ++ bytes ds :=
  List.flatMap_append

@[simp] lemma length_bytes (cs : List Char) : (bytes cs).length = byteLength cs := by
  induction cs with
  | nil => rfl
  | cons c cs ih => rw [bytes_cons, List.length_append, String.length_utf8EncodeChar, ih, byteLength_cons]

lemma isPrefix_bytes_iff : bytes cs <+: bytes ds ↔ cs <+: ds := by
  constructor
  · rintro ⟨bs, h⟩
    apply List.isPrefix_of_utf8Encode_append_eq_utf8Encode bs.toByteArray
    rw [List.utf8Encode, List.utf8Encode, ← List.toByteArray_append]
    exact congrArg List.toByteArray h
  · rintro ⟨es, rfl⟩
    exact ⟨bytes es, (bytes_append cs es).symm⟩

lemma exists_of_dropBytes? (h : dropBytes? n cs = some rest) :
    ∃ before, cs = before ++ rest ∧ n = byteLength before := by
  fun_induction dropBytes? n cs with
  | case1 cs => exact ⟨[], Option.some.inj h, rfl⟩
  | case2 => cases h
  | case3 n c cs hc ih =>
    obtain ⟨before, rfl, hn⟩ := ih h
    exact ⟨c :: before, rfl, by rw [byteLength_cons]; omega⟩
  | case4 => cases h

lemma exists_of_dropBytes?_eq_none (h : dropBytes? n cs = none) (hn : n ≤ byteLength cs) :
    ∃ before c after k, cs = before ++ c :: after ∧ n = byteLength before + k ∧ 0 < k ∧
      k < c.utf8Size := by
  fun_induction dropBytes? n cs with
  | case1 => cases h
  | case2 => exact absurd hn (by simp)
  | case3 n c cs hc ih =>
    rw [byteLength_cons] at hn
    obtain ⟨before, d, after, k, rfl, hk, hpos, hlt⟩ := ih h (by omega)
    exact ⟨c :: before, d, after, k, rfl, by rw [byteLength_cons]; omega, hpos, hlt⟩
  | case4 n c cs hc => exact ⟨[], c, cs, n + 1, rfl, (Nat.zero_add _).symm, Nat.succ_pos n, by omega⟩

def ofByte (b : UInt8) : Char := Char.ofNat b.toNat

lemma val_ofByte (b : UInt8) : (ofByte b).val.toNat = b.toNat := by
  have hb : b.toNat.isValidChar := .inl (by have := b.toNat_lt; omega)
  rw [ofByte, Char.ofNat, dif_pos hb]
  rfl

/-- Only the first byte of a character can be one of ASCII, and then it is the whole character. -/
lemma first_utf8EncodeChar {c : Char} {b : UInt8} {bs : List UInt8}
    (h : String.utf8EncodeChar c = b :: bs) :
    (c = ofByte b ∧ bs = []) ∨ (¬ c.val ≤ 127 ∧ 128 ≤ b.toNat) := by
  rw [String.utf8EncodeChar.eq_1] at h
  split at h
  · rename_i hc
    obtain ⟨rfl, rfl⟩ := List.cons.inj h
    refine .inl ⟨Char.ext (UInt32.toNat_inj.1 ?_), rfl⟩
    rw [val_ofByte, UInt8.toNat_ofNat']
    omega
  · rename_i hc
    refine .inr ⟨hc, ?_⟩
    split at h
    · obtain ⟨rfl, -⟩ := List.cons.inj h
      rw [UInt8.toNat_ofNat']
      omega
    · split at h
      all_goals
        obtain ⟨rfl, -⟩ := List.cons.inj h
        rw [UInt8.toNat_ofNat']
        omega

lemma le_of_mem_tail_utf8EncodeChar {c : Char} {b : UInt8} (h : b ∈ (String.utf8EncodeChar c).tail) :
    128 ≤ b.toNat := by
  have hlow (m : Nat) : 128 ≤ (UInt8.ofNat (m % 64 + 128)).toNat := by
    rw [UInt8.toNat_ofNat']
    omega
  rw [String.utf8EncodeChar.eq_1] at h
  split_ifs at h <;> simp only [List.tail_cons, List.mem_cons, List.not_mem_nil, or_false] at h
  · exact h ▸ hlow _
  · rcases h with rfl | rfl <;> exact hlow _
  · rcases h with rfl | rfl | rfl <;> exact hlow _

lemma drop_utf8EncodeChar {c : Char} {k : Nat} (hk : 0 < k) (hlt : k < c.utf8Size) :
    ∃ b bs, (String.utf8EncodeChar c).drop k = b :: bs ∧ 128 ≤ b.toNat := by
  obtain ⟨k, rfl⟩ := Nat.exists_eq_succ_of_ne_zero hk.ne'
  have hne : (String.utf8EncodeChar c).tail.drop k ≠ [] := by
    rw [Ne, List.drop_eq_nil_iff, List.length_tail, String.length_utf8EncodeChar]
    omega
  obtain ⟨b, bs, hd⟩ := List.exists_cons_of_ne_nil hne
  refine ⟨b, bs, by rw [← hd, List.drop_tail], le_of_mem_tail_utf8EncodeChar (c := c) ?_⟩
  exact List.mem_of_mem_drop (hd ▸ List.mem_cons_self)

lemma drop_bytes (h : dropBytes? n cs = some rest) : (bytes cs).drop n = bytes rest := by
  obtain ⟨before, rfl, rfl⟩ := exists_of_dropBytes? h
  rw [bytes_append, ← length_bytes, List.drop_left]

lemma drop_bytes_of_none (h : dropBytes? n cs = none) (hn : n ≤ byteLength cs) :
    ∃ b bs, (bytes cs).drop n = b :: bs ∧ 128 ≤ b.toNat := by
  obtain ⟨before, c, after, k, rfl, rfl, hk, hlt⟩ := exists_of_dropBytes?_eq_none h hn
  obtain ⟨b, bs, hd, hb⟩ := drop_utf8EncodeChar hk hlt
  refine ⟨b, bs ++ bytes after, ?_, hb⟩
  rw [bytes_append, ← length_bytes, List.drop_length_add_append, bytes_cons,
    List.drop_append_of_le_length (by rw [String.length_utf8EncodeChar]; exact hlt.le), hd]
  rfl

section Class

variable {p : Char → Bool} (hp : ∀ c, p c = true → c.val ≤ 127)
include hp

lemma class_ofByte {b : UInt8} (hb : 128 ≤ b.toNat) : p (ofByte b) = false := by
  by_contra h
  have hle : (ofByte b).val.toNat ≤ 127 := hp _ (by simpa using h)
  rw [val_ofByte] at hle
  omega

lemma class_first {c : Char} {b : UInt8} {bs : List UInt8} (h : String.utf8EncodeChar c = b :: bs) :
    p (ofByte b) = p c := by
  rcases first_utf8EncodeChar h with ⟨rfl, -⟩ | ⟨hc, hb⟩
  · rfl
  · rw [class_ofByte hp hb]
    exact (Bool.eq_false_iff.2 fun h => hc (hp c h)).symm

lemma takeWhile_bytes (cs : List Char) :
    (bytes cs).takeWhile (fun b => p (ofByte b)) = bytes (cs.takeWhile p) ∧
      (bytes cs).dropWhile (fun b => p (ofByte b)) = bytes (cs.dropWhile p) := by
  induction cs with
  | nil => exact ⟨rfl, rfl⟩
  | cons c cs ih =>
    obtain ⟨b, bs, h⟩ := List.exists_cons_of_ne_nil (String.utf8EncodeChar_ne_nil (c := c))
    have hb := class_first hp h
    by_cases hc : p c = true
    · obtain ⟨-, rfl⟩ := (first_utf8EncodeChar h).resolve_right fun hr => hr.1 (hp c hc)
      rw [hc] at hb
      simp [hb, hc, h, ih]
    · rw [Bool.not_eq_true] at hc
      rw [hc] at hb
      simp [hb, hc, h]

end Class

end FormulaCode.Text
