import FormulaCode.Proofs.Encoding
import FormulaCode.Listing

namespace FormulaCode

lemma operandSize_byte (op : Opcode) : operandSize op.byte = op.operandSize := by
  rw [operandSize, Opcode.ofByte?_byte]
  rfl

namespace Instruction

lemma bytes_fetch {v : UInt8} (h : v.toNat < 26) :
    (fetch ⟨v.toNat, h⟩).bytes = [Opcode.fetch.byte, v] := by
  simp [bytes, opcode, operand, Operand.bytes]

lemma bytes_literal {bs : List UInt8} (h : bs.length = 8) :
    (literal (Double.ofBytes bs)).bytes = Opcode.literal.byte :: bs :=
  congrArg (Opcode.literal.byte :: ·) (Double.bytes_ofBytes h)

end Instruction

namespace Program

variable {offset : Nat} {bs rest : List UInt8} {is : List Instruction}

inductive Refuses : Nat → List UInt8 → ProgramError → Prop
  | missing {offset : Nat} : Refuses offset [] .missingTerminator
  | opcode {offset : Nat} {b : UInt8} {rest : List UInt8} (h : Opcode.ofByte? b = none) :
    Refuses offset (b :: rest) (.invalidOpcode offset b)
  | truncated {offset : Nat} {op : Opcode} {operand : List UInt8} (h : operand.length < op.operandSize) :
    Refuses offset (op.byte :: operand) (.truncatedOperand offset)
  | index {offset : Nat} {v : UInt8} {rest : List UInt8} (h : ¬ v.toNat < 26) :
    Refuses offset (Opcode.fetch.byte :: v :: rest) (.invalidVariable offset v)
  | trailing {offset : Nat} {b : UInt8} {rest : List UInt8} :
    Refuses offset (Opcode.stop.byte :: b :: rest) (.trailingBytes (offset + 1))

lemma decode_of_refuses {error : ProgramError} (h : Refuses offset bs error) :
    decode offset bs = .error error := by
  cases h with
  | missing => rfl
  | opcode h => simp [decode, h]
  | @truncated op operand h =>
    have hb := Opcode.ofByte?_byte op
    cases op with
    | fetch =>
      obtain rfl : operand = [] := List.length_eq_zero_iff.1 (Nat.lt_one_iff.1 h)
      simp [decode, hb]
    | literal =>
      have hshort (b₀ b₁ b₂ b₃ b₄ b₅ b₆ b₇ : UInt8) (later : List UInt8) :
          operand ≠ b₀ :: b₁ :: b₂ :: b₃ :: b₄ :: b₅ :: b₆ :: b₇ :: later := by
        rintro rfl
        exact Nat.not_lt.2 (Nat.le_add_left 8 later.length) h
      simp [decode, hb]
    | _ => exact absurd h (Nat.not_lt_zero _)
  | index h => simp [decode, Opcode.ofByte?_byte, h]
  | trailing => simp [decode, Opcode.ofByte?_byte]

lemma reads_or_refuses (offset : Nat) (bs : List UInt8) :
    bs = [Opcode.stop.byte] ∨ (∃ (i : Instruction) (rest : List UInt8), bs = i.bytes ++ rest) ∨
      ∃ error, Refuses offset bs error := by
  cases bs with
  | nil => exact .inr (.inr ⟨_, .missing⟩)
  | cons b rest =>
    cases hb : Opcode.ofByte? b with
    | none => exact .inr (.inr ⟨_, .opcode hb⟩)
    | some op =>
      obtain rfl := Opcode.byte_of_ofByte? hb
      -- only an operand or the bytes behind the end mark can still be refused
      cases op with
      | fetch =>
        cases rest with
        | nil => exact .inr (.inr ⟨_, .truncated Nat.one_pos⟩)
        | cons v rest =>
          by_cases hv : v.toNat < 26
          · exact .inr (.inl ⟨.fetch ⟨v.toNat, hv⟩, rest, by rw [Instruction.bytes_fetch]; rfl⟩)
          · exact .inr (.inr ⟨_, .index hv⟩)
      | literal =>
        by_cases hl : rest.length < 8
        · exact .inr (.inr ⟨_, .truncated hl⟩)
        · refine .inr (.inl ⟨.literal (Double.ofBytes (rest.take 8)), rest.drop 8, ?_⟩)
          rw [Instruction.bytes_literal (List.length_take_of_le (Nat.le_of_not_lt hl)), List.cons_append,
            List.take_append_drop]
      | stop =>
        cases rest with
        | nil => exact .inl rfl
        | cons c rest => exact .inr (.inr ⟨_, .trailing⟩)
      | constant c => exact .inr (.inl ⟨.constant c, rest, rfl⟩)
      | unary f => exact .inr (.inl ⟨.unary f, rest, rfl⟩)
      | binary f => exact .inr (.inl ⟨.binary f, rest, rfl⟩)
      | branchIf => exact .inr (.inl ⟨.branchIf, rest, rfl⟩)
      | branchElse => exact .inr (.inl ⟨.branchElse, rest, rfl⟩)
      | branchEnd => exact .inr (.inl ⟨.branchEnd, rest, rfl⟩)
      | endExpr => exact .inr (.inl ⟨.endExpr, rest, rfl⟩)

lemma starts_of_decode (h : decode offset bs = .ok is) :
    bs = [Opcode.stop.byte] ∨ ∃ (i : Instruction) (rest : List UInt8), bs = i.bytes ++ rest := by
  rcases reads_or_refuses offset bs with hstop | hread | ⟨error, hr⟩
  · exact .inl hstop
  · exact .inr hread
  · rw [decode_of_refuses hr] at h
    cases h

lemma exists_of_decode_cons {i : Instruction} (h : decode offset (i.bytes ++ rest) = .ok is) :
    ∃ js, is = i :: js ∧ decode (offset + i.size) rest = .ok js := by
  rw [decode_cons] at h
  cases hd : decode (offset + i.size) rest with
  | error e => simp [hd, Except.map] at h
  | ok js =>
    rw [hd] at h
    exact ⟨js, (Except.ok.inj h).symm, rfl⟩

lemma bytes_of_decode (h : decode offset bs = .ok is) :
    bs = is.flatMap Instruction.bytes ++ [Opcode.stop.byte] := by
  induction is generalizing offset bs with
  | nil =>
    rcases starts_of_decode h with rfl | ⟨i, rest, rfl⟩
    · rfl
    · obtain ⟨js, hjs, -⟩ := exists_of_decode_cons h
      cases hjs
  | cons j is ih =>
    rcases starts_of_decode h with rfl | ⟨i, rest, rfl⟩
    · cases h
    · obtain ⟨js, hjs, hd⟩ := exists_of_decode_cons h
      cases hjs
      rw [ih hd, List.flatMap_cons, List.append_assoc]

lemma ofBytes_eq_ok_iff {p : Program} : ofBytes bs = .ok p ↔ bs = p.bytes := by
  constructor
  · intro h
    rw [ofBytes] at h
    split at h
    · cases h
    · cases hd : decode 0 bs with
      | error e => simp [hd, Except.map] at h
      | ok is =>
        rw [hd] at h
        cases h
        exact bytes_of_decode hd
  · rintro rfl
    rw [ofBytes, bytes, if_neg (head_bytes_ne p.body), decode_bytes]
    rfl

end Program

namespace Emission

/-- Code that may stand in a program: an operation other than the end mark, and its operand if it takes
one. -/
def isProper : Emission → Bool
  | .op code => (Opcode.ofByte? code).any fun op => op.operandSize == 0 && op != .stop
  | .fetch index => index.toNat < 26
  | .literal _ => true

def code : Emission → UInt8
  | .op code => code
  | .fetch _ => Opcode.fetch.byte
  | .literal _ => Opcode.literal.byte

def operand : Emission → Operand
  | .op _ => .none
  | .fetch index => .index index
  | .literal x => .literal x

def ofLine (l : Line) : Emission :=
  match l.operand with
  | .none => .op l.code
  | .index i => .fetch i
  | .literal x => .literal x

lemma isProper_ofInstruction (i : Instruction) : (ofInstruction i).isProper = true := by
  have hb := Opcode.ofByte?_byte i.opcode
  cases i with
  | fetch v =>
    have hv := toNat_variable v
    simp [ofInstruction, isProper, hv]
  | literal x => rfl
  | _ =>
    simp only [Instruction.opcode] at hb
    simp [ofInstruction, isProper, Instruction.opcode, hb, Opcode.operandSize]

lemma exists_of_isProper {e : Emission} (h : e.isProper = true) : ∃ i, e = ofInstruction i := by
  cases e with
  | op code =>
    cases hb : Opcode.ofByte? code with
    | none => simp [isProper, hb] at h
    | some op =>
      obtain rfl := Opcode.byte_of_ofByte? hb
      simp only [isProper, hb, Option.any_some] at h
      cases op with
      | fetch => cases h
      | literal => cases h
      | stop => cases h
      | constant c => exact ⟨.constant c, rfl⟩
      | unary f => exact ⟨.unary f, rfl⟩
      | binary f => exact ⟨.binary f, rfl⟩
      | branchIf => exact ⟨.branchIf, rfl⟩
      | branchElse => exact ⟨.branchElse, rfl⟩
      | branchEnd => exact ⟨.branchEnd, rfl⟩
      | endExpr => exact ⟨.endExpr, rfl⟩
  | fetch index =>
    have hi : index.toNat < 26 := by simpa [isProper] using h
    exact ⟨.fetch ⟨index.toNat, hi⟩, by simp [ofInstruction]⟩
  | literal x => exact ⟨.literal x, rfl⟩

lemma exists_instructions {es : List Emission} (h : ∀ e ∈ es, e.isProper = true) :
    ∃ is : List Instruction, es = is.map ofInstruction := by
  induction es with
  | nil => exact ⟨[], rfl⟩
  | cons e es ih =>
    obtain ⟨he, hes⟩ := List.forall_mem_cons.1 h
    obtain ⟨i, rfl⟩ := exists_of_isProper he
    obtain ⟨is, rfl⟩ := ih hes
    exact ⟨i :: is, rfl⟩

lemma isProper_of_mem_instructions {is : List Instruction} {e : Emission}
    (h : e ∈ is.map ofInstruction) : e.isProper = true := by
  obtain ⟨i, -, rfl⟩ := List.mem_map.1 h
  exact isProper_ofInstruction i

lemma code_ofInstruction (i : Instruction) : (ofInstruction i).code = i.opcode.byte := by
  cases i <;> rfl

lemma operand_ofInstruction (i : Instruction) : (ofInstruction i).operand = i.operand := by
  cases i <;> rfl

end Emission

namespace Program

lemma size_line (offset : Nat) (i : Instruction) :
    Line.size ⟨offset, i.opcode.byte, i.operand⟩ = i.size := by
  rw [Line.size, operandSize_byte, Instruction.size]

lemma emissions_linesFrom (offset : Nat) (is : List Instruction) :
    (linesFrom offset is).map Emission.ofLine =
      is.map Emission.ofInstruction ++ [.op Opcode.stop.byte] := by
  induction is generalizing offset with
  | nil => rfl
  | cons i is ih =>
    have hi : Emission.ofLine ⟨offset, i.opcode.byte, i.operand⟩ = .ofInstruction i := by
      cases i <;> rfl
    rw [linesFrom, List.map_cons, hi, ih]
    rfl

lemma fields_linesFrom (offset : Nat) (is : List Instruction) :
    (linesFrom offset is).map (fun l => (l.code, l.operand)) =
      is.map (fun i => (i.opcode.byte, i.operand)) ++ [(Opcode.stop.byte, .none)] := by
  induction is generalizing offset with
  | nil => rfl
  | cons i is ih => rw [linesFrom, List.map_cons, ih, List.map_cons, List.cons_append]

lemma offset_linesFrom {offset k : Nat} {is : List Instruction} {l : Line}
    (h : (linesFrom offset is)[k]? = some l) :
    l.offset = offset + (((linesFrom offset is).take k).map Line.size).sum := by
  induction is generalizing offset k with
  | nil =>
    cases k with
    | zero => cases h; rfl
    | succ k => cases h
  | cons i is ih =>
    cases k with
    | zero => cases h; rfl
    | succ k =>
      rw [linesFrom, List.getElem?_cons_succ] at h
      rw [ih h, linesFrom, List.take_succ_cons, List.map_cons, List.sum_cons, size_line, Nat.add_assoc]

/-- The lines of a program are some code and then the end mark, each at the offset that the sizes of the
lines before it add up to. -/
def Shows (p : Program) (es : List Emission) : Prop :=
  p.lines.map (fun l => (l.code, l.operand)) =
      es.map (fun e => (e.code, e.operand)) ++ [(Opcode.stop.byte, .none)] ∧
    ∀ k l, p.lines[k]? = some l → l.offset = ((p.lines.take k).map Line.size).sum

lemma shows_instructions (p : Program) : p.Shows (p.body.map .ofInstruction) := by
  refine ⟨?_, fun k l h => ?_⟩
  · rw [lines, fields_linesFrom, List.map_map]
    simp only [Function.comp_def, Emission.code_ofInstruction, Emission.operand_ofInstruction]
  · rw [offset_linesFrom h, Nat.zero_add]
    rfl

lemma replay_lines (p : Program) : p.lines.dropLast.map Emission.ofLine = p.body.map .ofInstruction := by
  rw [List.map_dropLast, lines, emissions_linesFrom, List.dropLast_concat]

end Program

lemma Line.read_plain {op : Opcode} (h : op.operandSize = 0) (before rest : List UInt8) :
    read (before ++ op.byte :: rest) before.length = .ok ⟨before.length, op.byte, .none⟩ := by
  have hop := Opcode.ofByte?_byte op
  have hsize : operandSize op.byte = 0 := (operandSize_byte op).trans h
  have hne (op' : Opcode) (h' : op'.operandSize ≠ 0) : op.byte ≠ op'.byte := fun hb =>
    h' (Opcode.byte_injective hb ▸ h)
  rw [read, List.drop_left]
  simp [hop, hsize, hne .fetch (by decide), hne .literal (by decide)]

lemma Line.read_instruction (before : List UInt8) (i : Instruction) (rest : List UInt8) :
    read (before ++ (i.bytes ++ rest)) before.length = .ok ⟨before.length, i.opcode.byte, i.operand⟩ := by
  have hop := Opcode.ofByte?_byte i.opcode
  have hsize := operandSize_byte i.opcode
  cases i with
  | fetch v =>
    simp only [Instruction.opcode, Opcode.operandSize] at hop hsize
    have hv : (UInt8.ofNat v.val).toNat < 26 := (toNat_variable v).trans_lt v.isLt
    rw [read, List.drop_left]
    simpa [Instruction.bytes, Instruction.opcode, Instruction.operand, Operand.bytes, hop, hsize] using hv
  | literal x =>
    have htake : (x.bytes ++ rest).take 8 = x.bytes := List.take_left' x.length_bytes
    have hne : Opcode.literal.byte ≠ Opcode.fetch.byte := by decide
    simp only [Instruction.opcode, Opcode.operandSize] at hop hsize
    rw [read, List.drop_left]
    simp [Instruction.bytes, Instruction.opcode, Instruction.operand, Operand.bytes, hop, hsize, htake, hne,
      x.length_bytes, Double.ofBytes_bytes]
  | _ => exact read_plain rfl before rest

namespace Reader

lemma lines_of_read {bs : List UInt8} {offset : Nat} {l : Line} (h : Line.read bs offset = .ok l) :
    lines ⟨bs, offset, false⟩ = l :: lines ⟨bs, offset + l.size, l.code == Opcode.stop.byte⟩ := by
  have hnext : next? ⟨bs, offset, false⟩ = some (l, ⟨bs, offset + l.size, l.code == Opcode.stop.byte⟩) := by
    simp [next?, h]
  rw [lines.eq_def]
  split
  · rename_i hn
    cases hn.symm.trans hnext
  · rename_i hn
    cases hn.symm.trans hnext
    rfl

lemma lines_of_done (bs : List UInt8) (offset : Nat) : lines ⟨bs, offset, true⟩ = [] := by
  rw [lines.eq_def]
  split
  · rfl
  · rename_i hn
    cases hn

/-- Behind any bytes the reader gives the lines of the instructions that follow, up to the end mark. -/
lemma lines_instructions (before : List UInt8) (is : List Instruction) :
    lines ⟨before ++ (is.flatMap Instruction.bytes ++ [Opcode.stop.byte]), before.length, false⟩ =
      Program.linesFrom before.length is := by
  induction is generalizing before with
  | nil =>
    rw [List.flatMap_nil, List.nil_append, lines_of_read (Line.read_plain rfl before []), beq_self_eq_true,
      lines_of_done]
    rfl
  | cons i is ih =>
    have hstop : (i.opcode.byte == Opcode.stop.byte) = false := by
      rw [beq_eq_false_iff_ne]
      intro hb
      cases i <;> cases Opcode.byte_injective hb
    have hi := ih (before ++ i.bytes)
    rw [List.length_append, Instruction.length_bytes, List.append_assoc] at hi
    rw [List.flatMap_cons, List.append_assoc, lines_of_read (Line.read_instruction before i _), hstop,
      Program.size_line, hi, Program.linesFrom]

end Reader

lemma Program.lines_reader {bs : List UInt8} {p : Program} (h : ofBytes bs = .ok p) :
    Reader.lines { bytes := bs } = p.lines := by
  rw [ofBytes_eq_ok_iff.1 h]
  exact Reader.lines_instructions [] p.body

namespace Program

/-- Emitted code with the end mark is read as a program that shows the code. No other bytes are read, the
reader finds the program's lines in them, and what is read gives the same bytes when it is emitted again. -/
theorem ofBytes_roundtrip :
    (∀ es : List Emission, (∀ e ∈ es, e.isProper = true) →
      ∃ p, ofEmissions es = .ok p ∧ p.bytes = codeBytes es ++ [Opcode.stop.byte] ∧
        ofBytes p.bytes = .ok p ∧ p.Shows es) ∧
      (∀ bs : List UInt8, (∃ p, ofBytes bs = .ok p) ↔
        ∃ es : List Emission, (∀ e ∈ es, e.isProper = true) ∧ bs = codeBytes es ++ [Opcode.stop.byte]) ∧
      ∀ (bs : List UInt8) (p : Program), ofBytes bs = .ok p →
        p.bytes = bs ∧ Reader.lines { bytes := bs } = p.lines ∧
          codeBytes (p.lines.dropLast.map .ofLine) ++ [Opcode.stop.byte] = bs ∧
          ofEmissions (p.lines.dropLast.map .ofLine) = .ok p := by
  refine ⟨fun es h => ?_, fun bs => ⟨?_, ?_⟩, fun bs p h => ?_⟩
  · obtain ⟨is, rfl⟩ := Emission.exists_instructions h
    exact ⟨⟨is⟩, ofEmissions_instructions is, bytes_eq_codeBytes ⟨is⟩, ofBytes_eq_ok_iff.2 rfl,
      shows_instructions ⟨is⟩⟩
  · rintro ⟨p, hp⟩
    exact ⟨_, fun e => Emission.isProper_of_mem_instructions,
      (ofBytes_eq_ok_iff.1 hp).trans p.bytes_eq_codeBytes⟩
  · rintro ⟨es, hes, rfl⟩
    obtain ⟨is, rfl⟩ := Emission.exists_instructions hes
    exact ⟨⟨is⟩, ofEmissions_instructions is⟩
  · have hlines := lines_reader h
    obtain rfl := ofBytes_eq_ok_iff.1 h
    rw [replay_lines]
    exact ⟨rfl, hlines, p.bytes_eq_codeBytes.symm, ofEmissions_instructions p.body⟩

theorem ofBytes_roundtrip_payload : ∃ p, ofEmissions [.literal ⟨0x7FF8007F7F00007F⟩, .fetch 25,
      .op BinaryOp.add.byte, .op Opcode.endExpr.byte] = .ok p ∧
    p.Shows [.literal ⟨0x7FF8007F7F00007F⟩, .fetch 25, .op BinaryOp.add.byte, .op Opcode.endExpr.byte] ∧
    ofEmissions (p.lines.dropLast.map .ofLine) = .ok p := by
  obtain ⟨p, he, -, hb, hs⟩ := ofBytes_roundtrip.1
    [.literal ⟨0x7FF8007F7F00007F⟩, .fetch 25, .op BinaryOp.add.byte, .op Opcode.endExpr.byte] (by decide)
  exact ⟨p, he, hs, (ofBytes_roundtrip.2.2 _ p hb).2.2.2⟩

end Program

end FormulaCode
