import FormulaCode.Program
import FormulaCode.Json
import FormulaCode.Double.Text

namespace FormulaCode

/-- A line of a listing. Its parts need not fit each other. -/
structure Line where
  offset : Nat
  code : UInt8
  operand : Operand
  deriving DecidableEq, Repr

def letter? (index : UInt8) : Option Char :=
  if 65 + index.toNat < 256 then some (Char.ofNat (65 + index.toNat)) else none

def padOffset (n : Nat) : List Char :=
  let digits := Nat.toDigits 10 n
  List.replicate (4 - digits.length) '0' ++ digits

def Operand.text? : Operand → Option (List Char)
  | .none => some []
  | .index i => (letter? i).map fun c => [' ', c]
  | .literal x => some (' ' :: x.display.toList)

def Operand.json : Operand → Json
  | .none => .object [("kind", .string "none")]
  | .index i => .object [("kind", .string "variable"), ("value", .ofNat i.toNat)]
  | .literal x => .object [("kind", .string "literal"), ("value", x.numeral?.elim .null .number)]

namespace Line

def size (l : Line) : Nat := 1 + operandSize l.code

/-- The line as text. There is none if the operand is a variable without a letter. -/
def text? (l : Line) : Option String :=
  l.operand.text?.map fun operand =>
    String.ofList (padOffset l.offset ++ ' ' :: ' ' :: (mnemonic l.code).toList ++ operand)

def json (l : Line) : Json :=
  .object [("offset", .ofNat l.offset), ("mnemonic", .string (mnemonic l.code)),
    ("operand", l.operand.json)]

/-- The line as a member of a document, where keys stand in alphabetical order. -/
def entry (l : Line) : Json :=
  .object [("mnemonic", .string (mnemonic l.code)), ("offset", .ofNat l.offset),
    ("operand", l.operand.json)]

end Line

def Line.read (bs : List UInt8) (offset : Nat) : Except ProgramError Line :=
  match bs.drop offset with
  | [] => .error .missingTerminator
  | b :: rest =>
    let operand := rest.take (operandSize b)
    if Opcode.ofByte? b = none then .error (.invalidOpcode offset b)
    else if operand.length < operandSize b then .error (.truncatedOperand offset)
    else if b = Opcode.fetch.byte then
      let index := operand.headD 0
      if index.toNat < 26 then .ok ⟨offset, b, .index index⟩
      else .error (.invalidVariable offset index)
    else if b = Opcode.literal.byte then .ok ⟨offset, b, .literal (Double.ofBytes operand)⟩
    else .ok ⟨offset, b, .none⟩

theorem Line.lt_of_read {bs : List UInt8} {offset : Nat} {l : Line} (h : read bs offset = .ok l) :
    offset < bs.length := by
  cases hd : bs.drop offset with
  | nil => simp [read, hd] at h
  | cons b rest =>
    have hlen := congrArg List.length hd
    rw [List.length_drop, List.length_cons] at hlen
    omega

/-- Bytes on the way of being read, line by line up to the end mark. -/
structure Reader where
  bytes : List UInt8
  offset : Nat := 0
  done : Bool := false
  deriving DecidableEq, Repr

namespace Reader

def next? (r : Reader) : Option (Line × Reader) :=
  if r.done then none
  else match Line.read r.bytes r.offset with
    | .error _ => none
    | .ok l => some (l, ⟨r.bytes, r.offset + l.size, l.code == Opcode.stop.byte⟩)

theorem left_of_next? {r s : Reader} {l : Line} (h : r.next? = some (l, s)) :
    s.bytes.length - s.offset < r.bytes.length - r.offset := by
  unfold next? at h
  split at h
  · cases h
  · split at h
    · cases h
    · next m hm =>
      cases h
      have hlt := Line.lt_of_read hm
      have hsize : 0 < l.size := Nat.lt_of_lt_of_le Nat.zero_lt_one (Nat.le_add_right 1 _)
      exact Nat.sub_lt_sub_left hlt (Nat.lt_add_of_pos_right hsize)

def lines (r : Reader) : List Line :=
  match _h : r.next? with
  | none => []
  | some (l, s) => l :: s.lines
termination_by r.bytes.length - r.offset
decreasing_by exact left_of_next? _h

end Reader

namespace Program

def linesFrom (offset : Nat) : List Instruction → List Line
  | [] => [⟨offset, Opcode.stop.byte, .none⟩]
  | i :: is => ⟨offset, i.opcode.byte, i.operand⟩ :: linesFrom (offset + i.size) is

def lines (p : Program) : List Line := linesFrom 0 p.body

def listing (p : Program) : String :=
  String.join ((p.lines.filterMap Line.text?).map (· ++ "\n"))

def json (p : Program) : Json :=
  .object [("bytes", .array (p.bytes.map fun b => .ofNat b.toNat)),
    ("instructions", .array (p.lines.map Line.entry))]

end Program

inductive Format
  | listing | bytes | json
  deriving DecidableEq, Repr

def Program.render (expression : String) (p : Program) : Format → String
  | .listing => p.listing
  | .bytes => " ".intercalate (p.bytes.map (hexByte lowerHex)) ++ "\n"
  | .json => (Json.object [("expression", .string expression), ("program", p.json)]).pretty ++ "\n"

end FormulaCode
