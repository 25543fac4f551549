/-! Byte offsets into text. A character takes one to four bytes, so an offset may lie inside one. -/

namespace FormulaCode.Text

def byteLength : List Char → Nat
  | [] => 0
  | c :: cs => c.utf8Size + byteLength cs

def dropBytes? : Nat → List Char → Option (List Char)
  | 0, cs => some cs
  | _ + 1, [] => none
  | n + 1, c :: cs => if c.utf8Size ≤ n + 1 then dropBytes? (n + 1 - c.utf8Size) cs else none

/-- The number of characters before an offset, unless it lies inside a character or past the end. -/
def charsBefore? : Nat → List Char → Option Nat
  | 0, _ => some 0
  | _ + 1, [] => none
  | n + 1, c :: cs =>
    if c.utf8Size ≤ n + 1 then (charsBefore? (n + 1 - c.utf8Size) cs).map (· + 1) else none

def slice? (cs : List Char) (offset length : Nat) : Option (List Char) := do
  let rest ← dropBytes? offset cs
  let count ← charsBefore? length rest
  return rest.take count

def isBlank (c : Char) : Bool :=
  c == ' ' || c == '\t' || c == '\n' || c == '\x0c' || c == '\r'

def isDigit (c : Char) : Bool := '0' ≤ c && c ≤ '9'

def isUpper (c : Char) : Bool := 'A' ≤ c && c ≤ 'Z'

def upper (cs : List Char) : List Char := cs.map Char.toUpper

@[simp] theorem byteLength_nil : byteLength [] = 0 := rfl

@[simp] theorem byteLength_cons (c : Char) (cs : List Char) :
    byteLength (c :: cs) = c.utf8Size + byteLength cs := rfl

@[simp] theorem byteLength_append (cs ds : List Char) :
    byteLength (cs ++ ds) = byteLength cs + byteLength ds := by
  induction cs with
  | nil => simp
  | cons c cs ih => simp [ih, Nat.add_assoc]

theorem dropBytes?_utf8Size_add (c : Char) (cs : List Char) (n : Nat) :
    dropBytes? (c.utf8Size + n) (c :: cs) = dropBytes? n cs := by
  have hpos := c.utf8Size_pos
  obtain ⟨m, hm⟩ : ∃ m, c.utf8Size + n = m + 1 := ⟨c.utf8Size + n - 1, by omega⟩
  have hle : c.utf8Size ≤ m + 1 := by omega
  have hsub : m + 1 - c.utf8Size = n := by omega
  rw [hm, dropBytes?, if_pos hle, hsub]

theorem dropBytes?_byteLength_add (cs ds : List Char) (n : Nat) :
    dropBytes? (byteLength cs + n) (cs ++ ds) = dropBytes? n ds := by
  induction cs with
  | nil => rw [byteLength_nil, Nat.zero_add, List.nil_append]
  | cons c cs ih => rw [byteLength_cons, Nat.add_assoc, List.cons_append, dropBytes?_utf8Size_add, ih]

theorem dropBytes?_append (cs ds : List Char) : dropBytes? (byteLength cs) (cs ++ ds) = some ds := by
  have h := dropBytes?_byteLength_add cs ds 0
  rwa [Nat.add_zero, dropBytes?] at h

end FormulaCode.Text
