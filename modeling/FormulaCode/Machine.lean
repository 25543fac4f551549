import FormulaCode.Program

namespace FormulaCode

inductive Fault
  | emptyStack
  | shiftRange
  | remainderRange
  deriving DecidableEq, Repr

def truth (b : Bool) : Float := if b then 1.0 else 0.0

def piValue : Float := Float.ofBits 0x400921FB54442D18

def Constant.value : Constant → Float
  | .pi => piValue
  | .degToRad => piValue / 180.0
  | .radToDeg => 180.0 / piValue
  | .secToRad => piValue / (180.0 * 3600.0)
  | .radToSec => (180.0 * 3600.0) / piValue
  | .random => 0.5

def UnaryOp.apply : UnaryOp → Float → Float
  | .neg, a => -a
  | .abs, a => a.abs
  | .sqrt, a => a.sqrt
  | .exp, a => a.exp
  | .log10, a => a.log10
  | .ln, a => a.log
  | .ceil, a => a.ceil
  | .floor, a => a.floor
  | .round, a => a.round
  | .acos, a => a.acos
  | .asin, a => a.asin
  | .atan, a => a.atan
  | .cos, a => a.cos
  | .cosh, a => a.cosh
  | .sin, a => a.sin
  | .sinh, a => a.sinh
  | .tan, a => a.tan
  | .tanh, a => a.tanh
  | .not, a => truth (a == 0.0)
  | .bitNot, a => (~~~ a.toInt32).toFloat

/-- The greater value. One that is not a number gives way to the other, and of equals the second is
taken: zeros of either sign are equal. -/
def greater (a b : Float) : Float := if b.isNaN || b < a then a else b

def lesser (a b : Float) : Float := if b.isNaN || a < b then a else b

def remainder (a b : Float) : Except Fault Float :=
  let m := a.toInt64
  let n := b.toInt64
  if n == 0 then .ok (0.0 / 0.0)
  else if m == Int64.minValue && n == -1 then .error .remainderRange
  else .ok (m % n).toFloat

def shift (f : Int32 → Int32 → Int32) (a b : Float) : Except Fault Float :=
  let n := b.toInt32
  if 0 ≤ n && n ≤ 31 then .ok (f a.toInt32 n).toFloat else .error .shiftRange

def bitwise (f : Int32 → Int32 → Int32) (a b : Float) : Float := (f a.toInt32 b.toInt32).toFloat

def BinaryOp.apply : BinaryOp → Float → Float → Except Fault Float
  | .add, a, b => .ok (a + b)
  | .sub, a, b => .ok (a - b)
  | .mul, a, b => .ok (a * b)
  | .div, a, b => .ok (a / b)
  | .rem, a, b => remainder a b
  | .pow, a, b => .ok (a.pow b)
  | .max, a, b => .ok (greater a b)
  | .min, a, b => .ok (lesser a b)
  | .atan2, a, b => .ok (Float.atan2 b a)
  | .or, a, b => .ok (truth (a != 0.0 || b != 0.0))
  | .and, a, b => .ok (truth (a != 0.0 && b != 0.0))
  | .bitOr, a, b => .ok (bitwise (· ||| ·) a b)
  | .bitAnd, a, b => .ok (bitwise (· &&& ·) a b)
  | .bitXor, a, b => .ok (bitwise (· ^^^ ·) a b)
  | .shiftRight, a, b => shift (· >>> ·) a b
  | .shiftLeft, a, b => shift (· <<< ·) a b
  | .ge, a, b => .ok (truth (b ≤ a))
  | .gt, a, b => .ok (truth (b < a))
  | .le, a, b => .ok (truth (a ≤ b))
  | .lt, a, b => .ok (truth (a < b))
  | .ne, a, b => .ok (truth (a != b))
  | .eq, a, b => .ok (truth (a == b))

/-- What follows the matching mark, if there is one. Conditionals on the way are passed over. -/
def skipTo (mark : Instruction) : Nat → List Instruction → Option (List Instruction)
  | _, [] => none
  | nesting, i :: rest =>
    if i = .branchIf then skipTo mark (nesting + 1) rest
    else if i = mark then
      match nesting with
      | 0 => some rest
      | nesting + 1 => skipTo mark nesting rest
    else skipTo mark nesting rest

theorem length_of_skipTo {mark : Instruction} {nesting : Nat} {code rest : List Instruction}
    (h : skipTo mark nesting code = some rest) : rest.length < code.length := by
  induction code generalizing nesting with
  | nil => simp [skipTo] at h
  | cons i code ih =>
    unfold skipTo at h
    split at h
    · exact Nat.lt_succ_of_lt (ih h)
    · split at h
      · split at h
        · cases h; exact Nat.lt_succ_self _
        · exact Nat.lt_succ_of_lt (ih h)
      · exact Nat.lt_succ_of_lt (ih h)

structure Machine where
  code : List Instruction
  stack : List Float := []
  result : Float := 0.0

namespace Machine

inductive Next
  | run (m : Machine)
  | halt (value : Float)
  | fault (f : Fault)

def ended (m : Machine) : Float := m.stack.head?.getD m.result

def jump (m : Machine) (mark : Instruction) : Next :=
  match skipTo mark 0 m.code with
  | some code => .run { m with code }
  -- the rest of the code is passed over, so no expression ends any more
  | none => .halt m.result

def push (m : Machine) (x : Float) : Next := .run { m with stack := x :: m.stack }

def step (values : List Float) (m : Machine) : Next :=
  match m.code with
  | [] => .halt m.ended
  | i :: code =>
    match i, m.stack with
    | .fetch v, _ => push { m with code } (values.getD v.val 0.0)
    | .literal x, _ => push { m with code } x.toFloat
    | .constant c, _ => push { m with code } c.value
    | .unary f, a :: stack => push { m with code, stack } (f.apply a)
    | .binary f, b :: a :: stack => match f.apply a b with
      | .ok x => push { m with code, stack } x
      | .error e => .fault e
    | .branchIf, a :: stack =>
      if a == 0.0 then jump { m with code, stack } .branchElse else .run { m with code, stack }
    | .branchElse, _ => jump { m with code } .branchEnd
    | .branchEnd, _ => .run { m with code }
    | .endExpr, _ => .run { code, stack := [], result := m.ended }
    | .unary _, [] | .binary _, _ | .branchIf, [] => .fault .emptyStack

theorem length_of_jump {m n : Machine} {mark : Instruction} (h : m.jump mark = .run n) :
    n.code.length < m.code.length := by
  unfold jump at h
  split at h
  · next code hc => cases h; exact length_of_skipTo hc
  · cases h

theorem length_of_step {values : List Float} {m n : Machine} (h : m.step values = .run n) :
    n.code.length < m.code.length := by
  unfold step at h
  split at h
  · cases h
  · next i code hc =>
    rw [hc, List.length_cons]
    split at h
    · cases h; exact Nat.lt_succ_self _
    · cases h; exact Nat.lt_succ_self _
    · cases h; exact Nat.lt_succ_self _
    · cases h; exact Nat.lt_succ_self _
    · split at h
      · cases h; exact Nat.lt_succ_self _
      · cases h
    · split at h
      · exact Nat.lt_succ_of_lt (length_of_jump h)
      · cases h; exact Nat.lt_succ_self _
    · exact Nat.lt_succ_of_lt (length_of_jump h)
    · cases h; exact Nat.lt_succ_self _
    · cases h; exact Nat.lt_succ_self _
    all_goals cases h

def run (values : List Float) (m : Machine) : Except Fault Float :=
  match _h : m.step values with
  | .run n => n.run values
  | .halt x => .ok x
  | .fault f => .error f
termination_by m.code.length
decreasing_by exact length_of_step _h

end Machine

def Program.evaluate (p : Program) (values : List Float) : Except Fault Float :=
  ({ code := p.body : Machine }).run values

end FormulaCode
