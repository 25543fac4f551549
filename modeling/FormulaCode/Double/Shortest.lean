import FormulaCode.Double.Basic

namespace FormulaCode

structure Decimal where
  digits : Nat
  exponent : Int
  deriving DecidableEq, Repr

inductive Tie
  | up | toEven
  deriving DecidableEq, Repr

namespace Double

/-- The numbers that round to a double: its value `centre / scale`, between `lower / scale` and
`upper / scale`, the ends included if `closed`. -/
structure Interval where
  lower : Nat
  centre : Nat
  upper : Nat
  scale : Nat
  closed : Bool

def Interval.contains (i : Interval) (n unit : Nat) : Bool :=
  if i.closed then i.lower * unit ≤ n * i.scale && n * i.scale ≤ i.upper * unit
  else i.lower * unit < n * i.scale && n * i.scale < i.upper * unit

/-- The interval of the magnitude of a finite double. Below a power of two the neighbour is half as
far as above it. -/
def interval (x : Double) : Interval :=
  let normal := x.exponentField != 0
  let m := if normal then Nat.pow 2 52 + x.fractionField else x.fractionField
  let q : Int := (if normal then (x.exponentField : Int) else 1) - 1077
  let below := if x.fractionField == 0 && 1 < x.exponentField then 1 else 2
  let s := Nat.pow 2 q.toNat
  ⟨(4 * m - below) * s, 4 * m * s, (4 * m + 2) * s, Nat.pow 2 (-q).toNat, m % 2 == 0⟩

def Interval.onGrid? (i : Interval) (tie : Tie) (k : Int) : Option Decimal :=
  let unit := Nat.pow 10 (-k).toNat
  let step := i.scale * Nat.pow 10 k.toNat
  let low := i.centre * unit / step
  let inside (n : Nat) : Bool := i.contains (n * Nat.pow 10 k.toNat) unit
  let past := 2 * (i.centre * unit % step)
  let lowIsNearer := past < step || (past == step && tie == .toEven && low % 2 == 0)
  if inside low && (lowIsNearer || !inside (low + 1)) then some ⟨low, k⟩
  else if inside (low + 1) then some ⟨low + 1, k⟩
  else none

/-- The exponents of the grids to try, the coarsest first. The finest grid of a double has 17 digits
of the least normal one. -/
def gridExponents : List Int := (List.range 640).map fun i : Nat => 309 - (i : Int)

def shortest (tie : Tie) (x : Double) : Decimal :=
  if x.exponentField == 0 && x.fractionField == 0 then ⟨0, 0⟩
  else (gridExponents.findSome? (x.interval.onGrid? tie)).getD ⟨0, 0⟩

end Double

end FormulaCode
