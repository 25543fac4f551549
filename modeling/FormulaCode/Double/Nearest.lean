import FormulaCode.Double.Basic

namespace FormulaCode.Double

def infinityBits : Nat := 2047 * Nat.pow 2 52

def infinity : Double := ⟨UInt64.ofNat infinityBits⟩

def roundQuotient (n d : Nat) : Nat :=
  let q := n / d
  let r := n % d
  if d < 2 * r || (2 * r == d && q % 2 == 1) then q + 1 else q

def gridExponent (n d : Nat) : Int :=
  let q : Int := n.log2 - d.log2 - 52
  let short := n * Nat.pow 2 (-q).toNat < d * Nat.pow 2 (52 + q.toNat)
  max (if short then q - 1 else q) (-1074)

/-- The double nearest to `n / d`. In this layout `m * 2 ^ q` has the bits `(q + 1074) * 2 ^ 52 + m`,
also when rounding carries `m` to `2 ^ 53`, and everything from infinity on is infinity. -/
def ofRatio (n d : Nat) : Double :=
  let q := gridExponent n d
  let m := roundQuotient (n * Nat.pow 2 (-q).toNat) (d * Nat.pow 2 q.toNat)
  ⟨UInt64.ofNat (min ((q + 1074).toNat * Nat.pow 2 52 + m) infinityBits)⟩

/-- The double nearest to `m * 10 ^ e`. Numbers out of range are settled by their size alone: from
`10 ^ 310` on they are infinite, and below `2 ^ (-1075)` they are zero. -/
def ofDecimal (m : Nat) (e : Int) : Double :=
  if m = 0 then zero
  else if 310 ≤ e then infinity
  else if m.log2 + 1 + 3 * e < -1075 then zero
  else ofRatio (m * Nat.pow 10 e.toNat) (Nat.pow 10 (-e).toNat)

end FormulaCode.Double
