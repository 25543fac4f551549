import FormulaCode.Double.Shortest

/-! Decimal notations of doubles: positional for listings, with an exponent where data needs one. -/

namespace FormulaCode.Double

def positional (digits : List Char) (exponent : Int) (wholeMark : List Char) : List Char :=
  let zeros (n : Int) := List.replicate n.toNat '0'
  let whole := (digits.length : Int) + exponent
  if 0 ≤ exponent then digits ++ zeros exponent ++ wholeMark
  else if 0 < whole then digits.take whole.toNat ++ '.' :: digits.drop whole.toNat
  else '0' :: '.' :: zeros (-whole) ++ digits

def scientific (digits : List Char) (exponent : Int) : List Char :=
  let power := exponent + digits.length - 1
  let fraction := match digits.drop 1 with
    | [] => []
    | rest => '.' :: rest
  let sign := if power < 0 then '-' else '+'
  digits.take 1 ++ fraction ++ 'e' :: sign :: Nat.toDigits 10 power.natAbs

def signed (x : Double) (text : List Char) : String :=
  String.ofList (if x.negative then '-' :: text else text)

/-- The notation of listings and records: never an exponent, no point after a whole number. Of two
equally near decimals it takes the upper. -/
def display (x : Double) : String :=
  if x.isNaN then "NaN"
  else if x.isInfinite then x.signed "inf".toList
  else
    let d := x.shortest .up
    x.signed (positional (Nat.toDigits 10 d.digits) d.exponent [])

/-- The notation of data: a point always, an exponent outside `10 ^ (-5)` to `10 ^ 16`. Of two equally
near decimals it takes the even one. A double that is not finite has none. -/
def numeral? (x : Double) : Option String :=
  if x.isNaN || x.isInfinite then none
  else
    let d := x.shortest .toEven
    let digits := Nat.toDigits 10 d.digits
    let power := d.exponent + digits.length - 1
    some <| x.signed <|
      if d.digits == 0 || (-5 ≤ power && power < 16) then positional digits d.exponent ".0".toList
      else scientific digits d.exponent

end FormulaCode.Double
