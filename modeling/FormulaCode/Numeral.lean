import FormulaCode.Double.Nearest
import FormulaCode.Text.Offset

namespace FormulaCode

structure Exponent where
  sign : Option Char
  digits : List Char
  deriving DecidableEq, Repr

structure Numeral where
  whole : List Char
  fraction : Option (List Char)
  exponent : Option Exponent
  deriving DecidableEq, Repr

def Exponent.text (e : Exponent) : List Char := 'E' :: e.sign.toList ++ e.digits

/-- The size of an exponent. Once it has reached `2 ^ 16`, further digits are passed over. -/
def Exponent.magnitude (e : Exponent) : Nat :=
  e.digits.foldl (fun n c => if n < 65536 then 10 * n + (c.toNat - 48) else n) 0

def Exponent.value (e : Exponent) : Int :=
  if e.sign = some '-' then -(e.magnitude : Int) else e.magnitude

def Exponent.scan : List Char → Option Exponent × List Char
  | 'E' :: '+' :: cs => (some ⟨some '+', cs.takeWhile Text.isDigit⟩, cs.dropWhile Text.isDigit)
  | 'E' :: '-' :: cs => (some ⟨some '-', cs.takeWhile Text.isDigit⟩, cs.dropWhile Text.isDigit)
  | 'E' :: cs => (some ⟨none, cs.takeWhile Text.isDigit⟩, cs.dropWhile Text.isDigit)
  | cs => (none, cs)

inductive LiteralPolicy
  | strict
  | zeroOnError
  deriving DecidableEq, Repr

namespace Numeral

def text (n : Numeral) : List Char :=
  n.whole ++ n.fraction.elim [] ('.' :: ·) ++ n.exponent.elim [] Exponent.text

def scanFraction : List Char → Option (List Char) × List Char
  | '.' :: cs => (some (cs.takeWhile Text.isDigit), cs.dropWhile Text.isDigit)
  | cs => (none, cs)

def scan (cs : List Char) : Numeral × List Char :=
  let (fraction, afterFraction) := scanFraction (cs.dropWhile Text.isDigit)
  let (exponent, rest) := Exponent.scan afterFraction
  (⟨cs.takeWhile Text.isDigit, fraction, exponent⟩, rest)

def scanAt? (cs : List Char) (offset : Nat) : Option Numeral :=
  (Text.dropBytes? offset cs).map fun rest => (scan rest).1

def fractionDigits (n : Numeral) : List Char := n.fraction.getD []

def isComplete (n : Numeral) : Bool :=
  !(n.whole ++ n.fractionDigits).isEmpty && n.exponent.all (!·.digits.isEmpty)

def value? (n : Numeral) : Option Double :=
  if n.isComplete then
    let digits := n.whole ++ n.fractionDigits
    let mantissa := digits.foldl (fun m c => 10 * m + (c.toNat - 48)) 0
    let power : Int := n.exponent.elim 0 Exponent.value - n.fractionDigits.length
    some (Double.ofDecimal mantissa power)
  else none

def valueUnder (policy : LiteralPolicy) (n : Numeral) : Option Double :=
  match n.value?, policy with
  | some x, _ => some x
  | none, .strict => none
  | none, .zeroOnError => some .zero

end Numeral

end FormulaCode
