import DesignSystem.Binary64.Basic

/-! Decimal numerals and the number of 64 bits nearest to each. -/

namespace DesignSystem

attribute [local instance] natPow

/-- The decimal `digits * 10 ^ exponent`. -/
structure Decimal where
  digits : Nat
  exponent : Int

namespace Decimal

/-- The place of the decimal point, counted from the first digit. Without a leading zero
the decimal lies below `10 ^ point` and not below `10 ^ (point - 1)`. -/
def point (d : Decimal) : Int :=
  (Nat.toDigits 10 d.digits).length + d.exponent

/-- The digits up to the last one that is not zero. -/
def figures (d : Decimal) : List Char :=
  ((Nat.toDigits 10 d.digits).reverse.dropWhile (· == '0')).reverse

end Decimal

def readSign : List Char → Bool × List Char
  | '-' :: cs => (true, cs)
  | '+' :: cs => (false, cs)
  | cs => (false, cs)

/-- The exponent part that ends a numeral. It may be missing. -/
def readExponent : List Char → Option Int
  | [] => some 0
  | c :: cs =>
    let (negative, ds) := readSign cs
    if (c == 'e' || c == 'E') && !ds.isEmpty && ds.all Char.isDigit then
      let n : Int := Nat.ofDigitChars 10 ds 0
      some (if negative then -n else n)
    else none

/-- A numeral without sign: digits with at most one point among or around them, and an
exponent. The digits are ASCII digits, and there is at least one. -/
def Decimal.read? (cs : List Char) : Option Decimal :=
  let whole := cs.takeWhile Char.isDigit
  let (fraction, rest) :=
    match cs.dropWhile Char.isDigit with
    | '.' :: r => (r.takeWhile Char.isDigit, r.dropWhile Char.isDigit)
    | r => ([], r)
  if whole.isEmpty && fraction.isEmpty then none
  else
    (readExponent rest).map fun e =>
      ⟨Nat.ofDigitChars 10 (whole ++ fraction) 0, e - fraction.length⟩

namespace Binary64

/-- The number nearest to a decimal. From 10 ^ 310 on everything overflows, and everything
below 10 ^ -324 is nearest to zero, so no power of ten beyond these is formed. -/
def ofDecimal (negative : Bool) (d : Decimal) : Binary64 :=
  if d.digits = 0 ∨ d.point < -323 then .finite negative .zero
  else if 310 < d.point then .infinite negative
  else ofRatio negative (d.digits * 10 ^ d.exponent.toNat) (10 ^ (-d.exponent).toNat)

/-- Reads a numeral with an optional sign, or one of the words for infinity and `nan` in
any case. -/
def read? (cs : List Char) : Option Binary64 :=
  let (negative, rest) := readSign cs
  let word := rest.map Char.toLower
  if word = ['n', 'a', 'n'] then some .nan
  else if word = ['i', 'n', 'f'] ∨ word = ['i', 'n', 'f', 'i', 'n', 'i', 't', 'y'] then
    some (.infinite negative)
  else (Decimal.read? rest).map (ofDecimal negative)

end Binary64

end DesignSystem
