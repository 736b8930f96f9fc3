import DesignSystem.Binary64.Decimal

/-! The shortest decimal that reads back as a given number, and the two ways in which it
is laid out: without exponent, and as a JSON number. -/

namespace DesignSystem

attribute [local instance] natPow

/-- Which of two shortest decimals is taken when the number lies midway between them. -/
inductive Tie where
  | up
  | even

def Decimal.readsBack (d : Decimal) (m : Magnitude) : Bool :=
  Binary64.ofDecimal false d == .finite false m

namespace Magnitude

/-- The number in units of a power of ten, as a quotient. -/
def inUnits (m : Magnitude) (exponent : Int) : Nat × Nat :=
  (m.steps * 10 ^ (-exponent).toNat, stepsPerOne * 10 ^ exponent.toNat)

/-- The exponent of the leading decimal digit. The least positive number exceeds
10 ^ -324, so in units of that every number has a whole part. -/
def leading (m : Magnitude) : Int :=
  (Nat.toDigits 10 (m.steps * 10 ^ (324 : Nat) / stepsPerOne)).length - 325

/-- The neighbour of the number among the multiples of a power of ten that reads back as
the number, the nearer one if both do. -/
def onGrid? (m : Magnitude) (tie : Tie) (exponent : Int) : Option Decimal :=
  let (num, den) := m.inUnits exponent
  let below : Decimal := ⟨num / den, exponent⟩
  let above : Decimal := ⟨num / den + 1, exponent⟩
  let roundsUp :=
    match compare (2 * (num % den)) den with
    | .lt => false
    | .gt => true
    | .eq =>
      match tie with
      | .up => true
      | .even => num / den % 2 == 1
  match below.readsBack m, above.readsBack m with
  | true, true => some (if roundsUp then above else below)
  | true, false => some below
  | false, true => some above
  | false, false => none

/-- All digits of the number. -/
def exactly (m : Magnitude) : Decimal :=
  ⟨m.steps * 5 ^ (1074 : Nat), -1074⟩

/-- The decimal of fewest digits that reads back as the number. Seventeen always do. -/
def shortest (m : Magnitude) (tie : Tie) : Decimal :=
  if m.steps = 0 then ⟨0, 0⟩
  else
    ((List.range 17).findSome? fun n : Nat => m.onGrid? tie (m.leading - n)).getD m.exactly

end Magnitude

/-- Digits with the decimal point at a place that may lie before or after all of them. -/
def positional (figures : List Char) (point : Int) : List Char :=
  let whole := point.toNat
  if point ≤ 0 then '0' :: '.' :: List.replicate (-point).toNat '0' ++ figures
  else if figures.length ≤ whole then
    figures ++ List.replicate (whole - figures.length) '0'
  else figures.take whole ++ '.' :: figures.drop whole

/-- Digits with the decimal point after the first one, and an exponent with its sign. -/
def scientific (figures : List Char) (point : Int) : List Char :=
  let exponent := point - 1
  figures.take 1 ++ (if figures.length ≤ 1 then [] else '.' :: figures.drop 1) ++
    'e' :: (if exponent < 0 then '-' else '+') :: Nat.toDigits 10 exponent.natAbs

def signed (negative : Bool) (cs : List Char) : List Char :=
  if negative then '-' :: cs else cs

namespace Binary64

/-- The number in a document: never with an exponent, and with the greater of two shortest
decimals that are equally near. -/
def plain : Binary64 → List Char
  | nan => ['N', 'a', 'N']
  | infinite negative => signed negative ['i', 'n', 'f']
  | finite negative m =>
    let d := m.shortest .up
    signed negative (positional d.figures d.point)

/-- The number in JSON, which has none for infinity and `nan`. A whole number below 10 ^ 15
is an integer. Any other is written out from 10 ^ -5 up to 10 ^ 16, with a fraction, and
with an exponent beyond; the even one is taken of two shortest decimals that are equally
near. -/
def json? : Binary64 → Option (List Char)
  | finite negative m =>
    if m.isWhole && m.floor < 10 ^ (15 : Nat) then
      some (signed (negative && m.floor != 0) (Nat.toDigits 10 m.floor))
    else
      let d := m.shortest .even
      let cs := d.figures
      let p := d.point
      some <| signed negative <|
        if p < -4 ∨ 16 < p then scientific cs p
        else if cs.length ≤ p then positional cs p ++ ['.', '0']
        else positional cs p
  | _ => none

end Binary64

end DesignSystem
