/-! Binary floating point numbers of 64 bits, as exact integers. A finite number is a sign
and a count of steps of 2 ^ -1074, the smallest positive number. -/

namespace DesignSystem

/-- The powers of natural numbers. They are chosen by name, so that they stay the same where
another library brings powers of its own. -/
@[reducible] def natPow : Pow Nat Nat :=
  instPowNat

attribute [local instance] natPow

/-- The number of steps in one. -/
def stepsPerOne : Nat :=
  2 ^ (1074 : Nat)

/-- A count of steps with at most 53 significant bits, below 2 ^ 1024 in value. -/
def Representable (steps : Nat) : Prop :=
  2 ^ (steps.log2 - 52) ∣ steps ∧ steps.log2 < 2098

instance (steps : Nat) : Decidable (Representable steps) :=
  inferInstanceAs (Decidable (_ ∧ _))

structure Magnitude where
  steps : Nat
  representable : Representable steps
  deriving DecidableEq

inductive Binary64 where
  | nan
  | infinite (negative : Bool)
  | finite (negative : Bool) (magnitude : Magnitude)
  deriving DecidableEq

/-- The whole number nearest to a quotient. A half goes to the even neighbour. -/
def roundHalfEven (num den : Nat) : Nat :=
  let q := num / den
  let r := num % den
  if 2 * r < den then q else if den < 2 * r then q + 1 else q + q % 2

theorem le_roundHalfEven (num den : Nat) : num / den ≤ roundHalfEven num den := by
  unfold roundHalfEven
  dsimp only
  split
  · exact Nat.le_refl _
  · split <;> omega

theorem roundHalfEven_le (num den : Nat) : roundHalfEven num den ≤ num / den + 1 := by
  unfold roundHalfEven
  dsimp only
  split
  · omega
  · split <;> omega

/-- The spacing, in steps, of the representable numbers around a quotient of steps. -/
def spacing (num den : Nat) : Nat :=
  2 ^ ((num / den).log2 - 52)

/-- The count of steps nearest to a quotient that has at most 53 significant bits. -/
def nearestSteps (num den : Nat) : Nat :=
  roundHalfEven num (den * spacing num den) * spacing num den

theorem log2_of_bounds {n k : Nat} (hl : 2 ^ k ≤ n) (hr : n < 2 ^ (k + 1)) : n.log2 = k := by
  have h0 : n ≠ 0 := by
    have := Nat.two_pow_pos k
    omega
  have h1 : n.log2 < k + 1 := (Nat.log2_lt h0).mpr hr
  have h2 : ¬ n.log2 < k := fun h => by
    have := (Nat.log2_lt h0).mp h
    omega
  omega

/-- A number of 53 bits, or 2 ^ 53 itself, stays within 53 bits when it is scaled by a
power of two. -/
theorem dvd_of_scaled {m e : Nat} (hl : e = 0 ∨ 2 ^ (52 : Nat) ≤ m) (hr : m ≤ 2 ^ (53 : Nat)) :
    2 ^ ((m * 2 ^ e).log2 - 52) ∣ m * 2 ^ e := by
  rcases Nat.lt_or_eq_of_le hr with hlt | rfl
  · rcases hl with rfl | hm
    · have : m.log2 - 52 = 0 := by
        by_cases h0 : m = 0
        · subst h0; rfl
        · have := (Nat.log2_lt h0).mpr hlt
          omega
      simp [this]
    · have : (m * 2 ^ e).log2 = 52 + e := by
        apply log2_of_bounds
        · rw [Nat.pow_add]
          exact Nat.mul_le_mul_right _ hm
        · rw [show 52 + e + 1 = 53 + e by omega, Nat.pow_add]
          exact Nat.mul_lt_mul_of_pos_right hlt (Nat.two_pow_pos e)
      rw [this, show 52 + e - 52 = e by omega]
      exact Nat.dvd_mul_left _ _
  · rw [← Nat.pow_add, Nat.log2_two_pow]
    exact Nat.pow_dvd_pow 2 (by omega)

theorem nearestSteps_dvd (num den : Nat) :
    2 ^ ((nearestSteps num den).log2 - 52) ∣ nearestSteps num den := by
  have hq : num / (den * spacing num den) = num / den / spacing num den :=
    (Nat.div_div_eq_div_mul num den _).symm
  have hlow := le_roundHalfEven num (den * spacing num den)
  have hhigh := roundHalfEven_le num (den * spacing num den)
  rw [hq] at hlow hhigh
  have hbelow : num / den / spacing num den < 2 ^ 53 := by
    unfold spacing
    rw [Nat.div_lt_iff_lt_mul (Nat.two_pow_pos _), ← Nat.pow_add]
    exact Nat.lt_of_lt_of_le Nat.lt_log2_self (Nat.pow_le_pow_right (by omega) (by omega))
  refine dvd_of_scaled ?_ (by omega)
  rcases Nat.eq_zero_or_pos ((num / den).log2 - 52) with h | h
  · exact Or.inl h
  · right
    refine Nat.le_trans ?_ hlow
    unfold spacing
    rw [Nat.le_div_iff_mul_le (Nat.two_pow_pos _), ← Nat.pow_add,
      show 52 + ((num / den).log2 - 52) = (num / den).log2 by omega]
    refine Nat.log2_self_le fun h0 => ?_
    rw [h0] at h
    simp at h

namespace Magnitude

def zero : Magnitude :=
  ⟨0, by decide⟩

/-- The whole part. -/
def floor (m : Magnitude) : Nat :=
  m.steps / stepsPerOne

def isWhole (m : Magnitude) : Bool :=
  m.steps % stepsPerOne == 0

end Magnitude

namespace Binary64

/-- The number nearest to a quotient. A half goes to the neighbour with an even last bit. -/
def ofRatio (negative : Bool) (num den : Nat) : Binary64 :=
  let steps := nearestSteps (num * stepsPerOne) den
  if h : steps.log2 < 2098 then .finite negative ⟨steps, nearestSteps_dvd _ _, h⟩
  else .infinite negative

def ofNat (n : Nat) : Binary64 :=
  ofRatio false n 1

def isFinite : Binary64 → Bool
  | .finite .. => true
  | _ => false

/-- Equality of values: zero has two signs, and `nan` equals nothing. -/
def same : Binary64 → Binary64 → Bool
  | .infinite a, .infinite b => a == b
  | .finite a m, .finite b n => m.steps == n.steps && (a == b || m.steps == 0)
  | _, _ => false

end Binary64

end DesignSystem
