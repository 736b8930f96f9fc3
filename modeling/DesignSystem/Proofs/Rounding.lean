import DesignSystem.Binary64.Shortest
import Mathlib.Tactic.Ring

/-! The number nearest to a decimal depends on the value of the decimal alone, not on how
the value is split into digits and an exponent. The shortest decimal of a number reads back
as that number. -/

namespace DesignSystem

theorem roundHalfEven_mul_right (num den : Nat) {c : Nat} (hc : 0 < c) :
    roundHalfEven (num * c) (den * c) = roundHalfEven num den := by
  have hl : 2 * (num % den * c) < den * c ↔ 2 * (num % den) < den := by
    rw [← Nat.mul_assoc, Nat.mul_lt_mul_right hc]
  have hr : den * c < 2 * (num % den * c) ↔ den < 2 * (num % den) := by
    rw [← Nat.mul_assoc, Nat.mul_lt_mul_right hc]
  simp only [roundHalfEven, Nat.mul_div_mul_right _ _ hc, Nat.mul_mod_mul_right, hl, hr]

theorem nearestSteps_mul_right (num den : Nat) {c : Nat} (hc : 0 < c) :
    nearestSteps (num * c) (den * c) = nearestSteps num den := by
  have hs : spacing (num * c) (den * c) = spacing num den := by
    rw [spacing, spacing, Nat.mul_div_mul_right _ _ hc]
  rw [nearestSteps, nearestSteps, hs, Nat.mul_right_comm, roundHalfEven_mul_right _ _ hc]

theorem nearestSteps_congr {a b c d : Nat} (hb : 0 < b) (hd : 0 < d) (h : a * d = c * b) :
    nearestSteps a b = nearestSteps c d := by
  rw [← nearestSteps_mul_right a b hd, h, Nat.mul_comm b d, nearestSteps_mul_right c d hb]

theorem nearestSteps_of_representable {steps : Nat} (h : Representable steps) :
    nearestSteps steps 1 = steps := by
  have hs : spacing steps 1 = 2 ^ (steps.log2 - 52) := by rw [spacing, Nat.div_one]
  have hm : steps % spacing steps 1 = 0 := Nat.mod_eq_zero_of_dvd (hs ▸ h.1)
  have hp : 0 < spacing steps 1 := hs ▸ Nat.two_pow_pos _
  have hr : roundHalfEven steps (spacing steps 1) = steps / spacing steps 1 := by
    simp [roundHalfEven, hm, hp]
  rw [nearestSteps, Nat.one_mul, hr]
  exact Nat.div_mul_cancel (hs ▸ h.1)

namespace Binary64

theorem ofRatio_congr (negative : Bool) {a b c d : Nat} (hb : 0 < b) (hd : 0 < d)
    (h : a * d = c * b) : ofRatio negative a b = ofRatio negative c d := by
  have hs : nearestSteps (a * stepsPerOne) b = nearestSteps (c * stepsPerOne) d := by
    apply nearestSteps_congr hb hd
    rw [Nat.mul_right_comm, h, Nat.mul_right_comm]
  simp only [ofRatio, hs]

theorem ofRatio_exact (negative : Bool) {num den : Nat} (m : Magnitude) (hd : 0 < den)
    (h : num * stepsPerOne = m.steps * den) : ofRatio negative num den = .finite negative m := by
  have hs : nearestSteps (num * stepsPerOne) den = m.steps := by
    rw [nearestSteps_congr hd Nat.one_pos (c := m.steps) (by rw [Nat.mul_one, h])]
    exact nearestSteps_of_representable m.representable
  simp only [ofRatio, hs, m.representable.2, dif_pos]

end Binary64

theorem toDigits_mul_pow {n : Nat} (hn : 0 < n) (k : Nat) :
    Nat.toDigits 10 (n * 10 ^ k) = Nat.toDigits 10 n ++ List.replicate k '0' := by
  induction k with
  | zero => simp
  | succ k ih =>
    have hp : 0 < n * 10 ^ k := Nat.mul_pos hn (Nat.pow_pos (by decide))
    have hh := Nat.toDigits_append_toDigits (b := 10) (d := 0) (by decide) hp (by decide)
    rw [Nat.toDigits_zero, ih] at hh
    rw [List.replicate_succ', ← List.append_assoc, hh]
    congr 1
    ring

namespace Binary64

/-- Digits with zeros behind them and a smaller exponent make the same number. -/
theorem ofDecimal_mul_pow (negative : Bool) (n k : Nat) (e : Int) :
    ofDecimal negative ⟨n * 10 ^ k, e⟩ = ofDecimal negative ⟨n, e + k⟩ := by
  rcases Nat.eq_zero_or_pos n with rfl | hn
  · simp [ofDecimal]
  · have hp : Decimal.point ⟨n * 10 ^ k, e⟩ = Decimal.point ⟨n, e + k⟩ := by
      simp only [Decimal.point, toDigits_mul_pow hn, List.length_append, List.length_replicate]
      omega
    have hz : n * 10 ^ k = 0 ↔ n = 0 := by simp
    have hr : ofRatio negative (n * 10 ^ k * 10 ^ e.toNat) (10 ^ (-e).toNat) =
        ofRatio negative (n * 10 ^ (e + k).toNat) (10 ^ (-(e + k)).toNat) := by
      apply ofRatio_congr negative (Nat.pow_pos (by decide)) (Nat.pow_pos (by decide))
      have he : k + e.toNat + (-(e + k)).toNat = (e + k).toNat + (-e).toNat := by omega
      rw [Nat.mul_assoc, Nat.mul_assoc, Nat.mul_assoc, ← Nat.pow_add, ← Nat.pow_add,
        ← Nat.pow_add, ← Nat.add_assoc, he]
    simp only [ofDecimal, hp, hz, hr]

end Binary64

theorem Decimal.readsBack_iff {d : Decimal} {m : Magnitude} :
    d.readsBack m ↔ ∀ negative, Binary64.ofDecimal negative d = .finite negative m := by
  rw [Decimal.readsBack, beq_iff_eq]
  refine ⟨fun h negative => ?_, fun h => h false⟩
  unfold Binary64.ofDecimal Binary64.ofRatio at h ⊢
  dsimp only at h ⊢
  split_ifs at h ⊢ <;> simp_all

namespace Magnitude

theorem readsBack_of_onGrid? {m : Magnitude} {tie : Tie} {exponent : Int} {d : Decimal}
    (h : m.onGrid? tie exponent = some d) : d.readsBack m := by
  have hif : ∀ (b : Bool) (x y : Decimal), x.readsBack m → y.readsBack m →
      (if b then x else y).readsBack m := by
    intro b x y hx hy
    cases b with
    | true => exact hx
    | false => exact hy
  unfold onGrid? at h
  dsimp only at h
  split at h
  · rename_i hb ha
    exact Option.some.inj h ▸ hif _ _ _ ha hb
  · rename_i hb _
    exact Option.some.inj h ▸ hb
  · rename_i _ ha
    exact Option.some.inj h ▸ ha
  · cases h

theorem length_toDigits_scaled {n scale low bits high : Nat} (hn : n ≠ 0) (hb : n.log2 < bits)
    (hl : 0 < low) (hlow : 10 ^ low ≤ scale) (hh : 0 < high)
    (hhigh : 2 ^ bits * scale ≤ 10 ^ high) :
    low < (Nat.toDigits 10 (n * scale)).length ∧ (Nat.toDigits 10 (n * scale)).length ≤ high := by
  have hs : 0 < scale := Nat.lt_of_lt_of_le (Nat.pow_pos (by decide)) hlow
  have hbits : n < 2 ^ bits := (Nat.log2_lt hn).mp hb
  have hup : n * scale < 10 ^ high :=
    Nat.lt_of_lt_of_le (Nat.mul_lt_mul_of_pos_right hbits hs) hhigh
  have hdown : 10 ^ low ≤ n * scale :=
    Nat.le_trans hlow (Nat.le_mul_of_pos_left _ (Nat.pos_of_ne_zero hn))
  refine ⟨?_, (Nat.length_toDigits_le_iff (by decide) hh).mpr hup⟩
  rw [← Nat.not_le, Nat.length_toDigits_le_iff (by decide) hl]
  omega

theorem exponent_exactly (m : Magnitude) : m.exactly.exponent = -1074 := rfl

/-- The digits of a positive number reach at least to the place of 10 ^ -324 and at most to
that of 10 ^ 309. -/
theorem point_exactly {m : Magnitude} (h : m.steps ≠ 0) :
    -323 ≤ m.exactly.point ∧ m.exactly.point ≤ 310 := by
  have hh : 750 < (Nat.toDigits 10 m.exactly.digits).length ∧
      (Nat.toDigits 10 m.exactly.digits).length ≤ 1384 :=
    length_toDigits_scaled h m.representable.2 (by decide) (by decide +kernel) (by decide)
      (by decide +kernel)
  rw [Decimal.point, exponent_exactly]
  omega

theorem mul_pow_five (n k : Nat) : n * 5 ^ k * 2 ^ k = n * 10 ^ k := by
  rw [Nat.mul_assoc, ← Nat.mul_pow]

theorem readsBack_exactly {m : Magnitude} (h : m.steps ≠ 0) : m.exactly.readsBack m := by
  have hscale : (-(-1074 : Int)).toNat = 1074 := rfl
  obtain ⟨hl, hr⟩ := point_exactly h
  have hne : m.exactly.digits ≠ 0 := by
    intro h0
    rw [Decimal.point, exponent_exactly, h0, Nat.toDigits_zero, List.length_singleton] at hl
    omega
  rw [Decimal.readsBack_iff]
  intro negative
  rw [Binary64.ofDecimal, if_neg (by omega), if_neg (by omega), exponent_exactly]
  refine Binary64.ofRatio_exact negative m (Nat.pow_pos (by decide)) ?_
  rw [Int.toNat_of_nonpos (by decide), Nat.pow_zero, Nat.mul_one, hscale, exactly,
    stepsPerOne]
  -- The identity holds for every exponent, and with a variable no power is computed.
  generalize 1074 = k
  exact mul_pow_five m.steps k

theorem readsBack_shortest (m : Magnitude) (tie : Tie) : (m.shortest tie).readsBack m := by
  by_cases h : m.steps = 0
  · rw [shortest, if_pos h, Decimal.readsBack]
    obtain ⟨steps, hr⟩ := m
    subst h
    rfl
  · rw [shortest, if_neg h]
    -- What the search finds has been tried, which leaves the case that it finds nothing.
    cases hf : (List.range 17).findSome? fun n : Nat => m.onGrid? tie (m.leading - n) with
    | none => exact readsBack_exactly h
    | some d =>
      obtain ⟨n, -, hn⟩ := List.exists_of_findSome?_eq_some hf
      exact readsBack_of_onGrid? hn

end Magnitude

end DesignSystem
