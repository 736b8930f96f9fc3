import DesignSystem.Proofs.JsonText
import DesignSystem.Proofs.Numeral

/-! A finite number in JSON. Whether it stands as an integer, written out or with an exponent,
its numeral reads back as the number, up to the sign of zero. So one numeral stands for one
number. -/

namespace DesignSystem

theorem isNumeralChar_of_isDigit {c : Char} (h : c.isDigit = true) : isNumeralChar c := by
  simp [isNumeralChar, h]

theorem isNumeral_signed {negative : Bool} {cs : List Char} (h : IsNumeral cs) :
    IsNumeral (signed negative cs) := by
  cases negative with
  | false => exact h
  | true =>
    refine ⟨List.cons_ne_nil _ _, fun c hc => ?_⟩
    obtain rfl | hc := List.mem_cons.mp hc
    · rfl
    · exact h.2 c hc

theorem isNumeral_toDigits (n : Nat) : IsNumeral (Nat.toDigits 10 n) := by
  refine ⟨Nat.toDigits_ne_nil, fun c hc => isNumeralChar_of_isDigit ?_⟩
  exact Nat.isDigit_of_mem_toDigits (by decide) (by decide) hc

theorem toDigits_inj {m n : Nat} (h : Nat.toDigits 10 m = Nat.toDigits 10 n) : m = n := by
  rw [← Nat.ofDigitChars_ten_toDigits (n := m), h, Nat.ofDigitChars_ten_toDigits]

/-- A numeral without sign that stands for figures with the point at a place. -/
structure Spells (cs figures : List Char) (point : Int) : Prop where
  numeral : IsNumeral cs
  first : ∃ c rest, cs = c :: rest ∧ c.isDigit = true
  reads : ∃ d, Decimal.read? cs = some d ∧ ∀ negative, Binary64.ofDecimal negative d =
    Binary64.ofDecimal negative ⟨Nat.ofDigitChars 10 figures 0, point - figures.length⟩

section Layouts

variable {figures : List Char} {point : Int}

theorem isNumeral_positional (h : AllDigits figures) (point : Int) :
    IsNumeral (positional figures point) := by
  obtain ⟨c, cs, hcons, -⟩ := exists_positional_eq_cons h point
  refine ⟨by simp [hcons], fun d hd => ?_⟩
  obtain hd | rfl := digit_or_point_of_mem_positional h point hd
  · exact isNumeralChar_of_isDigit hd
  · rfl

theorem spells_positional (h : AllDigits figures) (point : Int) :
    Spells (positional figures point) figures point :=
  ⟨isNumeral_positional h point, exists_positional_eq_cons h point, read?_positional h point⟩

theorem spells_whole (h : AllDigits figures) (hne : figures ≠ []) (hp : figures.length ≤ point) :
    Spells (positional figures point ++ ['.', '0']) figures point := by
  obtain ⟨c, cs, hcons, hc⟩ := exists_positional_eq_cons h point
  refine ⟨?_, ⟨c, cs ++ ['.', '0'], by rw [hcons]; rfl, hc⟩, ?_⟩
  · refine ⟨by simp, fun d hd => ?_⟩
    obtain hd | hd := List.mem_append.mp hd
    · exact (isNumeral_positional h point).2 d hd
    · simp only [List.mem_cons, List.not_mem_nil, or_false] at hd
      obtain rfl | rfl := hd <;> rfl
  · have hlength : 0 < figures.length := List.length_pos_iff.mpr hne
    have hwhole : positional figures point =
        figures ++ List.replicate (point.toNat - figures.length) '0' := by
      unfold positional
      dsimp only
      rw [if_neg (by omega), if_pos (by omega)]
    have hzeros : AllDigits (figures ++ List.replicate (point.toNat - figures.length) '0') :=
      h.append (allDigits_zeros _)
    rw [hwhole]
    have hend : AllDigits ['0'] := allDigits_zeros 1
    refine ⟨_, Decimal.read?_fraction (by simp [hne]) hzeros hend, fun negative => ?_⟩
    have hdigits : Nat.ofDigitChars 10
        (figures ++ List.replicate (point.toNat - figures.length) '0' ++ ['0']) 0 =
        Nat.ofDigitChars 10 figures 0 * 10 ^ (point.toNat - figures.length + 1) := by
      have hzero : ['0'] = List.replicate 1 '0' := rfl
      rw [hzero, List.append_assoc, List.replicate_append_replicate, Nat.ofDigitChars_append,
        Nat.ofDigitChars_replicate_zero, Nat.mul_comm]
    rw [hdigits, Binary64.ofDecimal_mul_pow]
    congr 2
    simp only [List.length_singleton]
    omega

/-- The end of a numeral that is an exponent. -/
structure IsExponent (cs : List Char) (exponent : Int) : Prop where
  numeral : IsNumeral cs
  start : cs.head? = some 'e'
  reads : readExponent cs = some exponent

theorem isExponent_signed (exponent : Int) :
    IsExponent ('e' :: (if exponent < 0 then '-' else '+') :: Nat.toDigits 10 exponent.natAbs)
      exponent := by
  have hdigits : (Nat.toDigits 10 exponent.natAbs).all Char.isDigit = true := by
    rw [List.all_eq_true]
    exact fun c hc => Nat.isDigit_of_mem_toDigits (by decide) (by decide) hc
  refine ⟨⟨List.cons_ne_nil _ _, fun c hc => ?_⟩, rfl, ?_⟩
  · obtain rfl | hc := List.mem_cons.mp hc
    · rfl
    · obtain rfl | hc := List.mem_cons.mp hc
      · split <;> rfl
      · exact (isNumeral_toDigits _).2 c hc
  · have hne : (Nat.toDigits 10 exponent.natAbs).isEmpty = false :=
      List.isEmpty_eq_false_iff.mpr Nat.toDigits_ne_nil
    by_cases he : exponent < 0
    · have habs : -(exponent.natAbs : Int) = exponent := by omega
      rw [if_pos he]
      simp only [readExponent, readSign, hdigits, hne, Nat.ofDigitChars_ten_toDigits]
      simp only [habs]
      rfl
    · have habs : (exponent.natAbs : Int) = exponent := by omega
      rw [if_neg he]
      simp only [readExponent, readSign, hdigits, hne, Nat.ofDigitChars_ten_toDigits]
      simp only [habs]
      rfl

theorem IsExponent.not_digit {cs : List Char} {exponent : Int} (h : IsExponent cs exponent) :
    ∀ c ∈ cs.head?, c.isDigit = false ∧ c ≠ '.' := by
  rw [h.start]
  rintro c hc
  obtain rfl : 'e' = c := Option.some.inj hc
  decide

theorem spells_single {c : Char} (hc : AllDigits [c]) {more : List Char} {point : Int}
    (hm : IsExponent more (point - 1)) : Spells ([c] ++ more) [c] point := by
  have hfirst : c.isDigit = true := hc c (by simp)
  refine ⟨⟨by simp, fun d hd => ?_⟩, ⟨c, more, rfl, hfirst⟩, ?_⟩
  · obtain rfl | hd := List.mem_cons.mp hd
    · exact isNumeralChar_of_isDigit hfirst
    · exact hm.numeral.2 d hd
  · rw [Decimal.read?_whole_append (List.cons_ne_nil c []) hc hm.not_digit, hm.reads]
    exact ⟨_, rfl, fun negative => rfl⟩

theorem spells_pointed {c : Char} {cs more : List Char} {point : Int} (h : AllDigits (c :: cs))
    (hm : IsExponent more (point - 1)) : Spells ([c] ++ '.' :: (cs ++ more)) (c :: cs) point := by
  have hc : AllDigits [c] := fun d hd => h d (by simp_all)
  have hcs : AllDigits cs := fun d hd => h d (by simp [hd])
  have hfirst : c.isDigit = true := hc c (by simp)
  refine ⟨⟨by simp, fun d hd => ?_⟩, ⟨c, _, rfl, hfirst⟩, ?_⟩
  · obtain rfl | hd := List.mem_cons.mp hd
    · exact isNumeralChar_of_isDigit hfirst
    · obtain rfl | hd := List.mem_cons.mp hd
      · rfl
      · obtain hd | hd := List.mem_append.mp hd
        · exact isNumeralChar_of_isDigit (hcs d hd)
        · exact hm.numeral.2 d hd
  · have hstart : ∀ d ∈ more.head?, d.isDigit = false := fun d hd => (hm.not_digit d hd).1
    rw [Decimal.read?_fraction_append (List.cons_ne_nil c []) hc hcs hstart, hm.reads]
    refine ⟨_, rfl, fun negative => ?_⟩
    have hplace : point - 1 - (cs.length : Int) = point - (c :: cs).length := by
      rw [List.length_cons]
      omega
    rw [← hplace]
    rfl

theorem spells_scientific (h : AllDigits figures) (hne : figures ≠ []) (point : Int) :
    Spells (scientific figures point) figures point := by
  have hm := isExponent_signed (point - 1)
  match figures with
  | [c] => exact spells_single h hm
  | c :: d :: cs =>
    have hlength : ¬ (c :: d :: cs).length ≤ 1 := by simp
    have hs := spells_pointed h hm
    rw [scientific, if_neg hlength]
    simpa using hs

end Layouts

namespace Magnitude

theorem figures_ne_nil {m : Magnitude} (h : m.steps ≠ 0) (tie : Tie) :
    (m.shortest tie).figures ≠ [] := by
  intro hnil
  have hback := Decimal.readsBack_iff.mp (m.readsBack_shortest tie) false
  rw [← Decimal.ofDecimal_figures, hnil] at hback
  have hzero : Magnitude.zero = m := by simpa [Binary64.ofDecimal] using hback
  exact h (hzero ▸ rfl)

theorem steps_of_isWhole {m : Magnitude} (h : m.isWhole) : m.steps = m.floor * stepsPerOne := by
  have hmod : m.steps % stepsPerOne = 0 := by simpa [isWhole] using h
  exact (Nat.div_mul_cancel (Nat.dvd_of_mod_eq_zero hmod)).symm

/-- A whole number below 10 ^ 15 reads as itself. -/
theorem ofDecimal_floor {m : Magnitude} (hw : m.isWhole) (hf : m.floor < 10 ^ 15)
    (negative : Bool) : Binary64.ofDecimal negative ⟨m.floor, 0⟩ = .finite negative m := by
  have hsteps := steps_of_isWhole hw
  by_cases h0 : m.floor = 0
  · have hm : m = .zero := by
      obtain ⟨steps, hr⟩ := m
      obtain rfl : steps = 0 := by simpa [h0] using hsteps
      rfl
    rw [Binary64.ofDecimal, if_pos (Or.inl h0), hm]
  · have hlength : (Nat.toDigits 10 m.floor).length ≤ 15 :=
      (Nat.length_toDigits_le_iff (by decide) (by decide)).mpr hf
    have hpoint : Decimal.point ⟨m.floor, 0⟩ = (Nat.toDigits 10 m.floor).length := by
      simp [Decimal.point]
    have hlow : ¬ (m.floor = 0 ∨ Decimal.point ⟨m.floor, 0⟩ < -323) := by omega
    have hhigh : ¬ 310 < Decimal.point ⟨m.floor, 0⟩ := by omega
    rw [Binary64.ofDecimal, if_neg hlow, if_neg hhigh]
    refine Binary64.ofRatio_exact negative m (Nat.pow_pos (by decide)) ?_
    simp [hsteps]

end Magnitude

namespace Binary64

theorem read?_of_spells {cs : List Char} {d : Decimal} {m : Magnitude}
    (h : Spells cs d.figures d.point) (hd : d.readsBack m) (negative : Bool) :
    read? (signed negative cs) = some (.finite negative m) := by
  obtain ⟨c, rest, hcons, hc⟩ := h.first
  obtain ⟨e, he, hvalue⟩ := h.reads
  have hback := Decimal.readsBack_iff.mp hd negative
  rw [hcons, read?_signed negative rest hc, ← hcons, he, Option.map_some, hvalue,
    Decimal.ofDecimal_figures, hback]

/-- The JSON numeral of a finite number reads back as that number, but for the sign of zero. -/
theorem exists_json?_finite (negative : Bool) (m : Magnitude) :
    ∃ cs sign, (finite negative m).json? = some cs ∧ IsNumeral cs ∧
      read? cs = some (.finite sign m) ∧ (sign = negative ∨ m.steps = 0) := by
  by_cases hint : m.isWhole && decide (m.floor < 10 ^ 15)
  · obtain ⟨hw, hf⟩ := Bool.and_eq_true_iff.mp hint
    have hf := of_decide_eq_true hf
    have hjson : (finite negative m).json? =
        some (signed (negative && m.floor != 0) (Nat.toDigits 10 m.floor)) := by
      rw [json?]
      exact if_pos hint
    obtain ⟨c, cs, hcons⟩ :=
      List.exists_cons_of_ne_nil (Nat.toDigits_ne_nil (b := 10) (n := m.floor))
    have hdigits : AllDigits (Nat.toDigits 10 m.floor) :=
      fun d hd => Nat.isDigit_of_mem_toDigits (by decide) (by decide) hd
    have hread : read? (signed (negative && m.floor != 0) (Nat.toDigits 10 m.floor)) =
        some (.finite (negative && m.floor != 0) m) := by
      rw [hcons, read?_signed _ cs (hdigits c (by simp [hcons])), ← hcons,
        Decimal.read?_whole Nat.toDigits_ne_nil hdigits, Option.map_some,
        Nat.ofDigitChars_ten_toDigits, Magnitude.ofDecimal_floor hw hf]
    refine ⟨_, _, hjson, isNumeral_signed (isNumeral_toDigits _), hread, ?_⟩
    by_cases h0 : m.floor = 0
    · exact Or.inr (by rw [Magnitude.steps_of_isWhole hw, h0, Nat.zero_mul])
    · exact Or.inl (by simp [h0])
  · have hsteps : m.steps ≠ 0 := by
      intro h0
      exact hint (by simp [Magnitude.isWhole, Magnitude.floor, h0])
    let d := m.shortest .even
    have hfigures : AllDigits d.figures := d.allDigits_figures
    have hne : d.figures ≠ [] := Magnitude.figures_ne_nil hsteps .even
    have hjson : (finite negative m).json? = some (signed negative
        (if d.point < -4 ∨ 16 < d.point then scientific d.figures d.point
        else if d.figures.length ≤ d.point then positional d.figures d.point ++ ['.', '0']
        else positional d.figures d.point)) := by
      rw [json?]
      exact if_neg hint
    have hspells : ∃ cs, (finite negative m).json? = some (signed negative cs) ∧
        Spells cs d.figures d.point := by
      rw [hjson]
      by_cases hfar : d.point < -4 ∨ 16 < d.point
      · rw [if_pos hfar]
        exact ⟨_, rfl, spells_scientific hfigures hne d.point⟩
      · rw [if_neg hfar]
        by_cases hwhole : d.figures.length ≤ d.point
        · rw [if_pos hwhole]
          exact ⟨_, rfl, spells_whole hfigures hne hwhole⟩
        · rw [if_neg hwhole]
          exact ⟨_, rfl, spells_positional hfigures d.point⟩
    obtain ⟨cs, hjson, hspells⟩ := hspells
    exact ⟨_, negative, hjson, isNumeral_signed hspells.numeral,
      read?_of_spells hspells (m.readsBack_shortest .even) negative, Or.inl rfl⟩

theorem isNumeral_of_json? {n : Binary64} {cs : List Char} (h : n.json? = some cs) :
    IsNumeral cs := by
  cases n with
  | nan => cases h
  | infinite negative => cases h
  | finite negative m =>
    obtain ⟨ds, sign, hjson, hnumeral, -⟩ := exists_json?_finite negative m
    obtain rfl : ds = cs := Option.some.inj (hjson.symm.trans h)
    exact hnumeral

theorem same_of_json? {m n : Binary64} (hm : m.isFinite) (h : m.json? = n.json?) :
    m.same n := by
  cases m with
  | nan => cases hm
  | infinite negative => cases hm
  | finite a s =>
    obtain ⟨cs, sign, hjson, -, hread, hsign⟩ := exists_json?_finite a s
    rw [hjson] at h
    cases n with
    | nan => cases h
    | infinite negative => cases h
    | finite b t =>
      obtain ⟨ds, sign', hjson', -, hread', hsign'⟩ := exists_json?_finite b t
      obtain rfl : cs = ds := Option.some.inj (h.trans hjson')
      obtain ⟨rfl, rfl⟩ : sign = sign' ∧ s = t := by
        simpa using hread.symm.trans hread'
      simp only [same, beq_self_eq_true, Bool.true_and, Bool.or_eq_true, beq_iff_eq]
      obtain rfl | h0 := hsign
      · obtain rfl | h0 := hsign'
        · exact Or.inl rfl
        · exact Or.inr h0
      · exact Or.inr h0

end Binary64

end DesignSystem
