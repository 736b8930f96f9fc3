import DesignSystem.Proofs.Rounding
import DesignSystem.Proofs.Words
import Mathlib.Data.List.TakeWhile

/-! A finite number that is written out reads back as the same number, and its text is a word
of digits, a point and a sign. -/

namespace DesignSystem

def AllDigits (cs : List Char) : Prop :=
  ∀ c ∈ cs, c.isDigit = true

theorem AllDigits.append {xs ys : List Char} (hx : AllDigits xs) (hy : AllDigits ys) :
    AllDigits (xs ++ ys) := by
  intro c hc
  exact (List.mem_append.mp hc).elim (hx c) (hy c)

theorem allDigits_zeros (k : Nat) : AllDigits (List.replicate k '0') := by
  intro c hc
  rw [List.eq_of_mem_replicate hc]
  rfl

namespace Decimal

theorem exists_toDigits_eq (d : Decimal) :
    ∃ k, Nat.toDigits 10 d.digits = d.figures ++ List.replicate k '0' := by
  refine ⟨((Nat.toDigits 10 d.digits).reverse.takeWhile (· == '0')).length, ?_⟩
  have hz : (Nat.toDigits 10 d.digits).reverse.takeWhile (· == '0') =
      List.replicate ((Nat.toDigits 10 d.digits).reverse.takeWhile (· == '0')).length '0' :=
    List.eq_replicate_of_mem fun c hc => by simpa using List.mem_takeWhile_imp hc
  rw [figures, ← List.reverse_replicate, ← hz, ← List.reverse_append,
    List.takeWhile_append_dropWhile, List.reverse_reverse]

theorem allDigits_figures (d : Decimal) : AllDigits d.figures := by
  obtain ⟨k, hk⟩ := d.exists_toDigits_eq
  intro c hc
  exact Nat.isDigit_of_mem_toDigits (by decide) (by decide) (hk ▸ List.mem_append_left _ hc)

/-- A decimal has the value of its figures put at their place. -/
theorem ofDecimal_figures (negative : Bool) (d : Decimal) :
    Binary64.ofDecimal negative ⟨Nat.ofDigitChars 10 d.figures 0, d.point - d.figures.length⟩ =
      Binary64.ofDecimal negative d := by
  obtain ⟨k, hk⟩ := d.exists_toDigits_eq
  have hd : d.digits = Nat.ofDigitChars 10 d.figures 0 * 10 ^ k := by
    rw [← Nat.ofDigitChars_ten_toDigits (n := d.digits), hk, Nat.ofDigitChars_append,
      Nat.ofDigitChars_replicate_zero, Nat.mul_comm]
  have hp : d.point - d.figures.length = d.exponent + k := by
    rw [point, hk, List.length_append, List.length_replicate]
    omega
  rw [hp, ← Binary64.ofDecimal_mul_pow, ← hd]

theorem read?_whole_append {whole rest : List Char} (hne : whole ≠ []) (hw : AllDigits whole)
    (hr : ∀ c ∈ rest.head?, c.isDigit = false ∧ c ≠ '.') : read? (whole ++ rest) =
      (readExponent rest).map fun e => ⟨Nat.ofDigitChars 10 whole 0, e⟩ := by
  have hrest : rest.takeWhile Char.isDigit = [] ∧ rest.dropWhile Char.isDigit = rest := by
    cases rest with
    | nil => simp
    | cons c rest => simp [(hr c rfl).1]
  have ht : (whole ++ rest).takeWhile Char.isDigit = whole := by
    rw [List.takeWhile_append_of_pos hw, hrest.1, List.append_nil]
  have hd : (whole ++ rest).dropWhile Char.isDigit = rest := by
    rw [List.dropWhile_append_of_pos hw, hrest.2]
  rw [read?]
  dsimp only
  rw [ht, hd]
  split
  · exact absurd rfl (hr '.' rfl).2
  · simp [hne]

theorem read?_fraction_append {whole fraction rest : List Char} (hne : whole ≠ [])
    (hw : AllDigits whole) (hf : AllDigits fraction)
    (hr : ∀ c ∈ rest.head?, c.isDigit = false) : read? (whole ++ '.' :: (fraction ++ rest)) =
      (readExponent rest).map fun e =>
        ⟨Nat.ofDigitChars 10 (whole ++ fraction) 0, e - fraction.length⟩ := by
  have hrest : rest.takeWhile Char.isDigit = [] ∧ rest.dropWhile Char.isDigit = rest := by
    cases rest with
    | nil => simp
    | cons c rest => simp [hr c rfl]
  have ht : (whole ++ '.' :: (fraction ++ rest)).takeWhile Char.isDigit = whole := by
    rw [List.takeWhile_append_of_pos hw]
    simp
  have hd : (whole ++ '.' :: (fraction ++ rest)).dropWhile Char.isDigit =
      '.' :: (fraction ++ rest) := by
    rw [List.dropWhile_append_of_pos hw]
    simp
  have htf : (fraction ++ rest).takeWhile Char.isDigit = fraction := by
    rw [List.takeWhile_append_of_pos hf, hrest.1, List.append_nil]
  have hdf : (fraction ++ rest).dropWhile Char.isDigit = rest := by
    rw [List.dropWhile_append_of_pos hf, hrest.2]
  simp [read?, ht, hd, htf, hdf, hne]

theorem read?_whole {whole : List Char} (hne : whole ≠ []) (hw : AllDigits whole) :
    read? whole = some ⟨Nat.ofDigitChars 10 whole 0, 0⟩ := by
  have h := @read?_whole_append whole [] hne hw (by simp)
  rwa [List.append_nil] at h

theorem read?_fraction {whole fraction : List Char} (hne : whole ≠ []) (hw : AllDigits whole)
    (hf : AllDigits fraction) : read? (whole ++ '.' :: fraction) =
      some ⟨Nat.ofDigitChars 10 (whole ++ fraction) 0, -fraction.length⟩ := by
  have h := @read?_fraction_append whole fraction [] hne hw hf (by simp)
  rw [List.append_nil] at h
  simpa [readExponent] using h

end Decimal

theorem digit_or_point_of_mem_positional {figures : List Char} (h : AllDigits figures)
    (point : Int) {c : Char} (hc : c ∈ positional figures point) : c.isDigit ∨ c = '.' := by
  unfold positional at hc
  dsimp only at hc
  split at hc
  · rcases List.mem_append.mp hc with hc | hc
    · rcases List.mem_cons.mp hc with rfl | hc
      · exact Or.inl rfl
      · rcases List.mem_cons.mp hc with rfl | hc
        · exact Or.inr rfl
        · exact Or.inl (allDigits_zeros _ c hc)
    · exact Or.inl (h c hc)
  · split at hc
    · exact Or.inl (h.append (allDigits_zeros _) c hc)
    · rcases List.mem_append.mp hc with hc | hc
      · exact Or.inl (h c (List.mem_of_mem_take hc))
      · exact (List.mem_cons.mp hc).symm.imp_left fun hc => h c (List.mem_of_mem_drop hc)

/-- Digits with the point at a place read as these digits and that place. -/
theorem read?_positional {figures : List Char} (h : AllDigits figures) (point : Int) :
    ∃ d, Decimal.read? (positional figures point) = some d ∧ ∀ negative,
      Binary64.ofDecimal negative d =
        Binary64.ofDecimal negative ⟨Nat.ofDigitChars 10 figures 0, point - figures.length⟩ := by
  unfold positional
  dsimp only
  by_cases hp : point ≤ 0
  · rw [if_pos hp]
    have hz : AllDigits (List.replicate (-point).toNat '0' ++ figures) :=
      (allDigits_zeros _).append h
    have hone : AllDigits ['0'] := allDigits_zeros 1
    have he : '0' :: '.' :: List.replicate (-point).toNat '0' ++ figures =
        ['0'] ++ '.' :: (List.replicate (-point).toNat '0' ++ figures) := rfl
    rw [he]
    refine ⟨_, Decimal.read?_fraction (List.cons_ne_nil _ _) hone hz, fun negative => ?_⟩
    rw [Nat.ofDigitChars_append, Nat.ofDigitChars_append, Nat.ofDigitChars_replicate_zero]
    congr 2
    rw [List.length_append, List.length_replicate]
    omega
  · rw [if_neg hp]
    by_cases hl : figures.length ≤ point.toNat
    · rw [if_pos hl]
      have hz : AllDigits (figures ++ List.replicate (point.toNat - figures.length) '0') :=
        h.append (allDigits_zeros _)
      have hne : figures ++ List.replicate (point.toNat - figures.length) '0' ≠ [] := by
        rw [← List.length_pos_iff, List.length_append, List.length_replicate]
        omega
      refine ⟨_, Decimal.read?_whole hne hz, fun negative => ?_⟩
      rw [Nat.ofDigitChars_append, Nat.ofDigitChars_replicate_zero, Nat.mul_comm,
        Binary64.ofDecimal_mul_pow]
      congr 2
      omega
    · rw [if_neg hl]
      have htake : AllDigits (figures.take point.toNat) := fun c hc => h c (List.mem_of_mem_take hc)
      have hdrop : AllDigits (figures.drop point.toNat) := fun c hc => h c (List.mem_of_mem_drop hc)
      have hne : figures.take point.toNat ≠ [] := by
        rw [← List.length_pos_iff, List.length_take]
        omega
      refine ⟨_, Decimal.read?_fraction hne htake hdrop, fun negative => ?_⟩
      rw [List.take_append_drop, List.length_drop]
      congr 2
      omega

theorem exists_positional_eq_cons {figures : List Char} (h : AllDigits figures) (point : Int) :
    ∃ c cs, positional figures point = c :: cs ∧ c.isDigit = true := by
  unfold positional
  dsimp only
  by_cases hp : point ≤ 0
  · exact ⟨'0', _, if_pos hp, rfl⟩
  · rw [if_neg hp]
    cases figures with
    | nil =>
      obtain ⟨n, hn⟩ : ∃ n, point.toNat = n + 1 := ⟨point.toNat - 1, by omega⟩
      exact ⟨'0', List.replicate n '0', by simp [hn, List.replicate_succ], rfl⟩
    | cons c figures =>
      obtain ⟨n, hn⟩ : ∃ n, point.toNat = n + 1 := ⟨point.toNat - 1, by omega⟩
      have hc := h c (by simp)
      split
      · exact ⟨c, _, rfl, hc⟩
      · exact ⟨c, _, by rw [hn]; rfl, hc⟩

theorem toLower_of_isDigit {c : Char} (h : c.isDigit = true) : c.toLower = c := by
  refine dif_neg fun hh => ?_
  have hA : 65 ≤ c.toNat := UInt32.le_iff_toNat_le.mp hh.1
  have h9 : c.toNat ≤ 57 := (Char.isDigit_iff_toNat.mp h).2
  omega

theorem not_blank_of_isDigit {c : Char} (h : c.isDigit = true) : isBlank c = false := by
  have hh : 48 ≤ c.toNat ∧ c.toNat ≤ 57 := Char.isDigit_iff_toNat.mp h
  simp only [isBlank, Bool.or_eq_false_iff, Bool.and_eq_false_iff, decide_eq_false_iff_not,
    beq_eq_false_iff_ne]
  omega

namespace Binary64

theorem read?_signed (negative : Bool) {c : Char} (cs : List Char) (hc : c.isDigit = true) :
    read? (signed negative (c :: cs)) =
      (Decimal.read? (c :: cs)).map (ofDecimal negative) := by
  have hs : readSign (signed negative (c :: cs)) = (negative, c :: cs) := by
    cases negative with
    | true => rfl
    | false =>
      rw [signed, if_neg (by decide), readSign]
      · rintro rest ⟨⟩
        cases hc
      · rintro rest ⟨⟩
        cases hc
  have hn : c.toLower ≠ 'n' := by
    rw [toLower_of_isDigit hc]
    rintro rfl
    cases hc
  have hi : c.toLower ≠ 'i' := by
    rw [toLower_of_isDigit hc]
    rintro rfl
    cases hc
  simp [read?, hs, hn, hi]

theorem plain_finite (negative : Bool) (m : Magnitude) :
    (finite negative m).plain =
      signed negative (positional (m.shortest .up).figures (m.shortest .up).point) := rfl

theorem read?_plain (negative : Bool) (m : Magnitude) :
    read? (finite negative m).plain = some (.finite negative m) := by
  have hf := (m.shortest .up).allDigits_figures
  obtain ⟨d, hd, hv⟩ := read?_positional hf (m.shortest .up).point
  obtain ⟨c, cs, hcons, hc⟩ := exists_positional_eq_cons hf (m.shortest .up).point
  have hback := Decimal.readsBack_iff.mp (m.readsBack_shortest .up) negative
  rw [plain_finite, hcons, read?_signed negative cs hc, ← hcons, hd, Option.map_some, hv,
    Decimal.ofDecimal_figures, hback]

theorem mem_plain {negative : Bool} {m : Magnitude} {c : Char}
    (hc : c ∈ (finite negative m).plain) : c.isDigit ∨ c = '.' ∨ c = '-' := by
  have hh := @digit_or_point_of_mem_positional _ (m.shortest .up).allDigits_figures
    (m.shortest .up).point c
  rw [plain_finite, signed] at hc
  split at hc
  · rcases List.mem_cons.mp hc with rfl | hc
    · exact Or.inr (Or.inr rfl)
    · exact (hh hc).imp_right Or.inl
  · exact (hh hc).imp_right Or.inl

theorem plain_ne_nil (negative : Bool) (m : Magnitude) : (finite negative m).plain ≠ [] := by
  obtain ⟨c, cs, hcons, -⟩ :=
    exists_positional_eq_cons (m.shortest .up).allDigits_figures (m.shortest .up).point
  rw [plain_finite, hcons]
  cases negative <;> exact List.cons_ne_nil _ _

theorem isWord_plain (negative : Bool) (m : Magnitude) : IsWord (finite negative m).plain := by
  refine ⟨plain_ne_nil negative m, fun c hc => ?_⟩
  rcases mem_plain hc with hd | rfl | rfl
  · exact not_blank_of_isDigit hd
  · rfl
  · rfl

end Binary64

end DesignSystem
