import DesignSystem.Proofs.AliasLookup
import DesignSystem.Proofs.OutputValues

/-! What the values of texts are like. A value reads back from its own text, whether it is a list
and how long it is can be seen from the commas and quotes of the text, lists are not nested, and
all numbers are finite. -/

namespace DesignSystem

theorem length_splitOn (a : Char) (cs : List Char) : (cs.splitOn a).length = cs.count a + 1 := by
  induction cs with
  | nil => rfl
  | cons c cs ih =>
    obtain ⟨first, rest, hcs⟩ := List.exists_cons_of_ne_nil (List.splitOn_ne_nil a cs)
    rw [hcs, List.length_cons] at ih
    rw [List.splitOn_cons_eq_if_modifyHead, hcs]
    by_cases hc : c = a
    · simp [hc, ih]
    · simp [hc, ih]

/-- White space, if any, and then a quote. -/
def StartsQuoted (part : List Char) : Prop :=
  ∃ blanks quote rest, part = blanks ++ quote :: rest ∧ (∀ c ∈ blanks, isBlank c = true) ∧
    (quote = '"' ∨ quote = '\'')

namespace Value

theorem opensQuote_iff {part : List Char} : opensQuote part = true ↔ StartsQuoted part := by
  rw [opensQuote, trimStart]
  constructor
  · intro h
    cases hd : part.dropWhile isBlank with
    | nil => simp [hd] at h
    | cons quote rest =>
      refine ⟨part.takeWhile isBlank, quote, rest, ?_, fun c hc => List.mem_takeWhile_imp hc, ?_⟩
      · rw [← hd, List.takeWhile_append_dropWhile]
      · simpa [hd] using h
  · rintro ⟨blanks, quote, rest, rfl, hblanks, hquote⟩
    have hbare : isBlank quote = false := by rcases hquote with rfl | rfl <;> rfl
    rw [List.dropWhile_append_of_pos hblanks, List.dropWhile_cons_of_neg (by simp [hbare])]
    simpa using hquote

theorem isListText_iff {raw : List Char} :
    isListText raw = true ↔ ',' ∈ raw ∧ ∀ part ∈ raw.splitOn ',', ¬ StartsQuoted part := by
  simp [isListText, ← opensQuote_iff]

end Value

/-- Every text that is not empty has a value, which reads back from its own text and has finite
numbers. It is a list exactly if the text has a comma and no part between commas starts with a
quote. Then it has an item for each part, and none is a list. -/
theorem coercion_is_stable (raw : String) (h : raw ≠ "") :
    ∃ v, Value.coerce? raw = some v ∧ Value.coerce? v.display = some v ∧
      ((∃ items, v = .list items) ↔
        ',' ∈ raw.toList ∧ ∀ part ∈ raw.toList.splitOn ',', ¬ StartsQuoted part) ∧
      (∀ items, v = .list items → items.length = raw.toList.count ',' + 1 ∧
        ∀ item ∈ items, ∀ inner, item ≠ .list inner) ∧
      ∀ n ∈ v.numbers, n.isFinite = true := by
  have hne : raw.toList ≠ [] := mt String.toList_eq_nil_iff.mp h
  rw [← Value.isListText_iff]
  cases hl : Value.isListText raw.toList with
  | true =>
    have hv := Value.coerce?_eq_some.mpr ⟨hne, Or.inl ⟨hl, rfl⟩⟩
    refine ⟨_, hv, Value.coerce?_display hv, by simp, ?_, Value.isFinite_of_coerce? hv⟩
    rintro _ ⟨⟩
    refine ⟨by rw [List.length_map, length_splitOn], fun item hitem => ?_⟩
    obtain ⟨part, -, rfl⟩ := List.mem_map.mp hitem
    exact Value.ofItem_ne_list part
  | false =>
    have hv := Value.coerce?_eq_some.mpr ⟨hne, Or.inr ⟨hl, rfl⟩⟩
    have hitem := Value.ofItem_ne_list raw.toList
    refine ⟨_, hv, Value.coerce?_display hv, ?_, fun items he => absurd he (hitem items),
      Value.isFinite_of_coerce? hv⟩
    simpa using hitem

/-- The number is written without its zeros and spaces. The quote does not start its part, and a
space in front makes `true` a text. -/
theorem coercion_is_stable_mixed :
    let raw := " 007 ,a\",, true"
    raw ≠ "" ∧ (Value.coerce? raw).map Value.display = some "7,a\",, true" ∧
      ∃ items, Value.coerce? raw = some (.list items) ∧ items.length = 4 ∧
        Value.coerce? "7,a\",, true" = some (.list items) := by
  intro raw
  have hne : raw ≠ "" := by decide
  have hdisplay : (Value.coerce? raw).map Value.display = some "7,a\",, true" := by decide +kernel
  have hlist : Value.isListText raw.toList = true := by decide
  obtain ⟨v, hv, hback, hkind, hitems, -⟩ := coercion_is_stable raw hne
  obtain ⟨items, rfl⟩ := hkind.mpr (Value.isListText_iff.mp hlist)
  rw [hv, Option.map_some] at hdisplay
  rw [Option.some.inj hdisplay] at hback
  exact ⟨hne, by rw [hv, Option.map_some, hdisplay], items, hv,
    (hitems items rfl).1.trans (by decide), hback⟩

end DesignSystem
