import DesignSystem.Design
import DesignSystem.Proofs.Coercion
import Mathlib.Data.List.Forall2

/-! Looking up the category of a property. It depends on nothing but which rows of the alias
table list the property without its modifiers, and a row that is written on one line lists what
its items are read as. -/

namespace DesignSystem

theorem bareProperty_spec (property : String) :
    '=' ∉ (bareProperty property).toList ∧
      (property = bareProperty property ∨
        ∃ modifiers, property = modifiers ++ "=" ++ bareProperty property) := by
  have hb : (bareProperty property).toList =
      (property.toList.reverse.takeWhile (· != '=')).reverse := by simp [bareProperty]
  have hsplit := congrArg List.reverse
    (List.takeWhile_append_dropWhile (p := (· != '=')) (l := property.toList.reverse))
  rw [List.reverse_append, List.reverse_reverse, ← hb] at hsplit
  refine ⟨fun hm => ?_, ?_⟩
  · rw [hb, List.mem_reverse] at hm
    simpa using List.mem_takeWhile_imp hm
  · cases hd : property.toList.reverse.dropWhile (· != '=') with
    | nil =>
      rw [hd] at hsplit
      exact Or.inl (String.toList_inj.mp (by simpa using hsplit.symm))
    | cons c rest =>
      have hc : c = '=' := by
        have hhead := List.head?_dropWhile_not (· != '=') property.toList.reverse
        simpa [hd] using hhead
      refine Or.inr ⟨String.ofList rest.reverse, String.toList_inj.mp ?_⟩
      rw [← hsplit, hd, hc]
      simp

theorem bareProperty_eq {property bare : String} (h : '=' ∉ bare.toList)
    (hp : property = bare ∨ ∃ modifiers, property = modifiers ++ "=" ++ bare) :
    bareProperty property = bare := by
  have hbare : bare.toList.reverse.takeWhile (· != '=') = bare.toList.reverse := by
    refine List.takeWhile_eq_self_iff.mpr fun c hc => ?_
    have hne : c ≠ '=' := fun he => h (he ▸ List.mem_reverse.mp hc)
    simpa using hne
  rcases hp with rfl | ⟨modifiers, rfl⟩
  · rw [bareProperty, hbare, List.reverse_reverse, String.ofList_toList]
  · have hrev : (modifiers ++ "=" ++ bare).toList.reverse =
        bare.toList.reverse ++ '=' :: modifiers.toList.reverse := by simp
    rw [bareProperty, hrev, List.takeWhile_append, hbare, if_pos rfl]
    simp

theorem bareProperty_of_not_mem {property : String} (h : '=' ∉ property.toList) :
    bareProperty property = property :=
  bareProperty_eq h (Or.inl rfl)

namespace Value

theorem exists_coerce? {raw : String} (h : raw.toList ≠ []) : ∃ v, coerce? raw = some v := by
  cases hl : isListText raw.toList with
  | true => exact ⟨_, coerce?_eq_some.mpr ⟨h, Or.inl ⟨hl, rfl⟩⟩⟩
  | false => exact ⟨_, coerce?_eq_some.mpr ⟨h, Or.inr ⟨hl, rfl⟩⟩⟩

theorem ofItem_ne_list (raw : List Char) (items : List Value) : ofItem raw ≠ .list items := by
  unfold ofItem
  cases readNumber? raw with
  | some n => nofun
  | none =>
    dsimp only
    split_ifs <;> nofun

/-- The texts whose values a text lists: its parts between commas if it is a list, and otherwise
the text itself. -/
def itemTexts (raw : List Char) : List (List Char) :=
  if isListText raw then raw.splitOn ',' else [raw]

theorem itemTexts_of_no_quote {raw : List Char}
    (h : ∀ part ∈ raw.splitOn ',', opensQuote part = false) : itemTexts raw = raw.splitOn ',' := by
  have hq : (raw.splitOn ',').any opensQuote = false :=
    List.any_eq_false.mpr fun part hp => by simp [h part hp]
  have hlist : isListText raw = raw.contains ',' := by simp [isListText, hq]
  rw [itemTexts, hlist]
  by_cases hc : ',' ∈ raw
  · rw [if_pos (by simpa using hc)]
  · rw [if_neg (by simpa using hc), List.splitOn_eq_singleton hc]

end Value

namespace Aliases

theorem properties_ofItem (raw : List Char) :
    properties (.leaf (.ofItem raw)) = [(Value.ofItem raw).display] := by
  cases h : Value.ofItem raw with
  | list items => exact absurd h (Value.ofItem_ne_list raw items)
  | _ => rfl

/-- A row on one line lists what its items are read as. -/
theorem properties_of_coerce? {raw : String} {v : Value} (h : Value.coerce? raw = some v) :
    properties (.leaf v) =
      (Value.itemTexts raw.toList).map fun item => (Value.ofItem item).display := by
  rw [Value.itemTexts]
  obtain ⟨-, ⟨hl, rfl⟩ | ⟨hl, rfl⟩⟩ := Value.coerce?_eq_some.mp h
  · rw [if_pos hl, properties, List.map_map]
    rfl
  · rw [if_neg (by simp [hl]), properties_ofItem]
    rfl

theorem resolve_eq (aliases : Aliases) (property : String) :
    aliases.resolve property = ((aliases.find? fun row => bareProperty property ∈ row.2).map
      (·.1)).getD (bareProperty property) := by
  simp [resolve, List.contains_eq_mem]

/-- The rows of a table and which of them list the property are all that matters. -/
theorem resolve_congr {aliases others : Aliases} {property : String}
    (h : List.Forall₂ (fun a b => a.1 = b.1 ∧
      (bareProperty property ∈ a.2 ↔ bareProperty property ∈ b.2)) aliases others) :
    aliases.resolve property = others.resolve property := by
  rw [resolve_eq, resolve_eq]
  congr 1
  induction h with
  | nil => rfl
  | @cons a b aliases others hab _ ih =>
    obtain ⟨hname, hmem⟩ := hab
    by_cases hb : bareProperty property ∈ b.2
    · simp [hmem.mpr hb, hb, hname]
    · simpa [mt hmem.mp hb, hb] using ih

theorem resolve_of_first {earlier later : Aliases} {row : String × List String}
    {property : String} (h : bareProperty property ∈ row.2)
    (he : ∀ e ∈ earlier, bareProperty property ∉ e.2) :
    resolve (earlier ++ row :: later) property = row.1 := by
  have hnone : earlier.find? (fun row => bareProperty property ∈ row.2) = none :=
    List.find?_eq_none.mpr fun e hm => by simpa using he e hm
  rw [resolve_eq, List.find?_append, hnone, Option.none_or,
    List.find?_cons_of_pos (by simpa using h)]
  rfl

end Aliases

end DesignSystem
