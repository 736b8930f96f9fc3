import DesignSystem.Element
import DesignSystem.Proofs.TreeUpdate
import Mathlib.Data.List.Induction

/-! Adding properties one by one to the groups of their selectors gives what grouping all of
them at once gives: a group for each selector where it first occurs, with its properties in
their order. -/

namespace DesignSystem

namespace Group

variable {α : Type}

/-- Adds properties one by one to no groups. -/
def collect (properties : List (Selector × α)) : List (Group α) :=
  properties.foldl (fun groups p => add p.1 p.2 groups) []

/-- The properties that have a selector. -/
def propertiesOf (properties : List (Selector × α)) (s : Selector) : List α :=
  (properties.filter (·.1 = s)).map (·.2)

/-- The selectors of properties, each where it first occurs. -/
def selectorsOf (properties : List (Selector × α)) : List Selector :=
  (properties.map (·.1)).eraseDups

theorem propertiesOf_concat (properties : List (Selector × α)) (s t : Selector) (p : α) :
    propertiesOf (properties ++ [(t, p)]) s =
      if t = s then propertiesOf properties s ++ [p] else propertiesOf properties s := by
  by_cases h : t = s <;> simp [propertiesOf, h]

theorem mem_selectorsOf {properties : List (Selector × α)} {s : Selector} :
    s ∈ selectorsOf properties ↔ propertiesOf properties s ≠ [] := by
  simp [selectorsOf, propertiesOf, List.mem_eraseDups]

theorem selectorsOf_concat (properties : List (Selector × α)) (s : Selector) (p : α) :
    selectorsOf (properties ++ [(s, p)]) =
      if s ∈ selectorsOf properties then selectorsOf properties
      else selectorsOf properties ++ [s] := by
  rw [selectorsOf, List.map_append, List.map_singleton, eraseDups_concat]
  rfl

theorem nodup_selectorsOf (properties : List (Selector × α)) : (selectorsOf properties).Nodup := by
  induction properties using List.reverseRecOn with
  | nil => exact List.nodup_nil
  | append_singleton properties p ih =>
    rw [selectorsOf_concat]
    by_cases hs : p.1 ∈ selectorsOf properties
    · rwa [if_pos hs]
    · rw [if_neg hs]
      refine List.nodup_append.mpr ⟨ih, by simp, ?_⟩
      intro s hm t ht he
      rw [List.mem_singleton.mp ht] at he
      exact hs (he ▸ hm)

theorem add_of_not_mem (s : Selector) (p : α) {groups : List (Group α)}
    (h : ∀ g ∈ groups, g.selector ≠ s) : add s p groups = groups ++ [⟨s, [p]⟩] := by
  induction groups with
  | nil => rfl
  | cons g groups ih =>
    rw [add, if_neg (h g (by simp)), ih fun g hg => h g (by simp [hg])]
    rfl

theorem add_of_mem (s : Selector) (p : α) (f : Selector → List α) {selectors : List Selector}
    (hn : selectors.Nodup) (h : s ∈ selectors) :
    add s p (selectors.map fun t => ⟨t, f t⟩) =
      selectors.map fun t => ⟨t, if s = t then f t ++ [p] else f t⟩ := by
  induction selectors with
  | nil => cases h
  | cons t selectors ih =>
    obtain ⟨ht, hn⟩ := List.nodup_cons.mp hn
    by_cases hs : t = s
    · subst t
      have hh : ∀ t ∈ selectors, s ≠ t := fun t hm he => ht (he ▸ hm)
      simp only [List.map_cons, add, if_true, List.cons.injEq, true_and]
      exact List.map_congr_left fun t hm => by rw [if_neg (hh t hm)]
    · simp only [List.map_cons, add, if_neg hs, if_neg (Ne.symm hs)]
      rw [ih hn ((List.mem_cons.mp h).resolve_left (Ne.symm hs))]

theorem add_ne_nil (s : Selector) (p : α) (groups : List (Group α)) : add s p groups ≠ [] := by
  cases groups with
  | nil => simp [add]
  | cons g groups =>
    rw [add]
    split <;> simp

theorem collect_eq (properties : List (Selector × α)) :
    collect properties =
      (selectorsOf properties).map fun s => ⟨s, propertiesOf properties s⟩ := by
  induction properties using List.reverseRecOn with
  | nil => rfl
  | append_singleton properties p ih =>
    obtain ⟨s, p⟩ := p
    have hh : collect (properties ++ [(s, p)]) = add s p (collect properties) := by
      simp [collect]
    rw [hh, ih]
    by_cases hs : s ∈ selectorsOf properties
    · simp only [selectorsOf_concat, if_pos hs, propertiesOf_concat]
      exact add_of_mem s p _ (nodup_selectorsOf properties) hs
    · have hnew : ∀ t ∈ selectorsOf properties, s ≠ t := fun t ht he => hs (he ▸ ht)
      have hnone : propertiesOf properties s = [] := by
        by_contra hc
        exact hs (mem_selectorsOf.mpr hc)
      rw [add_of_not_mem s p (by simpa using fun t ht => (hnew t ht).symm)]
      simp only [selectorsOf_concat, if_neg hs, propertiesOf_concat, List.map_append,
        List.map_singleton, if_true, hnone, List.nil_append]
      congr 1
      exact List.map_congr_left fun t ht => by rw [if_neg (hnew t ht)]

theorem selectors_collect (properties : List (Selector × α)) :
    (collect properties).map (·.selector) = selectorsOf properties := by
  simp [collect_eq, Function.comp_def]

theorem properties_of_mem_collect {properties : List (Selector × α)} {g : Group α}
    (hg : g ∈ collect properties) : g.properties = propertiesOf properties g.selector := by
  rw [collect_eq] at hg
  obtain ⟨s, -, rfl⟩ := List.mem_map.mp hg
  rfl

theorem find?_collect (properties : List (Selector × α)) (s : Selector) :
    find? (collect properties) s =
      if propertiesOf properties s = [] then none else some ⟨s, propertiesOf properties s⟩ := by
  have hh : find? (collect properties) s =
      ((selectorsOf properties).find? (· == s)).map fun t => ⟨t, propertiesOf properties t⟩ := by
    rw [find?, collect_eq, List.find?_map]
    rfl
  rw [hh]
  cases hf : (selectorsOf properties).find? (· == s) with
  | none =>
    have hs : s ∉ selectorsOf properties := fun hm =>
      List.find?_eq_none.mp hf s hm (beq_self_eq_true s)
    rw [mem_selectorsOf, not_not] at hs
    rw [if_pos hs, Option.map_none]
  | some t =>
    have ht := List.find?_some hf
    obtain rfl : t = s := beq_iff_eq.mp ht
    rw [if_neg (mem_selectorsOf.mp (List.mem_of_find?_eq_some hf)), Option.map_some]

theorem propertiesOf_flatMap {β : Type} (f : α → List β) (properties : List (Selector × α))
    (s : Selector) :
    propertiesOf (properties.flatMap fun p => (f p.2).map (p.1, ·)) s =
      (propertiesOf properties s).flatMap f := by
  have hp : ∀ p : Selector × α, ((f p.2).map (p.1, ·)).filter (·.1 = s) =
      if p.1 = s then (f p.2).map (p.1, ·) else [] := by
    intro p
    by_cases h : p.1 = s <;> simp [List.filter_map, Function.comp_def, h]
  simp only [propertiesOf, List.filter_flatMap, hp, List.map_flatMap, List.flatMap_map]
  induction properties with
  | nil => rfl
  | cons p properties ih => by_cases h : p.1 = s <;> simp [h, ih, Function.comp_def]

end Group

end DesignSystem
