import DesignSystem.Proofs.ElementWalk

/-! The batches of an element hold what its groups hold. The values of a selector at a width,
read from the groups property by property, are the properties of that selector in the batch
of that width. -/

namespace DesignSystem

/-- The values of a property at a width, as they stand in a batch. -/
def Property.atWidth (p : Property) (width : Nat) : List BatchedProperty :=
  (p.values.filter (·.width = width)).map fun v => ⟨p.name, v.value, v.token?⟩

/-- What the group of a selector says at a width, read property by property and value by
value. A selector without a group says nothing. -/
def Element.atWidth (e : Element) (s : Selector) (width : Nat) : List BatchedProperty :=
  ((e.group? s).elim [] (·.properties)).flatMap (·.atWidth width)

namespace Resolver

/-- The values of properties at a width, each with its selector. -/
def valuesAt (properties : List (Selector × Property)) (width : Nat) :
    List (Selector × BatchedProperty) :=
  properties.flatMap fun p => (p.2.atWidth width).map (p.1, ·)

theorem map_filter_valuesOf (properties : List (Selector × Property)) (width : Nat) :
    ((valuesOf properties).filter (·.1 = width)).map (·.2) = valuesAt properties width := by
  simp only [valuesOf, valuesAt, Property.atWidth, List.filter_flatMap, List.map_flatMap,
    List.filter_map, List.map_map]
  rfl

theorem ordered_batches (properties : List (Selector × Property)) :
    Batch.Ordered (batches properties) :=
  Batch.ordered_alterAll _ _ (fun _ => Group.add_ne_nil _ _) _

theorem entriesAt_batches (properties : List (Selector × Property)) (width : Nat) :
    Batch.entriesAt (batches properties) width = Group.collect (valuesAt properties width) := by
  rw [batches, Batch.entriesAt_alterAll, ← map_filter_valuesOf, Group.collect, List.foldl_map]

theorem propertiesOf_valuesAt (properties : List (Selector × Property)) (s : Selector)
    (width : Nat) : Group.propertiesOf (valuesAt properties width) s =
      (Group.propertiesOf properties s).flatMap (·.atWidth width) :=
  Group.propertiesOf_flatMap (fun p : Property => p.atWidth width) properties s

theorem atWidth_element (r : Resolver) (name : String) (declaration : Tree) (s : Selector)
    (width : Nat) : (r.element name declaration).atWidth s width =
      Group.propertiesOf (valuesAt (r.properties .plain declaration) width) s := by
  rw [propertiesOf_valuesAt, Element.atWidth, Element.group?, groups_element, Group.find?_collect]
  split_ifs with h
  · rw [h, Option.elim_none]
  · rw [Option.elim_some]

section Element

variable (r : Resolver) (name : String) {declaration : Tree}

theorem propertiesOf_of_mem_groups {g : Group Property}
    (hg : g ∈ (r.element name declaration).groups) :
    g.properties = Group.propertiesOf (r.properties .plain declaration) g.selector := by
  rw [groups_element] at hg
  exact Group.properties_of_mem_collect hg

theorem entriesAt_element (width : Nat) :
    Batch.entriesAt (r.element name declaration).batches width =
      Group.collect (valuesAt (r.properties .plain declaration) width) := by
  rw [batches_element, entriesAt_batches]

theorem entries_of_mem_batches {b : Batch (Group BatchedProperty)}
    (hb : b ∈ (r.element name declaration).batches) :
    b.entries = Group.collect (valuesAt (r.properties .plain declaration) b.width) := by
  rw [batches_element] at hb
  rw [← entriesAt_batches, Batch.entriesAt_of_mem (ordered_batches _).ascending hb]

theorem properties_of_mem_entries {b : Batch (Group BatchedProperty)}
    (hb : b ∈ (r.element name declaration).batches) {g : Group BatchedProperty}
    (hg : g ∈ b.entries) :
    g.properties = (r.element name declaration).atWidth g.selector b.width := by
  rw [r.entries_of_mem_batches name hb] at hg
  rw [Group.properties_of_mem_collect hg, atWidth_element]

/-- What the groups say at a width has a batch, and in it a group. -/
theorem exists_batched_group {s : Selector} {width : Nat}
    (h : (r.element name declaration).atWidth s width ≠ []) :
    ∃ b ∈ (r.element name declaration).batches, b.width = width ∧ ∃ g ∈ b.entries,
      g.selector = s := by
  rw [atWidth_element, ← Group.mem_selectorsOf, ← Group.selectors_collect,
    ← r.entriesAt_element name] at h
  obtain ⟨g, hg, hs⟩ := List.mem_map.mp h
  rw [Batch.entriesAt] at hg
  cases hb : Batch.find? (r.element name declaration).batches width with
  | none => simp [hb] at hg
  | some b =>
    rw [hb] at hg
    exact ⟨b, List.mem_of_find?_eq_some hb, by simpa using List.find?_some hb, g, hg, hs⟩

end Element

end Resolver

/-- The batches of an element have ascending widths from the base on, and none but the base
batch is empty. Within a batch no two groups have the same selector, and a selector has a
group with what the groups of the element say of it at that width if that is anything. -/
theorem batches_agree_with_groups (r : Resolver) (name : String) (declaration : Tree) :
    let e := r.element name declaration
    Batch.Ordered e.batches ∧
      (∀ b ∈ e.batches, (b.entries.map (·.selector)).Nodup) ∧
        ∀ width s, ((e.batch? width).bind (Group.find? ·.entries s)).map (·.properties) =
          if e.atWidth s width = [] then none else some (e.atWidth s width) := by
  intro e
  refine ⟨r.batches_element name declaration ▸ Resolver.ordered_batches _, ?_, ?_⟩
  · intro b hb
    rw [r.entries_of_mem_batches name hb, Group.selectors_collect]
    exact Group.nodup_selectorsOf _
  · intro width s
    have hf : (e.batch? width).bind (Group.find? ·.entries s) =
        Group.find? (Batch.entriesAt e.batches width) s := by
      change _ = Group.find? ((e.batch? width).elim [] (·.entries)) s
      cases e.batch? width <;> rfl
    have he : Batch.entriesAt e.batches width =
        Group.collect (Resolver.valuesAt (r.properties .plain declaration) width) :=
      r.entriesAt_element name width
    rw [hf, he, Group.find?_collect, Resolver.atWidth_element]
    split_ifs <;> rfl

end DesignSystem
