import DesignSystem.Proofs.ElementBatches
import DesignSystem.Proofs.ElementGroups

/-! Which property nodes a group holds: those of its selector, in pre-order. In a batch they
count with their values at the width of the batch. -/

namespace DesignSystem

/-- The property nodes of a selector, in pre-order. -/
def nodesOf (declaration : Tree) (s : Selector) : List Way :=
  (propertyNodes declaration).filter (·.selector = s)

namespace Resolver

variable (r : Resolver) (name : String) {declaration : Tree}

theorem properties_plain (h : ∀ w ∈ ways declaration, ∀ e ∈ w, e.1 ≠ "") :
    r.properties .plain declaration =
      (propertyNodes declaration).map fun w => (w.selector, r.property w.last) := by
  rw [properties_eq]
  refine List.map_congr_left fun w hw => ?_
  rw [contribution, along_plain (h w (List.mem_filter.mp hw).1)]

theorem propertiesOf_plain (h : ∀ w ∈ ways declaration, ∀ e ∈ w, e.1 ≠ "") (s : Selector) :
    Group.propertiesOf (r.properties .plain declaration) s =
      (nodesOf declaration s).map fun w => r.property w.last := by
  simp [properties_plain r h, Group.propertiesOf, nodesOf, List.filter_map, Function.comp_def]

theorem properties_of_mem_groups (h : ∀ w ∈ ways declaration, ∀ e ∈ w, e.1 ≠ "")
    {g : Group Property} (hg : g ∈ (r.element name declaration).groups) :
    g.properties = (nodesOf declaration g.selector).map fun w => r.property w.last := by
  rw [r.propertiesOf_of_mem_groups name hg, propertiesOf_plain r h]

theorem exists_group (h : ∀ w ∈ ways declaration, ∀ e ∈ w, e.1 ≠ "") {w : Way}
    (hw : w ∈ propertyNodes declaration) :
    ∃ g ∈ (r.element name declaration).groups, w ∈ nodesOf declaration g.selector := by
  have hn : w ∈ nodesOf declaration w.selector := List.mem_filter.mpr ⟨hw, by simp⟩
  have hs : w.selector ∈ Group.selectorsOf (r.properties .plain declaration) := by
    rw [Group.mem_selectorsOf, propertiesOf_plain r h]
    exact List.ne_nil_of_mem (List.mem_map_of_mem hn)
  rw [← Group.selectors_collect, ← r.groups_element name] at hs
  obtain ⟨g, hg, he⟩ := List.mem_map.mp hs
  exact ⟨g, hg, he ▸ hn⟩

theorem properties_of_mem_batches (h : ∀ w ∈ ways declaration, ∀ e ∈ w, e.1 ≠ "")
    {b : Batch (Group BatchedProperty)} (hb : b ∈ (r.element name declaration).batches)
    {g : Group BatchedProperty} (hg : g ∈ b.entries) :
    g.properties =
      (nodesOf declaration g.selector).flatMap fun w => (r.property w.last).atWidth b.width := by
  rw [properties_of_mem_entries r name hb hg, atWidth_element, propertiesOf_valuesAt,
    propertiesOf_plain r h, List.flatMap_map]

end Resolver

end DesignSystem
