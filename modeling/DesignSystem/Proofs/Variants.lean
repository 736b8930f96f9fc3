import DesignSystem.Stylesheet
import DesignSystem.Proofs.NodePlacement
import DesignSystem.Proofs.Sections

/-! Which property nodes share a group. Groups go by the join of the modifiers, so a modifier
with `=` in its name counts as the modifiers between its `=`. Nodes that differ even then
stand in different groups. -/

namespace DesignSystem

theorem splitOn_intercalate_flatMap {xs : List (List Char)} (h : xs ≠ []) :
    (['='].intercalate xs).splitOn '=' = xs.flatMap (·.splitOn '=') := by
  induction xs with
  | nil => exact absurd rfl h
  | cons x xs ih =>
    by_cases hx : xs = []
    · simp [hx]
    · rw [List.intercalate_cons_of_ne_nil hx, List.append_assoc, List.singleton_append,
        List.splitOn_append_cons_self, ih hx, List.flatMap_cons]

namespace Way

/-- The modifiers on a way, one with `=` in its name as the parts between its `=`. -/
def variant (w : Way) : List (List Char) :=
  (w.keysOf .modifier).flatMap (·.toList.splitOn '=')

theorem toList_modifiers (w : Way) : w.selector.modifiers.toList =
    ['='].intercalate ((w.keysOf .modifier).map String.toList) :=
  String.toList_intercalate

theorem splitOn_modifiers {w : Way} (h : w.keysOf .modifier ≠ []) :
    w.selector.modifiers.toList.splitOn '=' = w.variant := by
  rw [toList_modifiers, splitOn_intercalate_flatMap (by simpa using h), variant,
    List.flatMap_map]

theorem ne_empty_of_mem_keysOf (kind : EntryKind) {w : Way} (h : ∀ e ∈ w, e.1 ≠ "") :
    ∀ key ∈ w.keysOf kind, key ≠ "" := by
  intro key hk
  obtain ⟨e, he, rfl⟩ := List.mem_map.mp hk
  exact h e (List.mem_filter.mp he).1

theorem variant_eq_of_modifiers_eq {v w : Way} (hv : ∀ e ∈ v, e.1 ≠ "")
    (hw : ∀ e ∈ w, e.1 ≠ "") (h : v.selector.modifiers = w.selector.modifiers) :
    v.variant = w.variant := by
  have hv' := intercalate_eq_empty_iff (ne_empty_of_mem_keysOf .modifier hv)
  have hw' := intercalate_eq_empty_iff (ne_empty_of_mem_keysOf .modifier hw)
  -- As no key is empty, only the join of no modifiers is.
  have he : v.keysOf .modifier = [] ↔ w.keysOf .modifier = [] := by
    rw [← hv', ← hw']
    exact iff_of_eq (congrArg (· = "") h)
  by_cases hn : v.keysOf .modifier = []
  · rw [variant, variant, hn, he.mp hn]
  · rw [← splitOn_modifiers hn, ← splitOn_modifiers (mt he.mpr hn), h]

theorem variant_of_plain_keys {w : Way} (h : ∀ key ∈ w.keysOf .modifier, '=' ∉ key.toList) :
    w.variant = (w.keysOf .modifier).map String.toList := by
  rw [variant, List.map_eq_flatMap]
  exact List.flatMap_congr fun key hk => List.splitOn_eq_singleton (h key hk)

theorem variant_ne_of_plain_keys {v w : Way} (hne : v.keysOf .modifier ≠ w.keysOf .modifier)
    (hv : ∀ key ∈ v.keysOf .modifier, '=' ∉ key.toList)
    (hw : ∀ key ∈ w.keysOf .modifier, '=' ∉ key.toList) : v.variant ≠ w.variant := by
  rw [variant_of_plain_keys hv, variant_of_plain_keys hw]
  exact fun h => hne (List.map_injective_iff.mpr (fun _ _ => String.toList_inj.mp) h)

theorem variant_ne_of_siblings {v w : Way} {path : List String} {j k : String} (hne : j ≠ k)
    (hv : v.keysOf .modifier = path ++ [j]) (hw : w.keysOf .modifier = path ++ [k]) :
    v.variant ≠ w.variant := by
  intro h
  simp only [variant, hv, hw, List.flatMap_append, List.append_cancel_left_eq,
    List.flatMap_singleton] at h
  have hj : ['='].intercalate (j.toList.splitOn '=') = j.toList := List.intercalate_splitOn '='
  rw [h, List.intercalate_splitOn '='] at hj
  exact hne (String.toList_inj.mp hj.symm)

end Way

/-- In the elements of a document, every group holds the properties of the nodes of its
selector, every group in a batch holds their values at the width of the batch, and every
property node has a group. Nodes whose modifiers differ as the parts between `=` share no
group. So it is with different modifiers without `=`, and with siblings. -/
theorem variants_stand_apart (start : Widths) (source : String) {name : String} {n : Node}
    (hn : (name, n) ∈ (Design.ofTree start (parse source)).elements) :
    let r := (Design.ofTree start (parse source)).resolver
    let e := r.element name n.entries
    (∀ g ∈ e.groups, g.properties = (nodesOf n.entries g.selector).map (r.property ·.last)) ∧
      (∀ b ∈ e.batches, ∀ g ∈ b.entries, g.properties =
        (nodesOf n.entries g.selector).flatMap fun w => (r.property w.last).atWidth b.width) ∧
      (∀ w ∈ propertyNodes n.entries, ∃ g ∈ e.groups, w ∈ nodesOf n.entries g.selector) ∧
      ∀ v ∈ propertyNodes n.entries, ∀ w ∈ propertyNodes n.entries,
        (v.variant ≠ w.variant → ∀ s, v ∈ nodesOf n.entries s → w ∉ nodesOf n.entries s) ∧
        (v.keysOf .modifier ≠ w.keysOf .modifier →
          (∀ key ∈ v.keysOf .modifier ++ w.keysOf .modifier, '=' ∉ key.toList) →
          v.variant ≠ w.variant) ∧
        ∀ path j k, j ≠ k → v.keysOf .modifier = path ++ [j] →
          w.keysOf .modifier = path ++ [k] → v.variant ≠ w.variant := by
  intro r e
  have hk : ∀ w ∈ ways n.entries, ∀ f ∈ w, f.1 ≠ "" :=
    Design.ne_empty_of_mem_ways start (canonical_parse source) hn
  refine ⟨fun g hg => r.properties_of_mem_groups name hk hg,
    fun b hb g hg => r.properties_of_mem_batches name hk hb hg,
    fun w hw => r.exists_group name hk hw, fun v hv w hw => ⟨?_, ?_, ?_⟩⟩
  · intro hne s hvs hws
    have hs : v.selector = w.selector := by
      rw [of_decide_eq_true (List.mem_filter.mp hvs).2,
        of_decide_eq_true (List.mem_filter.mp hws).2]
    refine hne (Way.variant_eq_of_modifiers_eq ?_ ?_ (congrArg Selector.modifiers hs))
    · exact hk v (List.mem_filter.mp hv).1
    · exact hk w (List.mem_filter.mp hw).1
  · intro hne hplain
    exact Way.variant_ne_of_plain_keys hne (fun k hk => hplain k (List.mem_append_left _ hk))
      fun k hk => hplain k (List.mem_append_right _ hk)
  · intro path j k hne hj hk
    exact Way.variant_ne_of_siblings hne hj hk

/-- Two siblings stand apart, also where the name of one starts the name of the other. -/
theorem variants_stand_apart_siblings :
    let source := "elements\n\tbutton\n\t\ta\n\t\t\tcolor red\n\t\ta=b\n\t\t\tcolor blue"
    let d := Design.ofTree .standard (parse source)
    let m : Node := .branch [("color", .leaf (.text "red"))]
    let o : Node := .branch [("color", .leaf (.text "blue"))]
    let n : Node := .branch [("a", m), ("a=b", o)]
    ("button", n) ∈ d.elements ∧ ∃ g ∈ (d.resolver.element "button" n.entries).groups,
      [("a", m), ("color", .leaf (.text "red"))] ∈ nodesOf n.entries g.selector ∧
        [("a=b", o), ("color", .leaf (.text "blue"))] ∉ nodesOf n.entries g.selector := by
  intro source d m o n
  have hn : ("button", n) ∈ d.elements := by decide +kernel
  obtain ⟨-, -, hgroup, hpair⟩ := variants_stand_apart .standard source hn
  obtain ⟨g, hg, hv⟩ := hgroup [("a", m), ("color", .leaf (.text "red"))] (by decide)
  obtain ⟨hapart, -, hsib⟩ := hpair [("a", m), ("color", .leaf (.text "red"))] (by decide)
    [("a=b", o), ("color", .leaf (.text "blue"))] (by decide)
  exact ⟨hn, g, hg, hv, hapart (hsib [] "a" "a=b" (by decide) (by decide) (by decide)) _ hv⟩

/-- A modifier below another one shares its group with a modifier that is the join of the
two. -/
theorem variants_share_a_group :
    let d := Design.ofTree .standard (parse
      "elements\n\tbutton\n\t\ta\n\t\t\tb\n\t\t\t\tcolor red\n\t\ta=b\n\t\t\twidth wide")
    ∃ e ∈ d.elements, ∃ v ∈ propertyNodes e.2.entries, ∃ w ∈ propertyNodes e.2.entries,
      v.keysOf .modifier = ["a", "b"] ∧ w.keysOf .modifier = ["a=b"] ∧
        (d.resolver.element e.1 e.2.entries).groups =
          [⟨⟨"a=b", ""⟩, [d.resolver.property v.last, d.resolver.property w.last]⟩] := by
  decide +kernel

end DesignSystem
