import DesignSystem.Element
import DesignSystem.Proofs.Batching
import DesignSystem.Proofs.Grouping

/-! One pass through a declaration fills groups and batches side by side. It adds the properties of
the declaration in the order of the document, each to the group of its selector, and the values of
each to the batches of their widths. -/

namespace DesignSystem

namespace ElementOutput

/-- Adds a property with its values. -/
def add (out : ElementOutput) (p : Selector × Property) : ElementOutput :=
  (p.2.values.foldl (fun out v => out.addValue p.1 p.2.name v) out).addProperty p.1 p.2

end ElementOutput

namespace Resolver

/-- The property of a set of values per tier. -/
def tierSet (r : Resolver) (property : String) (values : Tree) : Property :=
  ⟨property, values.filterMap fun e => do
    return r.tierValue property (← r.widths.ofName? e.1) (← e.2.leaf?)⟩

mutual

/-- The properties of one entry below a selector. -/
def entryProperties (r : Resolver) (s : Selector) (key : String) :
    Node → List (Selector × Property)
  | .leaf v => [(s, ⟨key, [r.tierValue key 0 v]⟩)]
  | .branch entries =>
    match EntryKind.of key (.branch entries) with
    | .tierSet => [(s, r.tierSet key entries)]
    | .state => r.properties (s.addState key) entries
    | _ => r.properties (s.addModifier key) entries

/-- The properties of a declaration below a selector, in the order of the document. -/
def properties (r : Resolver) (s : Selector) : List (String × Node) → List (Selector × Property)
  | [] => []
  | (key, n) :: rest => r.entryProperties s key n ++ r.properties s rest

end

/-- The values of properties one by one, each with its width and selector. -/
def valuesOf (properties : List (Selector × Property)) :
    List (Nat × Selector × BatchedProperty) :=
  properties.flatMap fun p => p.2.values.map fun v => (v.width, p.1, ⟨p.2.name, v.value, v.token?⟩)

/-- The values of properties in batches. -/
def batches (properties : List (Selector × Property)) : List (Batch (Group BatchedProperty)) :=
  Batch.alterAll (fun v => Group.add v.2.1 v.2.2) (·.1) (valuesOf properties)

section Walking

theorem foldl_addTier (r : Resolver) (s : Selector) (property : String) (values : Tree)
    (out : ElementOutput) (done : List TierValue) :
    values.foldl (r.addTier s property) (out, done) =
      ((r.tierSet property values).values.foldl (fun out v => out.addValue s property v) out,
        done ++ (r.tierSet property values).values) := by
  induction values generalizing out done with
  | nil => simp [tierSet]
  | cons e values ih =>
    obtain ⟨key, n⟩ := e
    cases n with
    | branch t =>
      rw [List.foldl_cons, addTier, ih]
      cases r.widths.ofName? key <;> simp [tierSet, Node.leaf?]
    | leaf v =>
      rw [List.foldl_cons, addTier]
      cases hw : r.widths.ofName? key with
      | none => simp [ih, tierSet, hw]
      | some width => simp [ih, tierSet, hw, Node.leaf?]

theorem addTierSet_eq (r : Resolver) (s : Selector) (property : String) (values : Tree)
    (out : ElementOutput) :
    r.addTierSet s property values out = out.add (s, r.tierSet property values) := by
  rw [addTierSet, foldl_addTier]
  rfl

mutual

theorem walkEntry_eq (r : Resolver) (s : Selector) (key : String) (out : ElementOutput) :
    (n : Node) → r.walkEntry s key out n = (r.entryProperties s key n).foldl .add out
  | .leaf v => rfl
  | .branch entries => by
    rw [walkEntry, entryProperties]
    cases EntryKind.of key (.branch entries) with
    | tierSet => exact r.addTierSet_eq s key entries out
    | state => exact walk_eq r _ out entries
    | leaf | modifier => exact walk_eq r _ out entries

theorem walk_eq (r : Resolver) (s : Selector) (out : ElementOutput) :
    (t : List (String × Node)) → r.walk s out t = (r.properties s t).foldl .add out
  | [] => rfl
  | (key, n) :: rest => by
    rw [walk, properties, List.foldl_append, walkEntry_eq r s key out n, walk_eq r s _ rest]

end

end Walking

section Adding

theorem groups_foldl_addValue (s : Selector) (name : String) (values : List TierValue)
    (out : ElementOutput) :
    (values.foldl (fun out v => out.addValue s name v) out).groups = out.groups := by
  induction values generalizing out with
  | nil => rfl
  | cons v values ih => exact ih (out.addValue s name v)

theorem batches_foldl_addValue (s : Selector) (name : String) (values : List TierValue)
    (out : ElementOutput) :
    (values.foldl (fun out v => out.addValue s name v) out).batches =
      values.foldl (fun batches v =>
        Batch.touch (Group.add s ⟨name, v.value, v.token?⟩) v.width batches) out.batches := by
  induction values generalizing out with
  | nil => rfl
  | cons v values ih => exact ih (out.addValue s name v)

theorem groups_foldl_add (properties : List (Selector × Property)) (out : ElementOutput) :
    (properties.foldl .add out).groups =
      properties.foldl (fun groups p => Group.add p.1 p.2 groups) out.groups := by
  induction properties generalizing out with
  | nil => rfl
  | cons p properties ih =>
    rw [List.foldl_cons, ih, ElementOutput.add, ElementOutput.addProperty, groups_foldl_addValue,
      List.foldl_cons]

theorem batches_foldl_add (properties : List (Selector × Property)) (out : ElementOutput) :
    (properties.foldl .add out).batches =
      (valuesOf properties).foldl (fun batches v =>
        Batch.touch (Group.add v.2.1 v.2.2) v.1 batches) out.batches := by
  induction properties generalizing out with
  | nil => rfl
  | cons p properties ih =>
    have hcons : valuesOf (p :: properties) =
        (p.2.values.map fun v => (v.width, p.1, ⟨p.2.name, v.value, v.token?⟩)) ++
          valuesOf properties := List.flatMap_cons
    rw [List.foldl_cons, ih, ElementOutput.add, ElementOutput.addProperty, batches_foldl_addValue,
      hcons, List.foldl_append, List.foldl_map]

end Adding

/-- What one pass collects is what the properties of the declaration give. -/
theorem element_eq (r : Resolver) (name : String) (declaration : Tree) :
    r.element name declaration =
      ⟨name, Group.collect (r.properties .plain declaration),
        batches (r.properties .plain declaration)⟩ := by
  rw [element, walk_eq, groups_foldl_add, batches_foldl_add, batches, ← Batch.sort_foldl_touch]
  rfl

theorem groups_element (r : Resolver) (name : String) (declaration : Tree) :
    (r.element name declaration).groups = Group.collect (r.properties .plain declaration) :=
  congrArg Element.groups (r.element_eq name declaration)

theorem batches_element (r : Resolver) (name : String) (declaration : Tree) :
    (r.element name declaration).batches = batches (r.properties .plain declaration) :=
  congrArg Element.batches (r.element_eq name declaration)

end Resolver

end DesignSystem
