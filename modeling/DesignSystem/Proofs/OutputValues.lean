import DesignSystem.Output
import DesignSystem.Proofs.CanonicalTree
import DesignSystem.Proofs.ElementBatches
import DesignSystem.Proofs.TierValues

/-! The values in a tree and in a resolved system. Resolving makes no values: each one in the
result stands in the tree. A value that was read from a document has finite numbers only. -/

namespace DesignSystem

section Values

mutual

def Value.numbers : Value → List Binary64
  | .number n => [n]
  | .list items => Value.itemNumbers items
  | _ => []

def Value.itemNumbers : List Value → List Binary64
  | [] => []
  | v :: rest => v.numbers ++ Value.itemNumbers rest

end

def Value.IsFinite (v : Value) : Prop :=
  ∀ n ∈ v.numbers, n.isFinite = true

mutual

def Node.leaves : Node → List Value
  | .leaf v => [v]
  | .branch t => Tree.leaves t

def Tree.leaves : List (String × Node) → List Value
  | [] => []
  | (_, n) :: rest => n.leaves ++ Tree.leaves rest

end

def TierEntry.valuesOf (v : TierEntry) : List Value :=
  v.value :: v.token?.toList.map (·.value)

def PropertyEntry.valuesOf (p : PropertyEntry) : List Value :=
  p.values.flatMap TierEntry.valuesOf

def BatchedEntry.valuesOf (p : BatchedEntry) : List Value :=
  p.value :: p.token?.toList.map (·.value)

def Group.valuesOf {α : Type} (values : α → List Value) (g : Group α) : List Value :=
  g.properties.flatMap values

def Batch.valuesOf {α : Type} (values : α → List Value) (b : Batch α) : List Value :=
  b.entries.flatMap values

def ElementEntry.valuesOf (e : ElementEntry) : List Value :=
  e.groups.flatMap (Group.valuesOf PropertyEntry.valuesOf) ++
    e.batches.flatMap (Batch.valuesOf (Group.valuesOf BatchedEntry.valuesOf))

/-- All values in a resolved system, those of matched tokens among them. -/
def Output.valuesOf (o : Output) : List Value :=
  o.tokens.map (·.value) ++ o.batches.flatMap (Batch.valuesOf fun t => [t.value]) ++
    o.elements.flatMap ElementEntry.valuesOf

end Values

section Leaves

theorem mem_leaves_iff {v : Value} {t : Tree} :
    v ∈ Tree.leaves t ↔ ∃ e ∈ t, v ∈ e.2.leaves := by
  induction t with
  | nil => simp [Tree.leaves]
  | cons e t ih =>
    obtain ⟨key, n⟩ := e
    simp [Tree.leaves, ih]

theorem leaves_entries_subset (n : Node) : Tree.leaves n.entries ⊆ n.leaves := by
  cases n with
  | leaf v => simp [Tree.leaves]
  | branch t => simp [Node.leaves]

theorem leaves_sectionOf_subset (t : Tree) (name : String) :
    Tree.leaves (Design.sectionOf t name) ⊆ Tree.leaves t := by
  intro v hv
  rw [Design.sectionOf, Tree.branch?] at hv
  cases hn : Tree.get? t name with
  | none => simp [hn, Tree.leaves] at hv
  | some n =>
    have hmem : (name, n) ∈ t := Tree.mem_of_get? hn
    cases n with
    | leaf w => simp [hn, Node.branch?, Tree.leaves] at hv
    | branch es =>
      have hes : v ∈ Tree.leaves es := by simpa [hn, Node.branch?] using hv
      exact mem_leaves_iff.mpr ⟨_, hmem, hes⟩

theorem mem_leaves_of_mem_tierValues {n : Node} {x : Tier × Value} (h : x ∈ n.tierValues) :
    x.2 ∈ n.leaves := by
  cases n with
  | leaf v =>
    obtain rfl := List.mem_singleton.mp h
    simp [Node.leaves]
  | branch entries =>
    obtain ⟨e, he, hx⟩ := List.mem_filterMap.mp h
    obtain ⟨tier, -, hx⟩ := Option.bind_eq_some_iff.mp hx
    obtain ⟨value, hvalue, hx⟩ := Option.bind_eq_some_iff.mp hx
    obtain rfl := Option.some.inj hx
    obtain ⟨key, n⟩ := e
    cases n with
    | branch es => cases hvalue
    | leaf v =>
      obtain rfl := Option.some.inj hvalue
      exact mem_leaves_iff.mpr ⟨_, he, by simp [Node.leaves]⟩

mutual

theorem Node.leaves_last_subset : (n : Node) → ∀ w ∈ waysBelow n, w.last.2.leaves ⊆ n.leaves
  | .leaf _, w, hw => by simp [waysBelow] at hw
  | .branch t, w, hw => Tree.leaves_last_subset t w hw

theorem Tree.leaves_last_subset : (t : List (String × Node)) → ∀ w ∈ ways t,
    w.last.2.leaves ⊆ Tree.leaves t
  | [], w, hw => by simp [ways] at hw
  | (key, n) :: rest, w, hw => by
    rw [ways, List.mem_append, List.mem_cons, List.mem_map] at hw
    rw [Tree.leaves]
    obtain (rfl | ⟨v, hv, rfl⟩) | hw := hw
    · exact List.subset_append_left _ _
    · rw [Way.last_cons _ (ne_nil_of_mem_waysBelow hv)]
      exact List.subset_append_of_subset_left _ (Node.leaves_last_subset n v hv)
    · exact List.subset_append_of_subset_right _ (Tree.leaves_last_subset rest w hw)

end

end Leaves

section Resolved

theorem mem_leaves_of_mem_tokenRecords {d : Design} {t : Token} (h : t ∈ d.tokenRecords) :
    t.value ∈ Tree.leaves d.tokens := by
  rw [tokenRecords_eq_flatMap] at h
  obtain ⟨c, hc, h⟩ := List.mem_flatMap.mp h
  obtain ⟨e, he, h⟩ := List.mem_flatMap.mp h
  rw [Token.ofEntry_eq_map] at h
  obtain ⟨x, hx, rfl⟩ := List.mem_map.mp h
  have hbelow : x.2 ∈ Tree.leaves c.2.entries :=
    mem_leaves_iff.mpr ⟨e, he, mem_leaves_of_mem_tierValues hx⟩
  exact mem_leaves_iff.mpr ⟨c, hc, leaves_entries_subset c.2 hbelow⟩

/-- A value of a property stands below a node, and its token is one of the records. -/
def Resolver.TakenFrom (r : Resolver) (leaves : List Value) (v : TierValue) : Prop :=
  v.value ∈ leaves ∧ ∀ t ∈ v.token?, ∃ k ∈ r.tokens, k.toTokenValue = t

theorem Tokens.mem_of_reference? {tokens : Tokens} {category : String} {value : Value}
    {width : Nat} {t : TokenValue} (h : tokens.reference? category value width = some t) :
    ∃ k ∈ tokens, k.toTokenValue = t := by
  obtain ⟨name, -, hname⟩ := Option.bind_eq_some_iff.mp h
  obtain ⟨k, hk, rfl⟩ := Option.map_eq_some_iff.mp hname
  have hmem : ∀ width, tokens.atWidth? category name width = some k → k ∈ tokens :=
    fun width hw => List.mem_reverse.mp (List.mem_of_find?_eq_some hw)
  rw [Tokens.find?] at hk
  obtain hk | ⟨-, hk⟩ := Option.or_eq_some_iff.mp hk
  · exact ⟨k, hmem width hk, rfl⟩
  · exact ⟨k, hmem 0 hk, rfl⟩

theorem takenFrom_property {r : Resolver} {e : String × Node} {v : TierValue}
    (h : v ∈ (r.property e).values) : r.TakenFrom e.2.leaves v := by
  rw [Resolver.property_eq] at h
  obtain ⟨x, hx, rfl⟩ := List.mem_map.mp h
  exact ⟨mem_leaves_of_mem_tierValues hx, fun t ht => Tokens.mem_of_reference? ht⟩

theorem takenFrom_properties {r : Resolver} {declaration : Tree} {x : Selector × Property}
    (h : x ∈ r.properties .plain declaration) {v : TierValue} (hv : v ∈ x.2.values) :
    r.TakenFrom (Tree.leaves declaration) v := by
  rw [properties_eq] at h
  obtain ⟨w, hw, rfl⟩ := List.mem_map.mp h
  obtain ⟨hvalue, htoken⟩ := takenFrom_property hv
  exact ⟨Tree.leaves_last_subset declaration w (List.mem_filter.mp hw).1 hvalue, htoken⟩

theorem mem_propertiesOf {α : Type} {properties : List (Selector × α)} {s : Selector} {p : α}
    (h : p ∈ Group.propertiesOf properties s) : (s, p) ∈ properties := by
  obtain ⟨x, hx, rfl⟩ := List.mem_map.mp h
  obtain ⟨hmem, hs⟩ := List.mem_filter.mp hx
  obtain rfl : x.1 = s := of_decide_eq_true hs
  exact hmem

/-- A value is one of those given or that of a token record. -/
def Resolver.Draws (r : Resolver) (leaves : List Value) (x : Value) : Prop :=
  x ∈ leaves ∨ ∃ k ∈ r.tokens, k.value = x

theorem draws_entry {r : Resolver} {leaves : List Value} {v : TierValue}
    (h : r.TakenFrom leaves v) {x : Value} (hx : x ∈ v.entry.valuesOf) : r.Draws leaves x := by
  obtain rfl | hx := List.mem_cons.mp hx
  · exact Or.inl h.1
  · obtain ⟨t, ht, rfl⟩ := List.mem_map.mp hx
    obtain ⟨token, htoken, rfl⟩ := Option.map_eq_some_iff.mp (Option.mem_toList.mp ht)
    obtain ⟨k, hk, rfl⟩ := h.2 token htoken
    exact Or.inr ⟨k, hk, rfl⟩

theorem draws_groups {r : Resolver} {name : String} {declaration : Tree} {x : Value}
    (hx : x ∈ (r.element name declaration).entry.groups.flatMap
      (Group.valuesOf PropertyEntry.valuesOf)) : r.Draws (Tree.leaves declaration) x := by
  obtain ⟨g', hg', hx⟩ := List.mem_flatMap.mp hx
  obtain ⟨g, hg, rfl⟩ := List.mem_map.mp hg'
  obtain ⟨p', hp', hx⟩ := List.mem_flatMap.mp hx
  obtain ⟨p, hp, rfl⟩ := List.mem_map.mp hp'
  obtain ⟨v', hv', hx⟩ := List.mem_flatMap.mp hx
  obtain ⟨v, hv, rfl⟩ := List.mem_map.mp hv'
  rw [r.propertiesOf_of_mem_groups name hg] at hp
  exact draws_entry (takenFrom_properties (mem_propertiesOf hp) hv) hx

theorem draws_batches {r : Resolver} {name : String} {declaration : Tree} {x : Value}
    (hx : x ∈ (r.element name declaration).entry.batches.flatMap
      (Batch.valuesOf (Group.valuesOf BatchedEntry.valuesOf))) :
    r.Draws (Tree.leaves declaration) x := by
  obtain ⟨b', hb', hx⟩ := List.mem_flatMap.mp hx
  obtain ⟨b, hb, rfl⟩ := List.mem_map.mp hb'
  obtain ⟨g', hg', hx⟩ := List.mem_flatMap.mp hx
  obtain ⟨g, hg, rfl⟩ := List.mem_map.mp hg'
  obtain ⟨p', hp', hx⟩ := List.mem_flatMap.mp hx
  obtain ⟨p, hp, rfl⟩ := List.mem_map.mp hp'
  rw [r.entries_of_mem_batches name hb] at hg
  rw [Group.properties_of_mem_collect hg] at hp
  obtain ⟨q, hq, hp⟩ := List.mem_flatMap.mp (mem_propertiesOf hp)
  obtain ⟨p₀, hp₀, he⟩ := List.mem_map.mp hp
  obtain ⟨v, hv, rfl⟩ := List.mem_map.mp hp₀
  obtain rfl : _ = p := congrArg Prod.snd he
  exact draws_entry (takenFrom_properties hq (List.mem_filter.mp hv).1) hx

/-- Every value in the result stands in the tree. -/
theorem mem_leaves_of_mem_output {start : Widths} {t : Tree} {x : Value}
    (hx : x ∈ (Design.ofTree start t).resolve.output.valuesOf) : x ∈ Tree.leaves t := by
  let d := Design.ofTree start t
  have hrecord : ∀ k ∈ d.tokenRecords, k.value ∈ Tree.leaves t :=
    fun k hk => leaves_sectionOf_subset t "tokens" (mem_leaves_of_mem_tokenRecords hk)
  rw [Output.valuesOf, List.mem_append, List.mem_append] at hx
  obtain (hx | hx) | hx := hx
  · obtain ⟨k', hk', rfl⟩ := List.mem_map.mp hx
    obtain ⟨k, hk, rfl⟩ := List.mem_map.mp hk'
    exact hrecord k hk
  · obtain ⟨b', hb', hx⟩ := List.mem_flatMap.mp hx
    obtain ⟨b, hb, rfl⟩ := List.mem_map.mp hb'
    replace hb : b ∈ d.tokenRecords.batches := batched_tokenSet d ▸ hb
    obtain ⟨e', he', hx⟩ := List.mem_flatMap.mp hx
    obtain ⟨e, he, rfl⟩ := List.mem_map.mp he'
    obtain rfl := List.mem_singleton.mp hx
    rw [← Batch.entriesAt_of_mem (Tokens.ordered_batches _).ascending hb,
      Tokens.entriesAt_batches] at he
    obtain ⟨k, hk, rfl⟩ := List.mem_map.mp he
    exact hrecord k (List.mem_of_mem_filter hk)
  · obtain ⟨e', he', hx⟩ := List.mem_flatMap.mp hx
    obtain ⟨e, he, rfl⟩ := List.mem_map.mp he'
    obtain ⟨f, hf, rfl⟩ := List.mem_map.mp he
    have hdraws : d.resolver.Draws (Tree.leaves f.2.entries) x := by
      rw [ElementEntry.valuesOf, List.mem_append] at hx
      exact hx.elim draws_groups draws_batches
    obtain hleaf | ⟨k, hk, rfl⟩ := hdraws
    · have hsection : x ∈ Tree.leaves d.elements :=
        mem_leaves_iff.mpr ⟨f, hf, leaves_entries_subset f.2 hleaf⟩
      exact leaves_sectionOf_subset t "elements" hsection
    · exact hrecord k hk

end Resolved

section Parsed

theorem Value.isFinite_ofItem (raw : List Char) : (ofItem raw).IsFinite := by
  unfold ofItem
  cases h : readNumber? raw with
  | some n =>
    obtain ⟨-, hn⟩ := Option.filter_eq_some_iff.mp h
    simpa [IsFinite, numbers] using hn
  | none =>
    dsimp only
    split_ifs <;> simp [IsFinite, numbers]

theorem Value.itemNumbers_eq_flatMap (items : List Value) :
    itemNumbers items = items.flatMap numbers := by
  induction items with
  | nil => rfl
  | cons v items ih => rw [itemNumbers, ih, List.flatMap_cons]

theorem Value.isFinite_of_coerce? {raw : String} {v : Value} (h : coerce? raw = some v) :
    v.IsFinite := by
  obtain ⟨-, ⟨-, rfl⟩ | ⟨-, rfl⟩⟩ := coerce?_eq_some.mp h
  · intro n hn
    rw [numbers, itemNumbers_eq_flatMap] at hn
    obtain ⟨item, hitem, hn⟩ := List.mem_flatMap.mp hn
    obtain ⟨raw', -, rfl⟩ := List.mem_map.mp hitem
    exact isFinite_ofItem raw' n hn
  · exact isFinite_ofItem _

mutual

theorem Node.canonical_of_mem_leaves : (n : Node) → n.Canonical → ∀ v ∈ n.leaves, v.Canonical
  | .leaf w, hn, v, hv => by
    obtain rfl := List.mem_singleton.mp hv
    exact hn
  | .branch t, hn, v, hv => Tree.canonical_of_mem_leaves t hn v hv

theorem Tree.canonical_of_mem_leaves : (t : List (String × Node)) → Tree.Canonical t →
    ∀ v ∈ Tree.leaves t, v.Canonical
  | [], _, v, hv => by simp [Tree.leaves] at hv
  | (key, n) :: rest, ht, v, hv => by
    obtain ⟨-, -, hn, hrest⟩ := ht
    obtain hv | hv := List.mem_append.mp hv
    · exact Node.canonical_of_mem_leaves n hn v hv
    · exact Tree.canonical_of_mem_leaves rest hrest v hv

end

theorem isFinite_of_mem_leaves_parse {source : String} {v : Value}
    (h : v ∈ Tree.leaves (parse source)) : v.IsFinite :=
  Value.isFinite_of_coerce? (Tree.canonical_of_mem_leaves _ (canonical_parse source) v h).readsBack

end Parsed

end DesignSystem
