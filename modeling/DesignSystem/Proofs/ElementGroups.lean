import DesignSystem.Proofs.ElementWalk
import DesignSystem.Proofs.TierNames
import DesignSystem.Proofs.Ways
import Mathlib.Data.List.Forall2

/-! The groups of an element are its property nodes grouped by selector. A property node is
a leaf or a set of values per tier below states and modifiers only, and its selector is read
off the way to it. -/

namespace DesignSystem

def isFragment (e : String × Node) : Bool :=
  kindOf e = .state || kindOf e = .modifier

namespace Way

def last (w : Way) : String × Node :=
  w.getLastD ("", .branch [])

/-- The way leads through states and modifiers to an entry that is neither. -/
def isProperty (w : Way) : Bool :=
  w.dropLast.all isFragment && !isFragment w.last

def keysOf (kind : EntryKind) (w : Way) : List String :=
  (w.filter fun e => kindOf e = kind).map (·.1)

def selector (w : Way) : Selector :=
  ⟨"=".intercalate (w.keysOf .modifier), String.join (w.keysOf .state)⟩

end Way

/-- The ways to the property nodes of a declaration, in pre-order. -/
def propertyNodes (declaration : Tree) : List Way :=
  (ways declaration).filter Way.isProperty

/-- The latest record of a token at a width. -/
def Tokens.last? (tokens : Tokens) (category name : String) (width : Nat) : Option Token :=
  (tokens.filter fun t => t.category = category ∧ t.name = name ∧ t.width = width).getLast?

namespace Resolver

/-- The token of a value: the latest record of its width or else of width 0 that has its
text for a name and stands in the category of the property. -/
def Names (r : Resolver) (property : String) (v : TierValue) : Prop :=
  v.token? = match v.value with
    | .text name =>
      ((r.tokens.last? (r.aliases.resolve property) name v.width).or
        (r.tokens.last? (r.aliases.resolve property) name 0)).map Token.toTokenValue
    | _ => none

/-- A property has the name of an entry, the value of the entry at width 0 or the values
of its tiers at their widths, and the tokens that they name. -/
def Shows (r : Resolver) (p : Property) (e : String × Node) : Prop :=
  p.name = e.1 ∧ (∀ v ∈ p.values, r.Names e.1 v) ∧
    match e.2 with
    | .leaf value => p.values.map (fun v => (v.width, v.value)) = [(0, value)]
    | .branch entries =>
      List.Forall₂ (fun v (e : String × Node) =>
        ∃ tier : Tier, e.1 = tier.name ∧ v.width = r.widths.width tier ∧ e.2 = .leaf v.value)
        p.values entries

end Resolver

namespace Way

theorem isProperty_singleton (e : String × Node) : isProperty [e] = !isFragment e := by
  simp [isProperty, last]

theorem last_cons (e : String × Node) {w : Way} (h : w ≠ []) : last (e :: w) = w.last := by
  cases w with
  | nil => exact absurd rfl h
  | cons f w => simp [last]

theorem isProperty_cons (e : String × Node) {w : Way} (h : w ≠ []) :
    isProperty (e :: w) = (isFragment e && w.isProperty) := by
  rw [isProperty, last_cons e h, List.dropLast_cons_of_ne_nil h, List.all_cons, Bool.and_assoc]
  rfl

end Way

def Selector.enter (s : Selector) (e : String × Node) : Selector :=
  match kindOf e with
  | .state => s.addState e.1
  | .modifier => s.addModifier e.1
  | _ => s

def Selector.along (s : Selector) (w : Way) : Selector :=
  w.foldl Selector.enter s

def Resolver.property (r : Resolver) : String × Node → Property
  | (key, .leaf v) => ⟨key, [r.tierValue key 0 v]⟩
  | (key, .branch entries) => r.tierSet key entries

/-- The selector of a way from a selector on and the property at its end. -/
def Resolver.contribution (r : Resolver) (s : Selector) (w : Way) : Selector × Property :=
  (s.along w, r.property w.last)

theorem Resolver.contribution_cons (r : Resolver) (s : Selector) (e : String × Node) {w : Way}
    (h : w ≠ []) : r.contribution s (e :: w) = r.contribution (s.enter e) w := by
  rw [contribution, contribution, Way.last_cons e h]
  rfl

/-- Below a fragment the property nodes are those of its entries, and any other entry is the
only one. -/
theorem filter_isProperty_entry (key : String) (n : Node) :
    ([(key, n)] :: (waysBelow n).map ((key, n) :: ·)).filter Way.isProperty =
      if isFragment (key, n) then ((waysBelow n).filter Way.isProperty).map ((key, n) :: ·)
      else [[(key, n)]] := by
  have hh : ∀ w ∈ waysBelow n, (Way.isProperty ∘ ((key, n) :: ·)) w =
      (isFragment (key, n) && w.isProperty) :=
    fun w hw => Way.isProperty_cons _ (ne_nil_of_mem_waysBelow hw)
  rw [List.filter_cons, Way.isProperty_singleton, List.filter_map, List.filter_congr hh]
  cases isFragment (key, n) <;> simp

theorem kind_ne_leaf (key : String) (entries : Tree) :
    EntryKind.of key (.branch entries) ≠ .leaf := by
  rw [EntryKind.of]
  split
  · simp
  · split <;> simp

mutual

theorem entryProperties_eq (r : Resolver) (s : Selector) (key : String) : (n : Node) →
    r.entryProperties s key n =
      (([(key, n)] :: (waysBelow n).map ((key, n) :: ·)).filter Way.isProperty).map
        (r.contribution s)
  | .leaf v => by
    rw [filter_isProperty_entry]
    rfl
  | .branch entries => by
    rw [filter_isProperty_entry, Resolver.entryProperties, waysBelow]
    -- The selector grows on the way down, so the entries are taken below the new one.
    have hb : ∀ s', s' = s.enter (key, .branch entries) →
        r.properties s' entries =
          (((ways entries).filter Way.isProperty).map ((key, .branch entries) :: ·)).map
            (r.contribution s) := by
      rintro s' rfl
      rw [properties_eq r _ entries, propertyNodes, List.map_map]
      refine List.map_congr_left fun w hw => ?_
      exact (r.contribution_cons s _ (ne_nil_of_mem_ways (List.mem_filter.mp hw).1)).symm
    cases hk : EntryKind.of key (.branch entries) with
    | leaf => exact absurd hk (kind_ne_leaf key entries)
    | tierSet =>
      simp [isFragment, kindOf_eq, hk, Resolver.contribution, Resolver.property, Way.last,
        Selector.along, Selector.enter]
    | state =>
      simpa [isFragment, kindOf_eq, hk] using hb _ (by simp [Selector.enter, kindOf_eq, hk])
    | modifier =>
      simpa [isFragment, kindOf_eq, hk] using hb _ (by simp [Selector.enter, kindOf_eq, hk])

/-- A declaration has the properties of its property nodes, in their order. -/
theorem properties_eq (r : Resolver) (s : Selector) : (t : List (String × Node)) →
    r.properties s t = (propertyNodes t).map (r.contribution s)
  | [] => rfl
  | (key, n) :: rest => by
    rw [Resolver.properties, propertyNodes, ways, List.filter_append, List.map_append,
      entryProperties_eq r s key n, properties_eq r s rest, propertyNodes]

end

theorem intercalate_concat (xs : List String) (x : String) :
    "=".intercalate (xs ++ [x]) = if xs = [] then x else "=".intercalate xs ++ "=" ++ x := by
  by_cases h : xs = []
  · simp [h]
  · rw [if_neg h, String.intercalate_append_of_ne_nil h (by simp), String.intercalate_singleton]

theorem intercalate_eq_empty_iff {xs : List String} (h : ∀ x ∈ xs, x ≠ "") :
    "=".intercalate xs = "" ↔ xs = [] := by
  induction xs using List.reverseRecOn with
  | nil => simp
  | append_singleton xs x ih =>
    have hx : x ≠ "" := h x (by simp)
    rw [intercalate_concat]
    split <;> simp [hx]

theorem along_plain {w : Way} (h : ∀ e ∈ w, e.1 ≠ "") : Selector.plain.along w = w.selector := by
  induction w using List.reverseRecOn with
  | nil => simp [Selector.along, Selector.plain, Way.selector, Way.keysOf]
  | append_singleton w e ih =>
    have hh : ∀ x ∈ Way.keysOf .modifier w, x ≠ "" := by
      intro x hx
      obtain ⟨f, hf, rfl⟩ := List.mem_map.mp hx
      exact h f (List.mem_append_left _ (List.mem_filter.mp hf).1)
    have hstep : Selector.plain.along (w ++ [e]) = (Selector.plain.along w).enter e := by
      simp [Selector.along]
    rw [hstep, ih fun f hf => h f (List.mem_append_left _ hf)]
    cases hk : kindOf e with
    | leaf => simp [Selector.enter, hk, Way.selector, Way.keysOf]
    | tierSet => simp [Selector.enter, hk, Way.selector, Way.keysOf]
    | state => simp [Selector.enter, hk, Way.selector, Way.keysOf, Selector.addState]
    | modifier =>
      -- An empty join has to mean that there was no modifier: here no key may be empty.
      simp only [Selector.enter, hk, Selector.addModifier, Way.selector, Selector.mk.injEq]
      have hm : Way.keysOf .modifier (w ++ [e]) = Way.keysOf .modifier w ++ [e.1] := by
        simp [Way.keysOf, hk]
      have hs : Way.keysOf .state (w ++ [e]) = Way.keysOf .state w := by
        simp [Way.keysOf, hk]
      rw [hm, hs, intercalate_concat]
      simp [String.isEmpty_iff, intercalate_eq_empty_iff hh]

theorem Tokens.atWidth?_eq_last? (tokens : Tokens) (category name : String) (width : Nat) :
    tokens.atWidth? category name width = tokens.last? category name width := by
  rw [Tokens.last?, List.getLast?_eq_head?_reverse, ← List.filter_reverse, List.head?_filter,
    Tokens.atWidth?]
  congr 1
  funext t
  grind

namespace Resolver

theorem names_tierValue (r : Resolver) (property : String) (width : Nat) (v : Value) :
    r.Names property (r.tierValue property width v) := by
  cases v <;> simp [Names, tierValue, Tokens.reference?, Value.text?, Tokens.find?,
    Tokens.atWidth?_eq_last?]

theorem forall₂_tierSet (r : Resolver) (property : String) {entries : Tree}
    (h : ∀ e ∈ entries, (∃ tier : Tier, e.1 = tier.name) ∧ ∃ v, e.2 = .leaf v) :
    List.Forall₂ (fun v (e : String × Node) =>
      ∃ tier : Tier, e.1 = tier.name ∧ v.width = r.widths.width tier ∧ e.2 = .leaf v.value)
      (r.tierSet property entries).values entries := by
  induction entries with
  | nil => exact .nil
  | cons e entries ih =>
    obtain ⟨⟨tier, ht⟩, v, hv⟩ := h e (by simp)
    obtain ⟨key, n⟩ := e
    subst ht hv
    have hh : (r.tierSet property ((tier.name, .leaf v) :: entries)).values =
        r.tierValue property (r.widths.width tier) v :: (r.tierSet property entries).values := by
      simp [tierSet, Widths.ofName?, Tier.ofName?_name, Node.leaf?]
    rw [hh]
    exact .cons ⟨tier, rfl, rfl, rfl⟩ (ih fun e he => h e (by simp [he]))

theorem holdsTierValues_of_not_fragment {key : String} {entries : Tree}
    (h : isFragment (key, .branch entries) = false) : HoldsTierValues entries := by
  by_contra hc
  simp only [isFragment, kindOf, hc] at h
  split at h <;> simp_all

theorem shows_property (r : Resolver) {e : String × Node} (h : isFragment e = false) :
    r.Shows (r.property e) e := by
  obtain ⟨key, n⟩ := e
  cases n with
  | leaf v =>
    exact ⟨rfl, by simpa [property] using r.names_tierValue key 0 v, rfl⟩
  | branch entries =>
    refine ⟨rfl, ?_, forall₂_tierSet r key ?_⟩
    · intro v hv
      obtain ⟨e, -, he⟩ := List.mem_filterMap.mp hv
      simp only [Option.bind_eq_bind, Option.bind_eq_some_iff, Option.pure_def] at he
      obtain ⟨width, -, w, -, hw⟩ := he
      rw [← Option.some.inj hw]
      exact r.names_tierValue key width w
    · intro e he
      exact (holdsTierValues_of_not_fragment h).2 e he

end Resolver

/-- The groups of an element lose, double and misplace nothing. Each has the selector of a
property node, no two have the same and none is empty, and they stand in the order of their
first nodes. The properties of a group show the nodes of its selector in pre-order, with a
value for each value that the declaration gives and the token that it names. -/
theorem element_groups (r : Resolver) (name : String) {declaration : Tree}
    (h : ∀ w ∈ ways declaration, ∀ e ∈ w, e.1 ≠ "") :
    let nodes := propertyNodes declaration
    let groups := (r.element name declaration).groups
    (groups.map (·.selector)).Nodup ∧ (∀ g ∈ groups, g.properties ≠ []) ∧
      groups.map (·.selector) = (nodes.map Way.selector).eraseDups ∧
      ∀ g ∈ groups, List.Forall₂ (fun p (w : Way) => r.Shows p w.last) g.properties
        (nodes.filter (·.selector = g.selector)) := by
  intro nodes groups
  let properties := nodes.map fun w => (w.selector, r.property w.last)
  have hp : r.properties .plain declaration = properties := by
    rw [properties_eq]
    refine List.map_congr_left fun w hw => ?_
    rw [Resolver.contribution, along_plain (h w (List.mem_filter.mp hw).1)]
  have hg : groups = (Group.selectorsOf properties).map fun s =>
      ⟨s, Group.propertiesOf properties s⟩ := by
    rw [← Group.collect_eq, ← hp]
    exact r.groups_element name declaration
  have hs : groups.map (·.selector) = Group.selectorsOf properties := by
    simp [hg, Function.comp_def]
  have hof : ∀ s, Group.propertiesOf properties s =
      (nodes.filter (·.selector = s)).map fun w => r.property w.last := by
    simp [Group.propertiesOf, properties, List.filter_map, Function.comp_def]
  refine ⟨hs ▸ Group.nodup_selectorsOf properties, ?_, ?_, ?_⟩
  · intro g hm
    rw [hg] at hm
    obtain ⟨s, hs, rfl⟩ := List.mem_map.mp hm
    exact Group.mem_selectorsOf.mp hs
  · simp [hs, Group.selectorsOf, properties, Function.comp_def]
  · intro g hm
    rw [hg] at hm
    obtain ⟨s, -, rfl⟩ := List.mem_map.mp hm
    rw [hof, List.forall₂_map_left_iff]
    refine List.forall₂_same.mpr fun w hw => r.shows_property ?_
    have hw := (List.mem_filter.mp (List.mem_filter.mp hw).1).2
    rw [Way.isProperty, Bool.and_eq_true, Bool.not_eq_true'] at hw
    exact hw.2

/-- Hovering in the dark gives one selector, whichever of the two is written first. -/
theorem element_groups_interleaved :
    let declaration : Tree :=
      [(":hover", .branch [("dark", .branch [("color", .leaf (.text "red"))])]),
        ("dark", .branch [(":hover", .branch [("width", .leaf (.text "wide"))])])]
    (∀ w ∈ ways declaration, ∀ e ∈ w, e.1 ≠ "") ∧
      ∃ p q, ((⟨.standard, [], []⟩ : Resolver).element "button" declaration).groups =
        [⟨⟨"dark", ":hover"⟩, [p, q]⟩] := by
  intro declaration
  have hk : ∀ w ∈ ways declaration, ∀ e ∈ w, e.1 ≠ "" := by decide
  obtain ⟨-, -, hs, hp⟩ := element_groups ⟨.standard, [], []⟩ "button" hk
  have hone : ((propertyNodes declaration).map Way.selector).eraseDups = [⟨"dark", ":hover"⟩] := by
    decide
  rw [hone] at hs
  obtain ⟨g, hg, hsel⟩ := List.map_eq_singleton_iff.mp hs
  have hh := (hp g (by simp [hg])).length_eq
  have htwo : ((propertyNodes declaration).filter
      (·.selector = ⟨"dark", ":hover"⟩)).length = 2 := by decide
  rw [hsel, htwo] at hh
  obtain ⟨p, q, hpq⟩ := List.length_eq_two.mp hh
  exact ⟨hk, p, q, by rw [hg, ← hsel, ← hpq]⟩

end DesignSystem
