import DesignSystem.Proofs.AliasLookup
import DesignSystem.Proofs.Blocks
import DesignSystem.Proofs.ElementGroups

/-! The `property` entry of the aliases. Beside a `tokens` entry it has no effect. Where the
section itself is the table it is a row like the others, so the properties that it lists draw
from a category `property`. -/

namespace DesignSystem

namespace Tree

def without (key : String) (t : Tree) : Tree :=
  t.filter fun e => e.1 ≠ key

theorem get?_without {key name : String} (h : name ≠ key) (t : Tree) :
    get? (without key t) name = get? t name := by
  induction t with
  | nil => rfl
  | cons e t ih =>
    obtain ⟨k, n⟩ := e
    by_cases hk : k = key
    · have hname : name ≠ k := hk ▸ h
      rw [without, List.filter_cons_of_neg (by simpa using hk), get?_cons, if_neg hname]
      exact ih
    · rw [without, List.filter_cons_of_pos (by simpa using hk), get?_cons, get?_cons]
      exact congrArg _ ih

end Tree

/-- The sections agree but for the `property` entry of the aliases. -/
structure AgreeButProperty (s t : Tree) : Prop where
  sections : ∀ name ∈ sectionNames, name ≠ "aliases" →
    Design.sectionOf s name = Design.sectionOf t name
  aliases : Tree.without "property" (Design.sectionOf s "aliases") =
    Tree.without "property" (Design.sectionOf t "aliases")

namespace Aliases

/-- The first row that lists the property is called `property`. -/
def FromPropertyRow (aliases : Aliases) (property : String) : Prop :=
  (aliases.find? fun row => bareProperty property ∈ row.2).map (·.1) = some "property"

instance (aliases : Aliases) (property : String) :
    Decidable (aliases.FromPropertyRow property) :=
  inferInstanceAs (Decidable (_ = _))

/-- Rows called `property` matter to nothing but the properties that are drawn from them. -/
theorem resolve_filter {aliases : Aliases} {property : String}
    (h : ¬ aliases.FromPropertyRow property) :
    resolve (aliases.filter (·.1 ≠ "property")) property = aliases.resolve property := by
  rw [FromPropertyRow] at h
  rw [resolve_eq, resolve_eq]
  congr 1
  induction aliases with
  | nil => rfl
  | cons row rows ih =>
    by_cases hlists : bareProperty property ∈ row.2
    · have hname : row.1 ≠ "property" := by simpa [hlists] using h
      simp [hname, hlists]
    · have hrest := ih (by simpa [hlists] using h)
      by_cases hname : row.1 = "property" <;> simpa [hname, hlists] using hrest

theorem ofSection_eq_of_tokens {es fs : Tree}
    (h : Tree.without "property" es = Tree.without "property" fs)
    (htokens : (Tree.branch? es "tokens").isSome) : ofSection es = ofSection fs := by
  have hget : ∀ es : Tree,
      Tree.get? (Tree.without "property" es) "tokens" = Tree.get? es "tokens" :=
    Tree.get?_without (by decide)
  have hbranch : Tree.branch? es "tokens" = Tree.branch? fs "tokens" := by
    rw [Tree.branch?, Tree.branch?, ← hget es, h, hget fs]
  obtain ⟨table, htable⟩ := Option.isSome_iff_exists.mp htokens
  rw [ofSection, ofSection, ← hbranch, htable, Option.getD_some, Option.getD_some]

/-- In both layouts the tables agree but for rows called `property`. -/
theorem filter_ofSection_congr {es fs : Tree}
    (h : Tree.without "property" es = Tree.without "property" fs) :
    (ofSection es).filter (·.1 ≠ "property") = (ofSection fs).filter (·.1 ≠ "property") := by
  by_cases htokens : (Tree.branch? es "tokens").isSome
  · rw [ofSection_eq_of_tokens h htokens]
  by_cases hother : (Tree.branch? fs "tokens").isSome
  · rw [ofSection_eq_of_tokens h.symm hother]
  rw [Option.not_isSome_iff_eq_none] at htokens hother
  have hrows : ∀ es : Tree, (es.map fun e => (e.1, properties e.2)).filter (·.1 ≠ "property") =
      (Tree.without "property" es).map fun e => (e.1, properties e.2) :=
    fun es => List.filter_map
  rw [ofSection, ofSection, htokens, hother, Option.getD_none, Option.getD_none, hrows, hrows, h]

end Aliases

section Resolving

theorem Resolver.property_congr (r : Resolver) {aliases : Aliases} {e : String × Node}
    (h : aliases.resolve e.1 = r.aliases.resolve e.1) :
    ({ r with aliases } : Resolver).property e = r.property e := by
  obtain ⟨key, n⟩ := e
  have hvalue : ∀ width v,
      ({ r with aliases } : Resolver).tierValue key width v = r.tierValue key width v := by
    intro width v
    rw [tierValue, tierValue, h]
  cases n with
  | leaf v => rw [property, property, hvalue]
  | branch entries => simp only [property, tierSet, hvalue]

/-- An element depends on the aliases through the categories of its property nodes alone. -/
theorem Resolver.element_congr (r : Resolver) {aliases : Aliases} (name : String)
    {declaration : Tree} (h : ∀ w ∈ propertyNodes declaration,
      aliases.resolve w.last.1 = r.aliases.resolve w.last.1) :
    ({ r with aliases } : Resolver).element name declaration = r.element name declaration := by
  have hproperties : ({ r with aliases } : Resolver).properties .plain declaration =
      r.properties .plain declaration := by
    rw [properties_eq, properties_eq]
    refine List.map_congr_left fun w hw => ?_
    rw [contribution, contribution, r.property_congr (h w hw)]
  rw [element_eq, element_eq, hproperties]

theorem Design.resolve_congr (d : Design) {aliases : Aliases}
    (h : ∀ e ∈ d.elements, ∀ w ∈ propertyNodes e.2.entries,
      aliases.resolve w.last.1 = d.aliases.resolve w.last.1) :
    ({ d with aliases } : Design).resolve = d.resolve := by
  have helements : ∀ e ∈ d.elements,
      ({ d with aliases } : Design).resolver.element e.1 e.2.entries =
        d.resolver.element e.1 e.2.entries :=
    fun e he => d.resolver.element_congr e.1 (h e he)
  have hmap := List.map_congr_left helements
  rw [resolve, resolve]
  exact congrArg (Stylesheet.mk d.tokenRecords d.tokenSet.batched) hmap

theorem AgreeButProperty.ofTree_eq {s t : Tree} (h : AgreeButProperty s t) (start : Widths) :
    Design.ofTree start s =
      { Design.ofTree start t with aliases := (Design.ofTree start s).aliases } := by
  rw [Design.ofTree, Design.ofTree, h.sections "breakpoints" (by decide) (by decide),
    h.sections "tokens" (by decide) (by decide), h.sections "elements" (by decide) (by decide)]

end Resolving

/-- The `property` entry changes nothing where the aliases have a `tokens` entry. Without one it
changes nothing as long as no property of an element is first listed by a row called `property`,
with the one entry or with the other. -/
theorem property_entry_without_effect (start : Widths) {s t : Tree} (h : AgreeButProperty s t) :
    let d := Design.ofTree start s
    let e := Design.ofTree start t
    (((Design.sectionOf s "aliases").branch? "tokens").isSome → d.resolve = e.resolve) ∧
      ((∀ x ∈ e.elements, ∀ w ∈ propertyNodes x.2.entries,
        ¬ d.aliases.FromPropertyRow w.last.1 ∧ ¬ e.aliases.FromPropertyRow w.last.1) →
        d.resolve = e.resolve) := by
  intro d e
  have hd : d = { e with aliases := d.aliases } := h.ofTree_eq start
  refine ⟨fun htokens => ?_, fun hrows => ?_⟩
  · have haliases : d.aliases = e.aliases := Aliases.ofSection_eq_of_tokens h.aliases htokens
    rw [hd, haliases]
  · rw [hd]
    refine e.resolve_congr fun x hx w hw => ?_
    obtain ⟨hs, ht⟩ := hrows x hx w hw
    have hfilter : d.aliases.filter (·.1 ≠ "property") = e.aliases.filter (·.1 ≠ "property") :=
      Aliases.filter_ofSection_congr h.aliases
    rw [← Aliases.resolve_filter hs, ← Aliases.resolve_filter ht, hfilter]

/-- The entry is dropped beside a `tokens` entry, and behind a row that lists its name as well. -/
theorem property_entry_without_effect_shadowed :
    let fill : Node := .leaf (.text "fill")
    let rest : Tree := [("tokens", .branch [("color", .branch [("ink", .leaf (.text "black"))])]),
      ("elements", .branch [("card", .branch [("fill", .leaf (.text "ink"))])])]
    let beside : Tree :=
      ("aliases", .branch [("property", fill), ("tokens", .branch [("color", fill)])]) :: rest
    let without : Tree := ("aliases", .branch [("tokens", .branch [("color", fill)])]) :: rest
    let behind : Tree := ("aliases", .branch [("color", fill), ("property", fill)]) :: rest
    let alone : Tree := ("aliases", .branch [("color", fill)]) :: rest
    (AgreeButProperty beside without ∧ AgreeButProperty behind alone) ∧
      (Design.ofTree .standard beside).resolve = (Design.ofTree .standard without).resolve ∧
      (Design.ofTree .standard behind).resolve = (Design.ofTree .standard alone).resolve := by
  intro fill rest beside without behind alone
  have htokens : AgreeButProperty beside without := ⟨by decide, by decide⟩
  have hrow : AgreeButProperty behind alone := ⟨by decide, by decide⟩
  exact ⟨⟨htokens, hrow⟩, (property_entry_without_effect .standard htokens).1 (by decide),
    (property_entry_without_effect .standard hrow).2 (by decide +kernel)⟩

/-- Without a `tokens` entry, `fill` is drawn from a category `property` and finds no token. -/
theorem property_entry_read_as_row :
    let rest : Tree := [("tokens", .branch [("fill", .branch [("ink", .leaf (.text "black"))])]),
      ("elements", .branch [("card", .branch [("fill", .leaf (.text "ink"))])])]
    let given : Tree := ("aliases", .branch [("property", .leaf (.text "fill"))]) :: rest
    let removed : Tree := ("aliases", .branch []) :: rest
    given = parse ("aliases\n\tproperty fill\ntokens\n\tfill\n\t\tink black\n" ++
        "elements\n\tcard\n\t\tfill ink") ∧
      AgreeButProperty given removed ∧
      (Design.ofTree .standard given).resolve ≠ (Design.ofTree .standard removed).resolve := by
  intro rest given removed
  refine ⟨by decide +kernel, ⟨by decide, by decide⟩, fun h => ?_⟩
  have hgroups := congrArg (fun s => s.elements.map Element.groups) h
  revert hgroups
  decide +kernel

end DesignSystem
