import DesignSystem.Stylesheet
import DesignSystem.Proofs.TierValues

/-! The token values that properties refer to. A reference for a tier looks at the width of
the tier and then at width 0. As long as the tiers of a token can be told apart by their
widths, that is the value of the token for the tier or else for the base. -/

namespace DesignSystem

theorem getLast?_filter_eq_lookup {α β : Type} [DecidableEq α] {l : List (α × β)}
    (hn : (l.map (·.1)).Nodup) (k : α) :
    ((l.filter (·.1 = k)).getLast?).map (·.2) = l.lookup k := by
  induction l with
  | nil => rfl
  | cons x l ih =>
    obtain ⟨j, v⟩ := x
    obtain ⟨hj, hn⟩ := List.nodup_cons.mp hn
    by_cases h : j = k
    · -- With the key at the head no later entry has it.
      have hnone : l.filter (·.1 = k) = [] := by
        refine List.filter_eq_nil_iff.mpr fun y hy hyk => hj ?_
        exact List.mem_map.mpr ⟨y, hy, (of_decide_eq_true hyk).trans h.symm⟩
      simp [h, hnone]
    · rw [List.filter_cons_of_neg (by simpa using h), ih hn, List.lookup_cons,
        beq_false_of_ne (Ne.symm h)]

namespace Node

theorem nodup_tiers {n : Node} (hn : n.Canonical) : (n.tierValues.map (·.1)).Nodup := by
  cases n with
  | leaf v => simp [tierValues]
  | branch entries =>
    have hk : entries.Pairwise (·.1 ≠ ·.1) := List.pairwise_map.mp (Tree.Canonical.nodup_keys hn)
    have hname : ∀ {e : String × Node} {x : Tier × Value},
        (do return (← Tier.named? e.1, ← e.2.leaf?)) = some x → e.1 = x.1.name := by
      intro e x hx
      simp only [Option.bind_eq_bind, Option.bind_eq_some_iff, Option.pure_def] at hx
      obtain ⟨t, ht, v, -, he⟩ := hx
      rw [Tier.named?_eq_some_iff.mp ht, ← Option.some.inj he]
    refine List.pairwise_map.mpr (hk.filterMap _ fun e f hef x hx y hy hxy => hef ?_)
    rw [hname hx, hname hy, hxy]

/-- The value that a reference for a tier takes from the node of a token. -/
def matched? (n : Node) (widths : Widths) (t : Tier) : Option Value :=
  (n.valueAt? widths (widths.width t)).or (n.valueAt? widths 0)

/-- The value of the node for a tier or else for the base. -/
def valueFor? (n : Node) (t : Tier) : Option Value :=
  (n.tierValues.lookup t).or (n.tierValues.lookup .base)

/-- No other tier of the node has the width of the tier, and none but the base has width 0. -/
def TellsApart (n : Node) (widths : Widths) (t : Tier) : Prop :=
  ∀ x ∈ n.tierValues, (widths.width x.1 = widths.width t → x.1 = t) ∧
    (widths.width x.1 = 0 → x.1 = .base)

theorem valueAt?_width {n : Node} (hn : n.Canonical) {widths : Widths} {t : Tier}
    (h : ∀ x ∈ n.tierValues, widths.width x.1 = widths.width t → x.1 = t) :
    n.valueAt? widths (widths.width t) = n.tierValues.lookup t := by
  have hf : n.tierValues.filter (widths.width ·.1 = widths.width t) =
      n.tierValues.filter (·.1 = t) := by
    refine List.filter_congr fun x hx => decide_eq_decide.mpr ⟨h x hx, ?_⟩
    rintro rfl
    rfl
  rw [valueAt?, hf, getLast?_filter_eq_lookup (nodup_tiers hn)]

theorem matched?_eq_valueFor? {n : Node} (hn : n.Canonical) {widths : Widths} {t : Tier}
    (h : n.TellsApart widths t) : n.matched? widths t = n.valueFor? t := by
  have hb : n.valueAt? widths 0 = n.tierValues.lookup .base :=
    valueAt?_width (t := .base) hn fun x hx => (h x hx).2
  rw [matched?, valueAt?_width hn fun x hx => (h x hx).1, hb, valueFor?]

end Node

theorem Design.canonical_token {d : Design} (hd : d.tokens.Canonical) {category name : String}
    {n : Node} (h : d.token? category name = some n) : n.Canonical := by
  obtain ⟨entries, hc, hn⟩ := Option.bind_eq_some_iff.mp h
  exact (hd.branch hc).node (Tree.mem_of_get? hn)

theorem Design.token?_tierValue {d : Design} (hd : d.tokens.Canonical) {property name : String}
    {t : Tier} {token : Node} (h : d.token? (d.aliases.resolve property) name = some token) :
    (d.resolver.tierValue property (d.widths.width t) (.text name)).token? =
      (token.matched? d.widths t).map (⟨d.aliases.resolve property, name, ·⟩) := by
  have hr : (d.resolver.tierValue property (d.widths.width t) (.text name)).token? =
      (d.tokenRecords.find? (d.aliases.resolve property) name (d.widths.width t)).map
        Token.toTokenValue := rfl
  rw [hr, Tokens.find?, Tokens.atWidth?_eq_last?, Tokens.atWidth?_eq_last?, Option.map_or,
    last?_tokenRecords hd, last?_tokenRecords hd, h, Option.bind_some, Option.bind_some,
    ← Option.map_or, Node.matched?]

/-- A property shows the values of an entry for their tiers. A text that names a token of the
category of the property takes the value of the token that stands last at the width of its
tier, or else last at width 0. Where the token tells its tiers apart, that is its value for
the tier or else for the base. -/
def Design.Refers (d : Design) (p : Property) (e : String × Node) : Prop :=
  p.name = e.1 ∧ List.Forall₂ (fun v x => v.width = d.widths.width x.1 ∧ v.value = x.2 ∧
    ∀ name token, x.2 = .text name → d.token? (d.aliases.resolve e.1) name = some token →
      v.token? = (token.matched? d.widths x.1).map (⟨d.aliases.resolve e.1, name, ·⟩) ∧
        (token.TellsApart d.widths x.1 →
          v.token? = (token.valueFor? x.1).map (⟨d.aliases.resolve e.1, name, ·⟩)))
    p.values e.2.tierValues

theorem Design.refers_property {d : Design} (hd : d.tokens.Canonical) (e : String × Node) :
    d.Refers (d.resolver.property e) e := by
  rw [Resolver.property_eq]
  refine ⟨rfl, List.forall₂_map_left_iff.mpr (List.forall₂_same.mpr fun x _ => ⟨rfl, rfl, ?_⟩)⟩
  intro name token hx ht
  have hm := token?_tierValue (t := x.1) hd ht
  rw [← hx] at hm
  refine ⟨hm, fun hapart => hm.trans ?_⟩
  rw [Node.matched?_eq_valueFor? (canonical_token hd ht) hapart]

/-- In the resolved elements of a document each property node has a group, and each property of a
group refers to tokens by the widths of its tiers. The batches hold what the groups say, and
all of it. -/
theorem references_by_width (start : Widths) (source : String) :
    let d := Design.ofTree start (parse source)
    List.Forall₂ (fun (out : Element) (e : String × Node) =>
      (∀ w ∈ propertyNodes e.2.entries, ∃ g ∈ out.groups, w ∈ nodesOf e.2.entries g.selector) ∧
      (∀ g ∈ out.groups, List.Forall₂ (fun p (w : Way) => d.Refers p w.last) g.properties
        (nodesOf e.2.entries g.selector)) ∧
      (∀ b ∈ out.batches, ∀ g ∈ b.entries, g.properties = out.atWidth g.selector b.width) ∧
      ∀ s width, out.atWidth s width ≠ [] →
        ∃ b ∈ out.batches, b.width = width ∧ ∃ g ∈ b.entries, g.selector = s)
      d.resolve.elements d.elements := by
  -- All that matters of the document is that its tree is canonical.
  have hc := canonical_parse source
  generalize parse source = t at hc ⊢
  intro d
  have hd : d.tokens.Canonical := Design.canonical_sectionOf hc "tokens"
  refine List.forall₂_map_left_iff.mpr (List.forall₂_same.mpr fun e he => ?_)
  have hk := Design.ne_empty_of_mem_ways start hc he
  refine ⟨fun w hw => d.resolver.exists_group e.1 hk hw, fun g hg => ?_,
    fun b hb g hg => d.resolver.properties_of_mem_entries e.1 hb hg,
    fun s width h => d.resolver.exists_batched_group e.1 h⟩
  rw [d.resolver.properties_of_mem_groups e.1 hk hg]
  exact List.forall₂_map_left_iff.mpr
    (List.forall₂_same.mpr fun w _ => Design.refers_property hd w.last)

/-- Where two tiers have one width, a reference for the first can take the value of the token
for the second. -/
theorem reference_takes_other_tier :
    let d := Design.ofTree .standard (parse ("breakpoints\n\tmedium 576\n" ++
      "tokens\n\tgap\n\t\tgutter\n\t\t\tsmall tight\n\t\t\tmedium loose\n" ++
      "elements\n\tcard\n\t\tgap\n\t\t\tsmall gutter"))
    d.elements.map (fun e => (e.1, e.2.entries.map fun f => (f.1, f.2.tierValues))) =
        [("card", [("gap", [(.small, .text "gutter")])])] ∧
      (d.token? (d.aliases.resolve "gap") "gutter").bind (·.valueFor? .small) =
        some (.text "tight") ∧
      d.resolve.elements.map (·.groups) = [[⟨.plain, [⟨"gap",
        [⟨576, .text "gutter", some ⟨"gap", "gutter", .text "loose"⟩⟩]⟩]⟩]] := by
  decide +kernel

end DesignSystem
