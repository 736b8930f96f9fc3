import DesignSystem.Proofs.NodePlacement
import DesignSystem.Proofs.Sections
import DesignSystem.Proofs.TokenRecords

/-! The values that a node gives to the tiers. Tokens and properties are both read from them,
so a token record can be told from the node of its token. -/

namespace DesignSystem

/-- The values of a node for tiers, in the order of the document. A leaf has one for the
base. -/
def Node.tierValues : Node → List (Tier × Value)
  | .leaf v => [(.base, v)]
  | .branch entries => entries.filterMap fun e => do return (← Tier.named? e.1, ← e.2.leaf?)

theorem Token.ofEntry_eq_map (widths : Widths) (category name : String) (n : Node) :
    ofEntry widths category name n =
      n.tierValues.map fun x => ⟨⟨category, name, x.2⟩, widths.width x.1⟩ := by
  cases n with
  | leaf v => rfl
  | branch entries =>
    rw [ofEntry, Node.tierValues, List.map_filterMap]
    refine List.filterMap_congr fun e _ => ?_
    obtain ⟨key, m⟩ := e
    cases m <;> cases h : Tier.named? key <;>
      simp [Widths.ofName?, Tier.ofName?_eq_named?, h, Node.leaf?]

theorem Resolver.property_eq (r : Resolver) (e : String × Node) :
    r.property e =
      ⟨e.1, e.2.tierValues.map fun x => r.tierValue e.1 (r.widths.width x.1) x.2⟩ := by
  obtain ⟨key, n⟩ := e
  cases n with
  | leaf v => rfl
  | branch entries =>
    rw [Resolver.property, tierSet, Node.tierValues, List.map_filterMap]
    congr 1
    refine List.filterMap_congr fun e _ => ?_
    obtain ⟨k, m⟩ := e
    cases m <;> cases h : Tier.named? k <;>
      simp [Widths.ofName?, Tier.ofName?_eq_named?, h, Node.leaf?]

namespace Tree

theorem filter_flatMap_of_not_mem {α : Type} {t : Tree} {key : String} (hk : key ∉ keys t)
    {f : String × Node → List α} {p : α → Bool}
    (h : ∀ e ∈ t, e.1 ≠ key → (f e).filter p = []) : (t.flatMap f).filter p = [] := by
  rw [List.filter_flatMap, List.flatMap_eq_nil_iff]
  intro e he
  exact h e he fun hek => hk (hek ▸ List.mem_map_of_mem he)

/-- What holds of one key alone is looked for below that key alone. -/
theorem filter_flatMap_of_key {α : Type} {t : Tree} (hn : (keys t).Nodup) (key : String)
    {f : String × Node → List α} {p : α → Bool}
    (h : ∀ e ∈ t, e.1 ≠ key → (f e).filter p = []) :
    (t.flatMap f).filter p = (get? t key).elim [] fun n => (f (key, n)).filter p := by
  induction t with
  | nil => rfl
  | cons e t ih =>
    obtain ⟨k, n⟩ := e
    obtain ⟨hk, hn⟩ := List.nodup_cons.mp hn
    have ht : ∀ e ∈ t, e.1 ≠ key → (f e).filter p = [] := fun e he => h e (by simp [he])
    rw [List.flatMap_cons, List.filter_append, get?_cons]
    by_cases hkey : key = k
    · rw [if_pos hkey, filter_flatMap_of_not_mem (hkey ▸ hk) ht, List.append_nil, hkey]
      rfl
    · rw [if_neg hkey, h (k, n) (by simp) (Ne.symm hkey), ih hn ht, List.nil_append]

end Tree

/-- The node of a token. -/
def Design.token? (d : Design) (category name : String) : Option Node :=
  (d.tokens.branch? category).bind (Tree.get? · name)

theorem Token.filter_ofEntry_of_ne (widths : Widths) {c category n name : String}
    (h : c ≠ category ∨ n ≠ name) (width : Nat) (m : Node) :
    (ofEntry widths c n m).filter
      (fun t => t.category = category ∧ t.name = name ∧ t.width = width) = [] := by
  rw [ofEntry_eq_map, List.filter_eq_nil_iff]
  intro t ht
  obtain ⟨x, -, rfl⟩ := List.mem_map.mp ht
  simp only [decide_eq_true_eq, not_and]
  intro hc hn
  exact absurd h (by simp [hc, hn])

theorem filter_tokenRecords {d : Design} (hd : d.tokens.Canonical) (category name : String)
    (width : Nat) :
    d.tokenRecords.filter (fun t => t.category = category ∧ t.name = name ∧ t.width = width) =
      (d.token? category name).elim [] fun n =>
        (Token.ofEntry d.widths category name n).filter
          (fun t => t.category = category ∧ t.name = name ∧ t.width = width) := by
  rw [tokenRecords_eq_flatMap, Tree.filter_flatMap_of_key hd.nodup_keys category, Design.token?,
    Tree.branch?]
  · cases h : Tree.get? d.tokens category with
    | none => rfl
    | some n =>
      have hn : n.Canonical := hd.node (Tree.mem_of_get? h)
      cases n with
      | leaf v => rfl
      | branch entries =>
        exact Tree.filter_flatMap_of_key hn.entries.nodup_keys name fun e _ hne =>
          Token.filter_ofEntry_of_ne d.widths (.inr hne) width e.2
  · intro c _ hne
    rw [List.filter_flatMap, List.flatMap_eq_nil_iff]
    exact fun e _ => Token.filter_ofEntry_of_ne d.widths (.inl hne) width e.2

/-- The value that a node gives last among the tiers of a width. -/
def Node.valueAt? (n : Node) (widths : Widths) (width : Nat) : Option Value :=
  ((n.tierValues.filter (widths.width ·.1 = width)).getLast?).map (·.2)

theorem last?_tokenRecords {d : Design} (hd : d.tokens.Canonical) (category name : String)
    (width : Nat) :
    (d.tokenRecords.last? category name width).map Token.toTokenValue =
      ((d.token? category name).bind (·.valueAt? d.widths width)).map (⟨category, name, ·⟩) := by
  rw [Tokens.last?, filter_tokenRecords hd]
  cases d.token? category name with
  | none => rfl
  | some n =>
    simp only [Option.elim_some, Option.bind_some, Token.ofEntry_eq_map, List.filter_map,
      List.getLast?_map, Option.map_map, Node.valueAt?]
    simp [Function.comp_def]

end DesignSystem
