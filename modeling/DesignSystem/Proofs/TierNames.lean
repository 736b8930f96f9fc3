import DesignSystem.Element

/-! What the entries of a declaration are by the names of the tiers, however a name is looked up. -/

namespace DesignSystem

namespace Tier

/-- The tier that has a key for its name. -/
def named? (key : String) : Option Tier :=
  [base, small, medium, large, extraLarge, extraExtraLarge].find? (key = ·.name)

theorem named?_eq_some_iff {key : String} {tier : Tier} :
    named? key = some tier ↔ key = tier.name := by
  constructor
  · intro h
    simpa using List.find?_some h
  · rintro rfl
    cases tier <;> decide

theorem ofName?_eq_named? (key : String) : ofName? key = named? key := by
  rw [ofName?, named?]
  congr 1
  funext tier
  rw [Bool.eq_iff_iff, beq_iff_eq, decide_eq_true_iff, eq_comm]

theorem ofName?_eq_some_iff {key : String} {tier : Tier} :
    ofName? key = some tier ↔ key = tier.name := by
  rw [ofName?_eq_named?, named?_eq_some_iff]

theorem ofName?_name (tier : Tier) : ofName? tier.name = some tier :=
  ofName?_eq_some_iff.mpr rfl

theorem name_inj {tier u : Tier} : tier.name = u.name ↔ tier = u := by
  rw [← ofName?_eq_some_iff, ofName?_name, Option.some.injEq, eq_comm]

end Tier

/-- There are entries, and each is a value for the tier that it is named for. -/
def HoldsTierValues (entries : Tree) : Prop :=
  entries ≠ [] ∧ ∀ e ∈ entries, (∃ tier : Tier, e.1 = tier.name) ∧ ∃ v, e.2 = .leaf v

theorem isTierSet_iff {entries : Tree} : isTierSet entries = true ↔ HoldsTierValues entries := by
  have hleaf : ∀ n : Node, n.isBranch = false ↔ ∃ v, n = .leaf v := by
    rintro (v | t) <;> simp [Node.isBranch, Node.branch?]
  simp [isTierSet, HoldsTierValues, Tier.ofName?_eq_named?, Option.isSome_iff_exists,
    Tier.named?_eq_some_iff, hleaf]

instance (entries : Tree) : Decidable (HoldsTierValues entries) :=
  decidable_of_iff _ isTierSet_iff

/-- What an entry of a declaration is. -/
def kindOf (e : String × Node) : EntryKind :=
  match e.2 with
  | .leaf _ => .leaf
  | .branch entries =>
    if HoldsTierValues entries then .tierSet
    else if [':'] <+: e.1.toList then .state
    else .modifier

theorem kindOf_eq (key : String) (n : Node) : kindOf (key, n) = EntryKind.of key n := by
  cases n with
  | leaf v => rfl
  | branch entries =>
    have hcolon : [':'] <+: key.toList ↔ key.toList.head? = some ':' := by
      cases key.toList <;> simp [eq_comm]
    simp only [kindOf, EntryKind.of, ← isTierSet_iff, hcolon]

end DesignSystem
