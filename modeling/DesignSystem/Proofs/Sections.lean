import DesignSystem.Design
import DesignSystem.Proofs.CanonicalTree
import DesignSystem.Proofs.Ways

/-! The sections of a document. They are canonical trees like the document itself, so names
in them are words at every level and no level has a name twice. -/

namespace DesignSystem

namespace Tree

theorem Canonical.node {t : Tree} (ht : t.Canonical) {e : String × Node} (he : e ∈ t) :
    e.2.Canonical := by
  induction t with
  | nil => cases he
  | cons f t ih =>
    obtain ⟨-, -, hn, ht⟩ := ht
    rcases List.mem_cons.mp he with rfl | he
    · exact hn
    · exact ih ht he

theorem Canonical.nodup_keys {t : Tree} (ht : t.Canonical) : (keys t).Nodup := by
  induction t with
  | nil => exact List.nodup_nil
  | cons e t ih =>
    obtain ⟨-, hk, -, ht⟩ := ht
    exact List.nodup_cons.mpr ⟨hk, ih ht⟩

theorem mem_of_get? {t : Tree} {key : String} {n : Node} (h : get? t key = some n) :
    (key, n) ∈ t := by
  obtain ⟨s, u, rfl, -⟩ := List.lookup_eq_some_iff.mp h
  simp

theorem Canonical.branch {t es : Tree} (ht : t.Canonical) {key : String}
    (h : branch? t key = some es) : es.Canonical := by
  obtain ⟨n, hn, he⟩ := Option.bind_eq_some_iff.mp h
  cases n with
  | leaf v => cases he
  | branch u =>
    obtain rfl := Option.some.inj he
    exact ht.node (mem_of_get? hn)

end Tree

theorem Node.Canonical.entries {n : Node} (hn : n.Canonical) : Tree.Canonical n.entries := by
  cases n with
  | leaf v => exact trivial
  | branch t => exact hn

mutual

theorem Node.isWord_of_mem_waysBelow : {n : Node} → n.Canonical → ∀ w ∈ waysBelow n, ∀ e ∈ w,
    IsWord e.1.toList
  | .leaf _, _ => by simp [waysBelow]
  | .branch _, hn => Tree.isWord_of_mem_ways hn

/-- The names on all ways down a canonical tree are words. -/
theorem Tree.isWord_of_mem_ways : {t : List (String × Node)} → Tree.Canonical t →
    ∀ w ∈ ways t, ∀ e ∈ w, IsWord e.1.toList
  | [], _ => by simp [ways]
  | (key, n) :: rest, ht => by
    obtain ⟨hk, -, hn, hr⟩ := ht
    intro w hw e he
    rw [ways, List.mem_append, List.mem_cons, List.mem_map] at hw
    rcases hw with (rfl | ⟨v, hv, rfl⟩) | hw
    · rwa [List.mem_singleton.mp he]
    · rcases List.mem_cons.mp he with rfl | he
      · exact hk
      · exact Node.isWord_of_mem_waysBelow hn v hv e he
    · exact Tree.isWord_of_mem_ways hr w hw e he

end

namespace Design

theorem canonical_sectionOf {t : Tree} (ht : t.Canonical) (name : String) :
    Tree.Canonical (sectionOf t name) := by
  rw [sectionOf]
  cases h : t.branch? name with
  | none => exact trivial
  | some es => exact ht.branch h

theorem ne_empty_of_mem_ways (start : Widths) {t : Tree} (ht : t.Canonical)
    {e : String × Node} (he : e ∈ (ofTree start t).elements) :
    ∀ w ∈ ways e.2.entries, ∀ f ∈ w, f.1 ≠ "" := by
  have hc : Tree.Canonical (sectionOf t "elements") := canonical_sectionOf ht "elements"
  intro w hw f hf hempty
  have hword := Tree.isWord_of_mem_ways (Tree.Canonical.node hc he).entries w hw f hf
  exact hword.1 (String.toList_eq_nil_iff.mpr hempty)

end Design

end DesignSystem
