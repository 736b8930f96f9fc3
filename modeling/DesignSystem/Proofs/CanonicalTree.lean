import DesignSystem.Proofs.Coercion
import DesignSystem.Proofs.LinePath
import DesignSystem.Proofs.TidyText

/-! Canonical trees: those whose names and values survive being written out. Placing tidy
lines keeps a tree canonical, so the tree of every document is. -/

namespace DesignSystem

/-- The text of a value is there, is made of words with single spaces between them, and reads
back as the value. -/
structure Value.Canonical (v : Value) : Prop where
  shown : v.plain ≠ []
  spaced : IsSpaced v.plain
  readsBack : Value.coerce? v.display = some v

mutual

def Node.Canonical : Node → Prop
  | .leaf v => v.Canonical
  | .branch t => Tree.Canonical t

/-- At every level the keys are words and no two are equal, and all values are canonical. -/
def Tree.Canonical : Tree → Prop
  | [] => True
  | (key, n) :: rest =>
    IsWord key.toList ∧ key ∉ Tree.keys rest ∧ n.Canonical ∧ Tree.Canonical rest

end

theorem Value.canonical_of_coerce? {raw : String} {v : Value} (h : Value.coerce? raw = some v)
    (hs : IsSpaced raw.toList) : v.Canonical := by
  have hd := Value.coerce?_display h
  refine ⟨?_, Value.isSpaced_plain h hs, hd⟩
  simpa [Value.display] using (Value.coerce?_eq_some.mp hd).1

theorem Node.canonical_ofValue? {raw : String} (hs : IsSpaced raw.toList) :
    (Node.ofValue? (Value.coerce? raw)).Canonical := by
  cases h : Value.coerce? raw with
  | some v => exact Value.canonical_of_coerce? h hs
  | none => exact trivial

namespace Tree

theorem Canonical.alter {f : Option Node → Node} {key : String} {t : Tree} (ht : t.Canonical)
    (hk : IsWord key.toList)
    (hf : ∀ o : Option Node, (∀ n ∈ o, n.Canonical) → (f o).Canonical) :
    (alter f key t).Canonical := by
  induction t with
  | nil => exact ⟨hk, by simp [keys], hf none (by simp), trivial⟩
  | cons e t ih =>
    obtain ⟨j, n⟩ := e
    obtain ⟨hj, hm, hn, ht⟩ := ht
    by_cases he : j = key
    · rw [Tree.alter, if_pos he]
      exact ⟨hj, hm, hf (some n) (by simpa using hn), ht⟩
    · rw [Tree.alter, if_neg he]
      refine ⟨hj, ?_, hn, ih ht⟩
      rw [keys_alter]
      split
      · exact hm
      · simp [hm, he]

theorem Canonical.alterAt {f : Tree → Tree} {path : List String} {t : Tree} (ht : t.Canonical)
    (hp : ∀ key ∈ path, IsWord key.toList) (hf : ∀ es : Tree, es.Canonical → (f es).Canonical) :
    (alterAt f path t).Canonical := by
  induction path generalizing t with
  | nil => exact hf t ht
  | cons key path ih =>
    refine ht.alter (hp key (by simp)) fun o ho => ih ?_ fun k hk => hp k (by simp [hk])
    cases o with
    | none => exact trivial
    | some n =>
      have hn := ho n rfl
      cases n with
      | leaf v => exact trivial
      | branch es => exact hn

end Tree

theorem Placement.canonical_put {p : Placement} {t : Tree} (ht : t.Canonical)
    (hp : ∀ key ∈ p.parent, IsWord key.toList) (hl : p.line.Tidy) :
    (p.put Value.coerce? t).Canonical :=
  ht.alterAt hp fun _ hes => hes.alter hl.name fun _ _ => Node.canonical_ofValue? hl.value

theorem isWord_of_mem_parent {source : String} {p : Placement} (hp : p ∈ placements source)
    {key : String} (hk : key ∈ p.parent) : IsWord key.toList := by
  obtain ⟨before, after, hl, hpar⟩ := mem_placementsAfter.mp hp
  rw [hpar] at hk
  obtain ⟨l, hm, rfl⟩ := exists_line_of_mem_parentAfter hk
  have hmem : l ∈ documentLines source := by
    rw [hl]
    exact List.mem_append_left _ (by simpa using hm)
  exact (tidy_documentLines hmem).name

theorem tidy_of_mem_placements {source : String} {p : Placement} (hp : p ∈ placements source) :
    p.line.Tidy := by
  obtain ⟨before, after, hl, -⟩ := mem_placementsAfter.mp hp
  have hmem : p.line ∈ documentLines source := by
    rw [hl]
    exact List.mem_append_right _ List.mem_cons_self
  exact tidy_documentLines hmem

theorem canonical_parse (source : String) : (parse source).Canonical := by
  rw [parse, parseWith_eq_foldl]
  refine List.foldlRecOn (motive := Tree.Canonical) (placements source) _ trivial ?_
  intro t ht p hp
  exact p.canonical_put ht (fun _ => isWord_of_mem_parent hp) (tidy_of_mem_placements hp)

end DesignSystem
