import DesignSystem.Proofs.LinePath
import Mathlib.Data.List.Induction

/-! What the tree of a document holds at a path, read off the lines of the document. What
counts is the last line at or above the path and the lines after it. -/

namespace DesignSystem

open DesignSystem.Tree

/-- A line is the last one whose path leads to `q` or to a place above it, and `later` are
the lines after it. -/
structure LastAbove (ps : List Placement) (q : List String) (p : Placement)
    (later : List Placement) : Prop where
  split : ∃ before, ps = before ++ p :: later
  above : p.path <+: q
  none_later : ∀ r ∈ later, ¬ r.path <+: q

/-- Some line lies properly below `q`. -/
def PassedBy (ps : List Placement) (q : List String) : Prop :=
  ∃ r ∈ ps, q <+: r.path ∧ q ≠ r.path

/-- The name after `q` on the path of a line. -/
def childOf? (q : List String) (p : Placement) : Option String :=
  if q <+: p.path then p.path[q.length]? else none

/-- The names after `q` on the paths of lines, in the order in which they first occur. -/
def childNames (q : List String) (ps : List Placement) : List String :=
  (ps.filterMap (childOf? q)).eraseDups

theorem exists_lastAbove_or (ps : List Placement) (q : List String) :
    (∃ p later, LastAbove ps q p later) ∨ ∀ p ∈ ps, ¬ p.path <+: q := by
  induction ps with
  | nil => exact Or.inr (by simp)
  | cons p ps ih =>
    rcases ih with ⟨r, later, ⟨before, hb⟩, ha, hl⟩ | hnone
    · exact Or.inl ⟨r, later, ⟨p :: before, by simp [hb]⟩, ha, hl⟩
    · by_cases hp : p.path <+: q
      · exact Or.inl ⟨p, ps, ⟨[], rfl⟩, hp, hnone⟩
      · exact Or.inr (List.forall_mem_cons.mpr ⟨hp, hnone⟩)

theorem childOf?_of_passes {p : Placement} {q rest : List String} {key : String}
    (h : p.path = q ++ key :: rest) : childOf? q p = some key := by
  rw [childOf?, h, if_pos (List.prefix_append q _)]
  simp

theorem childOf?_of_aside {p : Placement} {q : List String} (h : ¬ q <+: p.path) :
    childOf? q p = none :=
  if_neg h

theorem passes_or_aside {p : Placement} {q : List String} (h : ¬ p.path <+: q) :
    (∃ key rest, p.path = q ++ key :: rest) ∨ ¬ q <+: p.path := by
  by_cases hq : q <+: p.path
  · obtain ⟨rest, hr⟩ := hq
    cases rest with
    | nil => exact absurd (by simp [← hr]) h
    | cons key rest => exact Or.inl ⟨key, rest, hr.symm⟩
  · exact Or.inr hq

section

variable (convert : String → Option Value)

theorem Placement.entries_node (p : Placement) : (p.node convert).entries = [] :=
  Node.entries_ofValue? _

theorem at?_put_of_above (t : Tree) {p : Placement} {q : List String} (h : p.path <+: q) :
    at? (p.put convert t) q = if q = p.path then some (p.node convert) else none := by
  obtain ⟨rest, rfl⟩ := h
  rw [Placement.put, insertAt, Placement.path, List.append_assoc, at?_alterAt_below,
    List.singleton_append, at?_cons, Tree.insert, get?_alter, if_pos rfl, Option.bind_some]
  cases rest with
  | nil => simp [nodeAt?]
  | cons key rest =>
    rw [nodeAt?_of_ne_nil (by simp), p.entries_node, at?_empty (by simp), if_neg (by simp)]

theorem put_of_passes {p : Placement} {q rest : List String} {key : String}
    (h : p.path = q ++ key :: rest) :
    ∃ f, ∀ t, p.put convert t = alterAt (alter f key) q t := by
  have hp : p.parent ++ [p.line.name] = q ++ key :: rest := h
  cases rest using List.reverseRecOn with
  | nil =>
    obtain ⟨hq, hk⟩ := List.append_inj' hp rfl
    obtain rfl := List.singleton_inj.mp hk
    exact ⟨fun _ => p.node convert, fun t => by rw [Placement.put, insertAt, hq]; rfl⟩
  | append_singleton rest name =>
    rw [← List.cons_append, ← List.append_assoc] at hp
    obtain ⟨hq, -⟩ := List.append_inj' hp rfl
    refine ⟨fun n => .branch (alterAt (Tree.insert p.line.name (p.node convert)) rest
      (n.elim [] Node.entries)), fun t => ?_⟩
    rw [Placement.put, insertAt, hq, alterAt_append]
    rfl

theorem at?_put_of_passes (t : Tree) {p : Placement} {q rest : List String} {key : String}
    (h : p.path = q ++ key :: rest) :
    ∃ es, at? (p.put convert t) q = some (.branch es) ∧
      keys es = if key ∈ keys (entriesAt t q) then keys (entriesAt t q)
        else keys (entriesAt t q) ++ [key] := by
  obtain ⟨f, hf⟩ := put_of_passes convert h
  refine ⟨alter f key (entriesAt t q), ?_, keys_alter f key _⟩
  rw [hf, at?_alterAt_self]

theorem at?_put_of_aside (t : Tree) {p : Placement} {q : List String} (h : ¬ p.path <+: q)
    (hq : ¬ q <+: p.path) : at? (p.put convert t) q = at? t q := by
  have hpar : ¬ q <+: p.parent := fun hh => hq (hh.trans (List.prefix_append _ _))
  by_cases hp : p.parent <+: q
  · obtain ⟨rest, rfl⟩ := hp
    cases rest with
    | nil => exact absurd (by simp) hpar
    | cons key rest =>
      have hk : key ≠ p.line.name := fun he => h (by simp [Placement.path, he])
      rw [Placement.put, insertAt, at?_alterAt_below, at?_cons, Tree.insert, get?_alter,
        if_neg hk, ← at?_cons, entriesAt, at?_append]
      cases at? t p.parent with
      | none => rfl
      | some n => exact (nodeAt?_of_ne_nil (by simp) n).symm
  · exact at?_alterAt_aside _ t hpar hp

theorem at?_foldl_put (q : List String) (later : List Placement) (t : Tree)
    (h : ∀ r ∈ later, ¬ r.path <+: q) :
    (PassedBy later q → ∃ es, at? (later.foldl (Placement.put convert) t) q = some (.branch es)) ∧
      (¬ PassedBy later q → at? (later.foldl (Placement.put convert) t) q = at? t q) := by
  -- From the last line back, so that a line meets the tree of all lines before it.
  induction later using List.reverseRecOn with
  | nil => exact ⟨fun ⟨r, hr, _⟩ => absurd hr (by simp), fun _ => rfl⟩
  | append_singleton later p ih =>
    have hh := ih fun r hr => h r (by simp [hr])
    have hp := h p (by simp)
    rw [List.foldl_append, List.foldl_cons, List.foldl_nil]
    rcases passes_or_aside hp with ⟨key, rest, he⟩ | hq
    · have hpass : PassedBy (later ++ [p]) q := ⟨p, by simp, by simp [he], by simp [he]⟩
      obtain ⟨es, hes, -⟩ := at?_put_of_passes convert (later.foldl (Placement.put convert) t) he
      exact ⟨fun _ => ⟨es, hes⟩, fun hn => absurd hpass hn⟩
    · have hiff : PassedBy (later ++ [p]) q ↔ PassedBy later q := by
        simp [PassedBy, or_and_right, exists_or, hq]
      rw [hiff, at?_put_of_aside convert _ hp hq]
      exact hh

theorem keys_foldl_put (q : List String) (later : List Placement) (t : Tree)
    (h : ∀ r ∈ later, ¬ r.path <+: q) (ht : entriesAt t q = []) :
    keys (entriesAt (later.foldl (Placement.put convert) t) q) = childNames q later := by
  induction later using List.reverseRecOn with
  | nil => simp [ht, keys, childNames]
  | append_singleton later p ih =>
    have hh := ih fun r hr => h r (by simp [hr])
    have hp := h p (by simp)
    rw [List.foldl_append, List.foldl_cons, List.foldl_nil, childNames, List.filterMap_append]
    rcases passes_or_aside hp with ⟨key, rest, he⟩ | hq
    · obtain ⟨es, hes, hk⟩ :=
        at?_put_of_passes convert (later.foldl (Placement.put convert) t) he
      rw [entriesAt_of_branch hes, hk, hh, List.filterMap_cons, childOf?_of_passes he]
      exact (eraseDups_concat _ key).symm
    · rw [entriesAt, at?_put_of_aside convert _ hp hq]
      simpa [childOf?_of_aside hq, childNames, entriesAt] using hh

theorem at?_of_lastAbove {source : String} {later : List Placement} {q : List String}
    {p : Placement} (h : LastAbove (placements source) q p later) :
    (PassedBy later q → ∃ es, at? (parseWith convert source) q = some (.branch es)) ∧
      (¬ PassedBy later q → at? (parseWith convert source) q =
        if q = p.path then some (p.node convert) else none) ∧
      keys (entriesAt (parseWith convert source) q) = childNames q later := by
  obtain ⟨⟨before, hb⟩, ha, hl⟩ := h
  rw [parseWith_eq_foldl, hb, List.foldl_append, List.foldl_cons]
  have hat := at?_put_of_above convert (before.foldl (Placement.put convert) []) ha
  have hempty : entriesAt (p.put convert (before.foldl (Placement.put convert) [])) q = [] := by
    rw [entriesAt, hat]
    split
    · exact p.entries_node convert
    · rfl
  have hh := at?_foldl_put convert q later
    (p.put convert (before.foldl (Placement.put convert) [])) hl
  exact ⟨hh.1, fun hn => (hh.2 hn).trans hat, keys_foldl_put convert q later _ hl hempty⟩

theorem at?_parseWith_of_none (source : String) {q : List String} (hq : q ≠ [])
    (h : ∀ p ∈ placements source, ¬ p.path <+: q) : at? (parseWith convert source) q = none := by
  have hn : ¬ PassedBy (placements source) q := by
    rintro ⟨r, hr, hpre, -⟩
    obtain ⟨s, hs, he⟩ := exists_placement_above hr hq hpre
    exact h s hs (by simp [he])
  rw [parseWith_eq_foldl, (at?_foldl_put convert q (placements source) [] h).2 hn, at?_empty hq]

end

/-- The meaning of a document. A place is in its tree iff the last line at or above it is at
it, or a later line lies below it. It holds the value of that line if the line is at it, has
a value, and no later line lies below it, and a branch in every other case. The keys of a
branch are the names that follow on the later lines, the first occurrence first. -/
theorem parseWith_meaning (convert : String → Option Value) (source : String) :
    (∀ q ≠ [],
      ((∃ n, (parseWith convert source).at? q = some n) ↔
        ∃ p later, LastAbove (placements source) q p later ∧
          (q = p.path ∨ PassedBy later q)) ∧
      ∀ p later, LastAbove (placements source) q p later →
        ∀ n, (parseWith convert source).at? q = some n →
          (∀ v, n = .leaf v ↔
            q = p.path ∧ convert p.line.value = some v ∧ ¬ PassedBy later q) ∧
          (n.isBranch ↔
            ¬ (q = p.path ∧ (convert p.line.value).isSome ∧ ¬ PassedBy later q)) ∧
          ∀ es, n = .branch es → keys es = childNames q later) ∧
    keys (parseWith convert source) = childNames [] (placements source) := by
  constructor
  · intro q hq
    refine ⟨⟨?_, ?_⟩, ?_⟩
    · rintro ⟨n, hn⟩
      rcases exists_lastAbove_or (placements source) q with ⟨p, later, h⟩ | hnone
      · refine ⟨p, later, h, ?_⟩
        by_contra hc
        have hh := (at?_of_lastAbove convert h).2.1 fun hp => hc (Or.inr hp)
        rw [hn, if_neg fun he => hc (Or.inl he)] at hh
        cases hh
      · rw [at?_parseWith_of_none convert source hq hnone] at hn
        cases hn
    · rintro ⟨p, later, h, he⟩
      have hh := at?_of_lastAbove convert h
      by_cases hp : PassedBy later q
      · exact (hh.1 hp).imp' _ fun _ => id
      · exact ⟨_, (hh.2.1 hp).trans (if_pos (he.resolve_right hp))⟩
    · intro p later h n hn
      have hh := at?_of_lastAbove convert h
      rw [hn] at hh
      have hkeys : ∀ es, n = .branch es → keys es = childNames q later := by
        rintro es rfl
        rw [← entriesAt_of_branch hn]
        exact hh.2.2
      by_cases hp : PassedBy later q
      · obtain ⟨es, he⟩ := hh.1 hp
        obtain rfl := Option.some.inj he
        exact ⟨by simp [hp], by simp [hp, Node.isBranch, Node.branch?], hkeys⟩
      · have he := hh.2.1 hp
        by_cases hq' : q = p.path
        · subst q
          rw [if_pos rfl] at he
          obtain rfl := Option.some.inj he
          refine ⟨fun v => ?_, ?_, hkeys⟩
          · simp [hp, Placement.node, Node.ofValue?_eq_leaf]
          · simp [hp, Placement.node, Node.isBranch_ofValue?]
        · rw [if_neg hq'] at he
          cases he
  · have hroot : ∀ r ∈ placements source, ¬ r.path <+: [] := fun r _ => by simp [r.path_ne_nil]
    have hh := keys_foldl_put convert [] (placements source) [] hroot rfl
    rw [parseWith_eq_foldl]
    exact hh

/-- A line below takes the value from `size`, which is a branch from then on. -/
theorem parseWith_meaning_promoted :
    LastAbove (placements "size regular\n\tlarge 50") ["size"] ⟨[], ⟨0, "size", "regular"⟩⟩
        [⟨["size"], ⟨1, "large", "50"⟩⟩] ∧
      ∃ es, (parse "size regular\n\tlarge 50").at? ["size"] = some (.branch es) ∧
        keys es = ["large"] := by
  have hs : placements "size regular\n\tlarge 50" =
      [⟨[], ⟨0, "size", "regular"⟩⟩, ⟨["size"], ⟨1, "large", "50"⟩⟩] := by rfl
  have hl : LastAbove (placements "size regular\n\tlarge 50") ["size"]
      ⟨[], ⟨0, "size", "regular"⟩⟩ [⟨["size"], ⟨1, "large", "50"⟩⟩] :=
    ⟨⟨[], hs⟩, by decide, by decide⟩
  have hp : PassedBy [⟨["size"], ⟨1, "large", "50"⟩⟩] ["size"] :=
    ⟨_, List.mem_singleton_self _, by decide, by decide⟩
  have hh := (parseWith_meaning Value.coerce? "size regular\n\tlarge 50").1 ["size"] (by simp)
  obtain ⟨n, hn⟩ := hh.1.mpr ⟨_, _, hl, Or.inr hp⟩
  have hm := hh.2 _ _ hl n hn
  cases n with
  | leaf v => exact absurd hp ((hm.1 v).mp rfl).2.2
  | branch es => exact ⟨hl, es, hn, (hm.2.2 es rfl).trans (by decide)⟩

end DesignSystem
