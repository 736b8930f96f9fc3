import DesignSystem.Proofs.TreeUpdate
import Mathlib.Data.List.Nodup

/-! A tree is a map in order of insertion, and its updates are local. However a tree is built,
no level of it has a key twice. An update reaches the nodes on its path alone, keeps the order of
the keys that are there, and puts a new key last on its level. -/

namespace DesignSystem

/-- Nodes that updates build, starting from values and from empty branches. -/
inductive Node.Built : Node → Prop
  | leaf (v : Value) : Node.Built (.leaf v)
  | empty : Node.Built (.branch [])
  | insert {t : Tree} {n : Node} (key : String) : Node.Built (.branch t) → Node.Built n →
    Node.Built (.branch (Tree.insert key n t))
  | replace {t u : Tree} {n : Node} {key : String} : Node.Built (.branch t) → Node.Built n →
    Tree.replace? key n t = some u → Node.Built (.branch u)
  | openPath {t : Tree} (path : List String) : Node.Built (.branch t) →
    Node.Built (.branch (Tree.openPath path t))
  | insertAt {t : Tree} {n : Node} (path : List String) (key : String) :
    Node.Built (.branch t) → Node.Built n → Node.Built (.branch (Tree.insertAt path key n t))
  | ofList {entries : List (String × Node)} : (∀ e ∈ entries, Node.Built e.2) →
    Node.Built (.branch (Tree.ofList entries))

/-- No level below the node has a key twice. -/
def Node.Distinct (n : Node) : Prop :=
  ∀ path es, Tree.nodeAt? path n = some (.branch es) → (Tree.keys es).Nodup

namespace Tree

def Distinct (t : Tree) : Prop :=
  Node.Distinct (.branch t)

section Distinctness

variable {t : Tree} {n : Node}

theorem distinct_leaf (v : Value) : Node.Distinct (.leaf v) := by
  intro path es h
  cases path with
  | nil => cases h
  | cons key path => cases h

theorem distinct_nil : Distinct [] := by
  intro path es h
  cases path with
  | nil =>
    obtain rfl := Node.branch.inj (Option.some.inj h)
    exact List.nodup_nil
  | cons key path => cases h

theorem distinct_entries (h : n.Distinct) : Distinct n.entries := by
  cases n with
  | leaf v => exact distinct_nil
  | branch es => exact h

theorem Distinct.entriesAt (h : Distinct t) (path : List String) :
    Distinct (entriesAt t path) := by
  rw [Tree.entriesAt]
  cases hn : at? t path with
  | none => exact distinct_nil
  | some n =>
    refine distinct_entries fun rest es he => h (path ++ rest) es ?_
    rw [nodeAt?_append]
    exact Option.bind_eq_some_iff.mpr ⟨n, hn, he⟩

theorem nodup_keys_alter {f : Option Node → Node} {key : String} (h : (keys t).Nodup) :
    (keys (alter f key t)).Nodup := by
  rw [keys_alter]
  by_cases hk : key ∈ keys t
  · rwa [if_pos hk]
  · rw [if_neg hk]
    simpa using h.concat hk

theorem Distinct.insert (h : Distinct t) (hn : n.Distinct) (key : String) :
    Distinct (insert key n t) := by
  intro path es he
  cases path with
  | nil =>
    obtain rfl := Node.branch.inj (Option.some.inj he)
    exact nodup_keys_alter (h [] t rfl)
  | cons k path =>
    rw [nodeAt?, Node.entries_branch, Tree.insert, get?_alter] at he
    by_cases hk : k = key
    · rw [if_pos hk] at he
      exact hn path es he
    · rw [if_neg hk] at he
      exact h (k :: path) es he

/-- Above the end of its path an update changes no level but by the next key of the path. -/
theorem Distinct.alterAt {f : Tree → Tree} (h : Distinct t)
    (hf : ∀ es, Distinct es → Distinct (f es)) (path : List String) :
    Distinct (alterAt f path t) := by
  intro q es he
  change at? (Tree.alterAt f path t) q = some (.branch es) at he
  by_cases hbelow : path <+: q
  · obtain ⟨rest, rfl⟩ := hbelow
    rw [at?_alterAt_below] at he
    exact hf _ (h.entriesAt path) rest es he
  by_cases habove : q <+: path
  · obtain ⟨rest, rfl⟩ := habove
    rw [alterAt_append, at?_alterAt_self] at he
    obtain rfl := Node.branch.inj (Option.some.inj he)
    cases rest with
    | nil => exact absurd (List.prefix_append q []) (by simp at hbelow)
    | cons key rest => exact nodup_keys_alter (h.entriesAt q [] _ rfl)
  · rw [at?_alterAt_aside f t habove hbelow] at he
    exact h q es he

theorem distinct_of_built (h : n.Built) : n.Distinct := by
  induction h with
  | leaf v => exact distinct_leaf v
  | empty => exact distinct_nil
  | insert key _ _ ht hn => exact Distinct.insert ht hn key
  | @replace t u n key _ _ hu ht hn =>
    rw [replace?] at hu
    split at hu
    · obtain rfl := Option.some.inj hu
      exact Distinct.insert ht hn key
    · cases hu
  | openPath path _ ht => exact Distinct.alterAt ht (fun _ hes => hes) path
  | insertAt path key _ _ ht hn =>
    exact Distinct.alterAt ht (fun _ hes => Distinct.insert hes hn key) path
  | @ofList entries _ hn =>
    refine List.foldlRecOn (motive := Distinct) entries _ distinct_nil ?_
    intro t ht e he
    exact Distinct.insert ht (hn e he) e.1

end Distinctness

section Opening

variable {t : Tree} {path q rest : List String}

/-- What opening a path makes of the entries of a node on it, where `rest` leads on from there:
the next key comes last if it is new, and all else is kept in its order. -/
structure Opened (rest : List String) (old es : Tree) : Prop where
  keys_eq : keys es = keys old ++ (rest.take 1).filter (· ∉ keys old)
  kept : ∀ key, rest.head? ≠ some key → get? es key = get? old key

theorem at?_entriesAt (t : Tree) (path : List String) (h : rest ≠ []) :
    at? (entriesAt t path) rest = at? t (path ++ rest) := by
  rw [at?_append, entriesAt]
  cases at? t path with
  | none => exact at?_empty h
  | some n => exact (nodeAt?_of_ne_nil h n).symm

theorem at?_openPath_of_not_prefix (t : Tree) (h : ¬ q <+: path) :
    at? (openPath path t) q = at? t q := by
  by_cases hbelow : path <+: q
  · obtain ⟨rest, rfl⟩ := hbelow
    have hrest : rest ≠ [] := by
      rintro rfl
      exact h (by simp)
    rw [openPath, at?_alterAt_below, id, at?_entriesAt t path hrest]
  · exact at?_alterAt_aside id t h hbelow

theorem at?_openPath_of_prefix (t : Tree) (q rest : List String) :
    at? (openPath (q ++ rest) t) q = some (.branch (openPath rest (entriesAt t q))) := by
  rw [openPath, alterAt_append, at?_alterAt_self]
  rfl

theorem Opened.keys_of_nil {es : Tree} (h : Opened rest [] es) : keys es = rest.take 1 := by
  rw [h.keys_eq]
  simp [keys]

theorem opened_openPath (rest : List String) (old : Tree) :
    Opened rest old (openPath rest old) := by
  cases rest with
  | nil => exact ⟨by simp [openPath, alterAt], fun _ _ => rfl⟩
  | cons key rest =>
    refine ⟨?_, fun k hk => ?_⟩
    · rw [openPath, alterAt, keys_alter]
      by_cases hm : key ∈ keys old <;> simp [hm]
    · rw [openPath, alterAt, get?_alter, if_neg]
      rintro rfl
      exact hk rfl

end Opening

/-- Built trees have no key twice on any level. Inserting changes the node of its key alone and
no position, and a new key comes last. Opening a path changes no node off the path; each node on
it becomes a branch that keeps the entries it had, so exactly the leaves among them lose
something, with the next key of the path added last if it was missing. -/
theorem updates_are_local :
    (∀ n, Node.Built n → n.Distinct) ∧
    (∀ (t : Tree) (key : String) (n : Node), get? (insert key n t) key = some n ∧
      (∀ k, k ≠ key → get? (insert key n t) k = get? t k) ∧
      keys (insert key n t) = if key ∈ keys t then keys t else keys t ++ [key]) ∧
    ∀ (t : Tree) (path : List String),
      (∀ q, ¬ q <+: path → at? (openPath path t) q = at? t q) ∧
      ∀ q rest, path = q ++ rest → ∃ es, at? (openPath path t) q = some (.branch es) ∧
        (∀ v, at? t q = some (.leaf v) → keys es = rest.take 1) ∧
        (∀ old, at? t q = some (.branch old) → Opened rest old es) ∧
        (at? t q = none → keys es = rest.take 1) := by
  refine ⟨fun n hn => distinct_of_built hn, fun t key n => ⟨?_, fun k hk => ?_, ?_⟩,
    fun t path => ⟨fun q hq => at?_openPath_of_not_prefix t hq, ?_⟩⟩
  · rw [Tree.insert, get?_alter, if_pos rfl]
  · rw [Tree.insert, get?_alter, if_neg hk]
  · exact keys_alter _ key t
  · rintro q rest rfl
    have hopened := opened_openPath rest (entriesAt t q)
    refine ⟨_, at?_openPath_of_prefix t q rest, fun v hv => ?_, fun old hold => ?_, fun hnone => ?_⟩
    · have hnil : entriesAt t q = [] := by simp [entriesAt, hv]
      exact Opened.keys_of_nil (hnil ▸ hopened)
    · rwa [entriesAt_of_branch hold] at hopened ⊢
    · have hnil : entriesAt t q = [] := by simp [entriesAt, hnone]
      exact Opened.keys_of_nil (hnil ▸ hopened)

/-- The value of `size` goes when a path leads through it, and `gap` stays as it is. -/
theorem updates_are_local_promoted :
    let t : Tree := ofList [("size", .leaf (.bool true)), ("gap", .leaf (.bool false))]
    let u := openPath ["size", "large"] t
    Node.Distinct (.branch (insertAt ["size", "large"] "height" (.leaf (.bool true)) t)) ∧
      (∃ es, at? u ["size"] = some (.branch es) ∧ keys es = ["large"]) ∧
      at? u ["gap"] = at? t ["gap"] := by
  intro t u
  obtain ⟨hdistinct, -, hopen⟩ := updates_are_local
  obtain ⟨haside, halong⟩ := hopen t ["size", "large"]
  have ht : Node.Built (.branch t) := by
    refine .ofList fun e he => ?_
    simp only [List.mem_cons, List.not_mem_nil, or_false] at he
    rcases he with rfl | rfl <;> exact .leaf _
  obtain ⟨es, hes, hleaf, -⟩ := halong ["size"] ["large"] rfl
  exact ⟨hdistinct _ (.insertAt _ _ ht (.leaf _)), ⟨es, hes, hleaf _ rfl⟩,
    haside ["gap"] (by decide)⟩

end Tree

end DesignSystem
