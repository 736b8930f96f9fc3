import DesignSystem.Tree
import Mathlib.Data.List.Basic

/-! What an update of a tree changes. Everything is said through the nodes that paths lead
to and through the keys of a level, so later proofs need not open the updates. -/

namespace DesignSystem

theorem eraseDups_concat {α : Type} [DecidableEq α] (xs : List α) (x : α) :
    (xs ++ [x]).eraseDups = if x ∈ xs.eraseDups then xs.eraseDups else xs.eraseDups ++ [x] := by
  rw [List.eraseDups_append]
  by_cases h : x ∈ xs <;> simp [h, List.removeAll, List.eraseDups_cons]

@[simp] theorem Node.entries_leaf (v : Value) : (Node.leaf v).entries = [] := rfl

@[simp] theorem Node.entries_branch (t : Tree) : (Node.branch t).entries = t := rfl

theorem Node.ofValue?_eq_leaf {o : Option Value} {v : Value} :
    Node.ofValue? o = .leaf v ↔ o = some v := by
  cases o <;> simp [Node.ofValue?]

theorem Node.isBranch_ofValue? (o : Option Value) : (Node.ofValue? o).isBranch = !o.isSome := by
  cases o <;> rfl

theorem Node.entries_ofValue? (o : Option Value) : (Node.ofValue? o).entries = [] := by
  cases o <;> rfl

namespace Tree

@[simp] theorem get?_nil (key : String) : get? [] key = none := rfl

theorem get?_cons (key k : String) (n : Node) (t : Tree) :
    get? ((k, n) :: t) key = if key = k then some n else get? t key := by
  by_cases h : key = k
  · simp [get?, h]
  · simp [get?, List.lookup_cons, beq_eq_false_iff_ne.mpr h, h]

theorem keys_append (s t : Tree) : keys (s ++ t) = keys s ++ keys t :=
  List.map_append

theorem get?_alter (f : Option Node → Node) (key k : String) (t : Tree) :
    get? (alter f key t) k = if k = key then some (f (get? t key)) else get? t k := by
  induction t with
  | nil => simp [alter, get?_cons]
  | cons e t ih =>
    obtain ⟨j, n⟩ := e
    by_cases hj : j = key
    · subst j
      by_cases hk : k = key <;> simp [alter, get?_cons, hk]
    · have hj' : key ≠ j := fun h => hj h.symm
      rw [alter, if_neg hj, get?_cons, ih, get?_cons, get?_cons, if_neg hj']
      by_cases hk : k = key
      · subst k
        simp [hj']
      · simp [hk]

theorem keys_alter (f : Option Node → Node) (key : String) (t : Tree) :
    keys (alter f key t) = if key ∈ keys t then keys t else keys t ++ [key] := by
  induction t with
  | nil => simp [alter, keys]
  | cons e t ih =>
    obtain ⟨j, n⟩ := e
    by_cases hj : j = key
    · simp [alter, keys, hj]
    · have hj' : key ≠ j := fun h => hj h.symm
      have hh : keys (alter f key ((j, n) :: t)) = j :: keys (alter f key t) := by
        simp [alter, keys, hj]
      rw [hh, ih]
      by_cases hm : key ∈ keys t
      · simp only [keys] at hm
        simp [keys, hm]
      · simp only [keys] at hm
        simp [keys, hm, hj']

theorem alter_of_not_mem (f : Option Node → Node) {key : String} {t : Tree}
    (h : key ∉ keys t) : alter f key t = t ++ [(key, f none)] := by
  induction t with
  | nil => rfl
  | cons e t ih =>
    obtain ⟨j, n⟩ := e
    simp only [keys, List.map_cons, List.mem_cons, not_or] at h
    have hj : j ≠ key := fun he => h.1 he.symm
    simp [alter, hj, ih h.2]

theorem alter_append_self (f : Option Node → Node) {key : String} {t : Tree} (n : Node)
    (h : key ∉ keys t) : alter f key (t ++ [(key, n)]) = t ++ [(key, f (some n))] := by
  induction t with
  | nil => simp [alter]
  | cons e t ih =>
    obtain ⟨j, m⟩ := e
    simp only [keys, List.map_cons, List.mem_cons, not_or] at h
    have hj : j ≠ key := fun he => h.1 he.symm
    simp [alter, hj, ih h.2]

/-- The entries at the end of a path. A leaf and a missing node have none. -/
def entriesAt (t : Tree) (path : List String) : Tree :=
  (at? t path).elim [] Node.entries

@[simp] theorem at?_nil (t : Tree) : at? t [] = some (.branch t) := rfl

@[simp] theorem entriesAt_nil (t : Tree) : entriesAt t [] = t := rfl

theorem entriesAt_of_branch {t es : Tree} {path : List String}
    (h : at? t path = some (.branch es)) : entriesAt t path = es := by
  simp [entriesAt, h]

theorem at?_cons (t : Tree) (key : String) (path : List String) :
    at? t (key :: path) = (get? t key).bind (nodeAt? path) := rfl

theorem nodeAt?_of_ne_nil {path : List String} (h : path ≠ []) (n : Node) :
    nodeAt? path n = at? n.entries path := by
  cases path with
  | nil => exact absurd rfl h
  | cons key path => rfl

theorem at?_empty {path : List String} (h : path ≠ []) : at? [] path = none := by
  cases path with
  | nil => exact absurd rfl h
  | cons key path => simp [at?_cons]

theorem nodeAt?_append (path rest : List String) (n : Node) :
    nodeAt? (path ++ rest) n = (nodeAt? path n).bind (nodeAt? rest) := by
  induction path generalizing n with
  | nil => rfl
  | cons key path ih =>
    rw [List.cons_append, nodeAt?, nodeAt?]
    cases get? n.entries key with
    | none => rfl
    | some m => exact ih m

theorem at?_append (t : Tree) (path rest : List String) :
    at? t (path ++ rest) = (at? t path).bind (nodeAt? rest) :=
  nodeAt?_append path rest (.branch t)

theorem entriesAt_cons (t : Tree) (key : String) (path : List String) :
    entriesAt t (key :: path) = entriesAt ((get? t key).elim [] Node.entries) path := by
  cases path with
  | nil => cases h : get? t key <;> simp [entriesAt, at?_cons, nodeAt?, h]
  | cons k path =>
    simp only [entriesAt, at?_cons]
    cases get? t key with
    | none => rfl
    | some n => rfl

theorem alterAt_append (f : Tree → Tree) (path rest : List String) (t : Tree) :
    alterAt f (path ++ rest) t = alterAt (alterAt f rest) path t := by
  induction path generalizing t with
  | nil => rfl
  | cons key path ih => simp only [List.cons_append, alterAt, ih]

theorem alter_alter (f g : Option Node → Node) (key : String) (t : Tree) :
    alter f key (alter g key t) = alter (fun n => f (some (g n))) key t := by
  induction t with
  | nil => simp [alter]
  | cons e t ih =>
    obtain ⟨j, n⟩ := e
    by_cases hj : j = key <;> simp [alter, hj, ih]

theorem alterAt_alterAt (f g : Tree → Tree) (path : List String) (t : Tree) :
    alterAt f path (alterAt g path t) = alterAt (fun es => f (g es)) path t := by
  induction path generalizing t with
  | nil => rfl
  | cons key path ih => simp [alterAt, alter_alter, ih]

theorem alter_congr {f g : Option Node → Node} {key : String} {t : Tree}
    (h : f (get? t key) = g (get? t key)) : alter f key t = alter g key t := by
  induction t with
  | nil => exact congrArg (fun n => [(key, n)]) h
  | cons e t ih =>
    obtain ⟨j, m⟩ := e
    rw [get?_cons] at h
    by_cases hj : j = key
    · rw [if_pos hj.symm] at h
      rw [alter, alter, if_pos hj, if_pos hj, h]
    · rw [if_neg (Ne.symm hj)] at h
      rw [alter, alter, if_neg hj, if_neg hj, ih h]

theorem alter_of_get? {f : Option Node → Node} {key : String} {t : Tree} {n : Node}
    (h : get? t key = some n) (hf : f (some n) = n) : alter f key t = t := by
  induction t with
  | nil => cases h
  | cons e t ih =>
    obtain ⟨j, m⟩ := e
    rw [get?_cons] at h
    by_cases hj : j = key
    · rw [if_pos hj.symm] at h
      obtain rfl := Option.some.inj h
      rw [alter, if_pos hj, hf, hj]
    · rw [if_neg (Ne.symm hj)] at h
      rw [alter, if_neg hj, ih h]

theorem alterAt_of_fixed {f : Tree → Tree} {path : List String} {t es : Tree}
    (h : at? t path = some (.branch es)) (hf : f es = es) : alterAt f path t = t := by
  induction path generalizing t with
  | nil =>
    obtain rfl : t = es := by simpa using h
    exact hf
  | cons key path ih =>
    obtain ⟨n, hn, hp⟩ := Option.bind_eq_some_iff.mp h
    cases n with
    | leaf v =>
      cases path with
      | nil => cases hp
      | cons k path => cases hp
    | branch u => exact alter_of_get? hn (congrArg Node.branch (ih hp))

/-- An update depends on what it makes of the entries that are there. -/
theorem alterAt_congr {f g : Tree → Tree} {path : List String} {t : Tree}
    (h : f (entriesAt t path) = g (entriesAt t path)) : alterAt f path t = alterAt g path t := by
  induction path generalizing t with
  | nil => exact h
  | cons key path ih =>
    rw [entriesAt_cons] at h
    exact alter_congr (congrArg Node.branch (ih h))

theorem at?_alterAt_self (f : Tree → Tree) (path : List String) (t : Tree) :
    at? (alterAt f path t) path = some (.branch (f (entriesAt t path))) := by
  induction path generalizing t with
  | nil => rfl
  | cons key path ih =>
    rw [alterAt, at?_cons, get?_alter, if_pos rfl, entriesAt_cons, Option.bind_some]
    exact ih _

theorem at?_alterAt_below (f : Tree → Tree) (path rest : List String) (t : Tree) :
    at? (alterAt f path t) (path ++ rest) = at? (f (entriesAt t path)) rest := by
  rw [at?_append, at?_alterAt_self]
  rfl

/-- An update changes nothing away from its path. -/
theorem at?_alterAt_aside (f : Tree → Tree) {path q : List String} (t : Tree)
    (hq : ¬ q <+: path) (hp : ¬ path <+: q) : at? (alterAt f path t) q = at? t q := by
  induction path generalizing t q with
  | nil => exact absurd List.nil_prefix hp
  | cons key path ih =>
    cases q with
    | nil => exact absurd List.nil_prefix hq
    | cons k q =>
      rw [alterAt, at?_cons, at?_cons, get?_alter]
      by_cases hk : k = key
      · subst k
        have hq' : ¬ q <+: path := fun h => hq (by simpa using h)
        have hp' : ¬ path <+: q := fun h => hp (by simpa using h)
        have hne : q ≠ [] := fun h => hq' (by simp [h])
        have hh := ih ((get? t key).elim [] Node.entries) hq' hp'
        cases hg : get? t key with
        | none =>
          rw [hg] at hh
          simpa [nodeAt?_of_ne_nil hne, at?_empty hne] using hh
        | some n =>
          rw [hg] at hh
          simpa [nodeAt?_of_ne_nil hne] using hh
      · simp [hk]

end Tree

end DesignSystem
