import DesignSystem.FileTree
import DesignSystem.Proofs.Words

/-! The parts of a path between its slashes, and the components that they stand for. A name that
is joined to a path adds one part and one component. -/

namespace DesignSystem

/-- A text that can be a name in a folder. -/
structure IsFileName (name : String) : Prop where
  ne_empty : name ≠ ""
  no_slash : '/' ∉ name.toList
  ne_here : name ≠ "."
  ne_up : name ≠ ".."

instance (name : String) : Decidable (IsFileName name) :=
  decidable_of_iff (name ≠ "" ∧ '/' ∉ name.toList ∧ name ≠ "." ∧ name ≠ "..")
    ⟨fun ⟨h, hs, hh, hu⟩ => ⟨h, hs, hh, hu⟩, fun ⟨h, hs, hh, hu⟩ => ⟨h, hs, hh, hu⟩⟩

namespace Path

def parts (p : Path) : List (List Char) :=
  p.text.toList.splitOn '/'

/-- The components that parts at the start of a path stand for. -/
def componentsOf : List (List Char) → List Component
  | [] :: rest => .root :: rest.filterMap component?
  | ['.'] :: rest => .here :: rest.filterMap component?
  | parts => parts.filterMap component?

section Parts

variable {p : Path} {name : String}

theorem parts_ne_nil (p : Path) : p.parts ≠ [] :=
  List.splitOn_ne_nil '/' p.text.toList

theorem parts_eq_empty_iff : p.parts = [[]] ↔ p.text = "" := by
  have hjoin : ['/'].intercalate p.parts = p.text.toList := List.intercalate_splitOn '/'
  constructor
  · intro h
    rw [h] at hjoin
    exact String.toList_eq_nil_iff.mp hjoin.symm
  · intro h
    rw [parts, h]
    rfl

theorem componentsOf_of_not_idle {part : List Char} (h : isIdle part = false)
    (rest : List (List Char)) :
    componentsOf (part :: rest) = (part :: rest).filterMap component? := by
  rw [componentsOf]
  · intro _ he
    cases he
    exact absurd h (by decide)
  · intro _ he
    cases he
    exact absurd h (by decide)

theorem componentsOf_append {front : List (List Char)} (h : front ≠ [])
    (back : List (List Char)) :
    componentsOf (front ++ back) = componentsOf front ++ back.filterMap component? := by
  obtain ⟨part, rest, rfl⟩ := List.exists_cons_of_ne_nil h
  by_cases hidle : isIdle part = true
  · have hpart : part = [] ∨ part = ['.'] := by simpa [isIdle] using hidle
    rcases hpart with rfl | rfl <;> simp [componentsOf]
  · rw [Bool.not_eq_true] at hidle
    rw [List.cons_append, componentsOf_of_not_idle hidle, componentsOf_of_not_idle hidle,
      ← List.cons_append, List.filterMap_append]

theorem components_eq (h : p.text ≠ "") : p.components = componentsOf p.parts := by
  have hne : p.parts ≠ [[]] := mt parts_eq_empty_iff.mp h
  rw [parts] at hne
  rw [components, split, parts]
  generalize p.text.toList.splitOn '/' = ps at hne
  match ps with
  | [] => rfl
  | [] :: [] => exact absurd rfl hne
  | [] :: part :: rest => rfl
  | part@(c :: cs) :: rest =>
    by_cases hidle : isIdle (c :: cs) = true
    · obtain ⟨rfl, rfl⟩ : c = '.' ∧ cs = [] := by simpa [isIdle] using hidle
      rfl
    · rw [Bool.not_eq_true] at hidle
      rw [componentsOf_of_not_idle hidle]
      split
      · rename_i heq
        cases heq
      · rename_i heq
        cases heq
        cases hidle
      · rfl

theorem component?_ne_root (part : List Char) : component? part ≠ some .root := by
  rw [component?]
  split
  · nofun
  · split <;> nofun

theorem isAbsolute_iff : p.isAbsolute = true ↔ p.components.head? = some .root := by
  rw [isAbsolute, components]
  cases hstart : p.split.1 with
  | some c => simp
  | none =>
    have hne : (p.split.2.filterMap component?).head? ≠ some .root := by
      intro h
      obtain ⟨part, -, hc⟩ := List.mem_filterMap.mp (List.mem_of_head? h)
      exact component?_ne_root part hc
    simpa using hne

end Parts

section Joining

variable {name : String}

theorem not_idle_of_isFileName (h : IsFileName name) : isIdle name.toList = false := by
  have hhere : name.toList ≠ ['.'] := fun he => h.ne_here (String.toList_inj.mp he)
  simp [isIdle, h.ne_empty, hhere]

theorem component?_of_isFileName (h : IsFileName name) :
    component? name.toList = some (.name name) := by
  have hup : name.toList ≠ ['.', '.'] := fun he => h.ne_up (String.toList_inj.mp he)
  rw [component?, not_idle_of_isFileName h, if_neg Bool.false_ne_true, if_neg hup,
    String.ofList_toList]

theorem componentsOf_of_isFileName (h : IsFileName name) :
    componentsOf [name.toList] = [.name name] := by
  rw [componentsOf_of_not_idle (not_idle_of_isFileName h), List.filterMap_cons,
    component?_of_isFileName h]
  rfl

theorem parts_of_isFileName (h : IsFileName name) : parts ⟨name⟩ = [name.toList] :=
  List.splitOn_eq_singleton h.no_slash

theorem isAbsolute_of_isFileName (h : IsFileName name) : isAbsolute ⟨name⟩ = false := by
  rw [← Bool.not_eq_true, isAbsolute_iff, components_eq h.ne_empty, parts_of_isFileName h,
    componentsOf_of_isFileName h]
  nofun

/-- What stands between a folder and a path that is joined to it. -/
def gap (p : Path) : String :=
  if p.text.isEmpty || p.text.toList.getLast? == some '/' then "" else "/"

theorem join_relative (p : Path) {q : Path} (hq : q.isAbsolute = false) :
    p.join q = ⟨p.text ++ p.gap ++ q.text⟩ := by
  rw [join, hq, if_neg Bool.false_ne_true, gap]
  split <;> simp

theorem text_join_relative_ne_empty {p q : Path} (hp : p.text ≠ "") (hq : q.isAbsolute = false) :
    (p.join q).text ≠ "" := by
  simp [join_relative p hq, hp]

/-- A path that is not absolute is joined with all its parts. The parts before them are those of the
first path, without the empty one after a last slash. -/
theorem exists_parts_join_relative (p : Path) {q : Path} (hq : q.isAbsolute = false) :
    ∃ front, (p.join q).parts = front ++ q.parts ∧
      (p.text ≠ "" ∧ p.parts = front ∨ p.parts = front ++ [[]]) := by
  rw [join, hq, if_neg Bool.false_ne_true]
  by_cases hempty : p.text = ""
  · refine ⟨[], ?_, Or.inr ?_⟩
    · simp [hempty, parts]
    · exact parts_eq_empty_iff.mpr hempty
  by_cases hslash : p.text.toList.getLast? = some '/'
  · obtain ⟨before, hbefore⟩ := List.getLast?_eq_some_iff.mp hslash
    refine ⟨before.splitOn '/', ?_, Or.inr ?_⟩
    · simp [parts, hbefore, List.splitOn_append_cons_self]
    · rw [parts, hbefore, List.splitOn_append_cons_self, List.splitOn_nil]
  · refine ⟨p.parts, ?_, Or.inl ⟨hempty, rfl⟩⟩
    simp [parts, hempty, hslash, List.splitOn_append_cons_self]

/-- A joined name is the last part. -/
theorem exists_parts_join (p : Path) (h : IsFileName name) :
    ∃ front, (p.join ⟨name⟩).parts = front ++ [name.toList] ∧
      (p.text ≠ "" ∧ p.parts = front ∨ p.parts = front ++ [[]]) := by
  rw [← parts_of_isFileName h]
  exact exists_parts_join_relative p (isAbsolute_of_isFileName h)

theorem text_join_ne_empty (p : Path) (h : IsFileName name) : (p.join ⟨name⟩).text ≠ "" := by
  obtain ⟨front, hparts, -⟩ := exists_parts_join p h
  intro he
  rw [← parts_eq_empty_iff, hparts] at he
  have hlast := congrArg List.getLast? he
  simp [h.ne_empty] at hlast

theorem components_join_relative {p q : Path} (hp : p.text ≠ "") (hq : q.isAbsolute = false) :
    (p.join q).components = p.components ++ q.parts.filterMap component? := by
  obtain ⟨front, hparts, hfront⟩ := exists_parts_join_relative p hq
  have hnil : front ≠ [] := by
    rintro rfl
    rcases hfront with ⟨-, hempty⟩ | hempty
    · exact p.parts_ne_nil hempty
    · exact hp (parts_eq_empty_iff.mp hempty)
  have hcomponents : p.components = componentsOf front := by
    rcases hfront with ⟨-, rfl⟩ | hempty
    · exact components_eq hp
    · rw [components_eq hp, hempty, componentsOf_append hnil]
      simp [component?, isIdle]
  rw [components_eq (text_join_relative_ne_empty hp hq), hparts, componentsOf_append hnil,
    hcomponents]

theorem components_join (p : Path) (h : IsFileName name) :
    (p.join ⟨name⟩).components = p.components ++ [.name name] := by
  by_cases hp : p.text = ""
  · obtain rfl : p = ⟨""⟩ := congrArg Path.mk hp
    obtain ⟨front, hparts, hfront⟩ := exists_parts_join ⟨""⟩ h
    obtain rfl : front = [] := by
      rcases hfront with ⟨hne, -⟩ | hempty
      · exact absurd rfl hne
      · simpa [parts_eq_empty_iff.mpr] using hempty
    rw [components_eq (text_join_ne_empty ⟨""⟩ h), hparts]
    exact componentsOf_of_isFileName h
  · rw [components_join_relative hp (isAbsolute_of_isFileName h), parts_of_isFileName h,
      List.filterMap_cons, component?_of_isFileName h]
    rfl

end Joining

/-- The path that names lead to from a path on. -/
def below (p : Path) (place : Place) : Path :=
  place.foldl (fun p name => p.join ⟨name⟩) p

theorem components_below {place : Place} (h : ∀ name ∈ place, IsFileName name) (p : Path) :
    (p.below place).components = p.components ++ place.map .name := by
  induction place generalizing p with
  | nil => simp [below]
  | cons name place ih =>
    have hname := components_join p (h name (by simp))
    rw [below, List.foldl_cons, ← below, ih (fun n hn => h n (by simp [hn])), hname]
    simp

end Path

end DesignSystem
