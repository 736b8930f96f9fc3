import DesignSystem.Proofs.PathWalk
import Mathlib.Data.List.TakeWhile

/-! The path around a path. It is walked first, and what the path adds to it is one part, with dots
around it. -/

namespace DesignSystem

namespace Path

/-- Those of some parts that count on the way along a path. -/
def stepsOf (parts : List (List Char)) : List String :=
  (parts.filter (!·.isEmpty)).map String.ofList

theorem steps_eq (p : Path) : p.steps = stepsOf (p.text.toList.splitOn '/') := rfl

theorem stepsOf_append (front back : List (List Char)) :
    stepsOf (front ++ back) = stepsOf front ++ stepsOf back := by
  simp [stepsOf]

theorem eq_dot_of_mem_stepsOf {parts : List (List Char)}
    (h : ∀ part ∈ parts, isIdle part = true) : ∀ s ∈ stepsOf parts, s = "." := by
  intro s hs
  obtain ⟨part, hpart, rfl⟩ := List.mem_map.mp hs
  obtain ⟨hmem, hne⟩ := List.mem_filter.mp hpart
  have hidle : part = [] ∨ part = ['.'] := by simpa [isIdle] using h part hmem
  rcases hidle with rfl | rfl
  · cases hne
  · rfl

theorem stepsOf_splitOn_intercalate {parts : List (List Char)}
    (h : ∀ part ∈ parts, '/' ∉ part) :
    stepsOf ((['/'].intercalate parts).splitOn '/') = stepsOf parts := by
  by_cases hne : parts = []
  · rw [hne]
    rfl
  · rw [List.splitOn_intercalate '/' h hne]

/-- What a path starts with, as parts. -/
def startParts : Option Component → List (List Char)
  | some .root => [[]]
  | some .here => [['.']]
  | _ => []

section Splitting

variable {p : Path}

theorem parts_eq_split (p : Path) : p.parts = startParts p.split.1 ++ p.split.2 := by
  rw [split, parts]
  split
  · rename_i heq
    exact heq
  · rename_i heq
    exact heq
  · rfl

theorem isAbsolute_iff_head? : p.isAbsolute = true ↔ p.text.toList.head? = some '/' := by
  rw [isAbsolute, split, beq_iff_eq]
  cases p.text.toList with
  | nil => simp
  | cons c cs =>
    obtain ⟨first, rest, hcs⟩ := List.exists_cons_of_ne_nil (List.splitOn_ne_nil '/' cs)
    rw [List.splitOn_cons_eq_if_modifyHead, hcs, List.head?_cons, Option.some.injEq]
    by_cases hc : c = '/'
    · simp [hc]
    · rw [if_neg (by simpa using hc), List.modifyHead_cons]
      split
      · rename_i heq
        cases heq
      · simp [hc]
      · simp [hc]

theorem start_cases (p : Path) :
    p.split.1 = none ∨ p.split.1 = some .root ∨ p.split.1 = some .here := by
  rw [split]
  split <;> simp

theorem isAbsolute_of_start (h : p.split.1 ≠ some .root) : p.isAbsolute = false :=
  beq_eq_false_iff_ne.mpr h

theorem exists_trimEnd (parts : List (List Char)) :
    ∃ idle, parts = trimEnd parts ++ idle ∧ ∀ part ∈ idle, isIdle part = true := by
  refine ⟨(parts.reverse.takeWhile isIdle).reverse, ?_, fun part hp => ?_⟩
  · rw [trimEnd, ← List.reverse_append, List.takeWhile_append_dropWhile, List.reverse_reverse]
  · exact List.mem_takeWhile_imp (List.mem_reverse.mp hp)

theorem not_idle_of_trimEnd {parts init : List (List Char)} {last : List Char}
    (h : trimEnd parts = init ++ [last]) : isIdle last = false := by
  have hdrop : parts.reverse.dropWhile isIdle = last :: init.reverse := by
    rw [← List.reverse_reverse (List.dropWhile _ _), ← trimEnd, h]
    simp
  have hhead := List.head?_dropWhile_not isIdle parts.reverse
  rw [hdrop] at hhead
  simpa using hhead

theorem steps_unsplit {start : Option Component} {parts : List (List Char)}
    (hs : start = none ∨ start = some .root ∨ start = some .here)
    (h : ∀ part ∈ parts, '/' ∉ part) :
    (unsplit start parts).steps = stepsOf (startParts start ++ parts) := by
  have hbody := stepsOf_splitOn_intercalate h
  have hstart : ∀ front : List Char,
      stepsOf ((front ++ '/' :: ['/'].intercalate parts).splitOn '/') =
        stepsOf (front.splitOn '/' ++ parts) := by
    intro front
    rw [List.splitOn_append_cons_self, stepsOf_append, stepsOf_append, hbody]
  rw [steps_eq]
  rcases hs with rfl | rfl | rfl
  · simpa [unsplit, startParts] using hbody
  · simpa [unsplit, startParts] using hstart []
  · by_cases hne : parts = []
    · rw [hne]
      rfl
    · have hdot : ['.'].splitOn '/' = [['.']] := rfl
      simpa [unsplit, startParts, hne, hdot] using hstart ['.']

theorem isAbsolute_unsplit {init more : List (List Char)} (hmore : more ≠ [])
    (h : p.split.2 = init ++ more) : (unsplit p.split.1 init).isAbsolute = p.isAbsolute := by
  rcases p.start_cases with hs | hs | hs
  · have hp : p.isAbsolute = false := isAbsolute_of_start (by simp [hs])
    have htext : ['/'].intercalate p.parts = p.text.toList := List.intercalate_splitOn '/'
    rw [parts_eq_split, hs, h] at htext
    simp only [startParts, List.nil_append] at htext
    rw [hp, ← Bool.not_eq_true]
    intro habsolute
    have hhead : (['/'].intercalate init).head? = some '/' := by
      simpa [hs, unsplit] using isAbsolute_iff_head?.mp habsolute
    have hinit : init ≠ [] := by
      rintro rfl
      cases hhead
    rw [← Bool.not_eq_true, isAbsolute_iff_head?, ← htext, intercalate_append '/' hinit hmore] at hp
    exact hp (by simp [hhead])
  · have hp : p.isAbsolute = true := beq_iff_eq.mpr hs
    rw [hp, isAbsolute_iff_head?, hs]
    simp [unsplit]
  · have hp : p.isAbsolute = false := isAbsolute_of_start (by simp [hs])
    rw [hp, ← Bool.not_eq_true, isAbsolute_iff_head?, hs, unsplit]
    by_cases hinit : init = [] <;> simp [hinit]

theorem parent?_of_trimEnd {init : List (List Char)} {last : List Char}
    (h : trimEnd p.split.2 = init ++ [last]) :
    p.parent? = some (unsplit p.split.1 (trimEnd init)) := by
  have hdrop : (init ++ [last]).dropLast = init := List.dropLast_concat
  rw [parent?]
  dsimp only
  rw [h]
  cases init with
  | nil => rfl
  | cons part init =>
    rw [List.cons_append] at hdrop ⊢
    exact congrArg (fun parts => some (unsplit p.split.1 (trimEnd parts))) hdrop

/-- The path around a path of parts lies before the last of them. Around a dot it is empty. -/
theorem parent?_cases {q : Path} (h : p.parent? = some q) :
    (p.split.1 = some .here ∧ trimEnd p.split.2 = [] ∧ q = ⟨""⟩) ∨
      ∃ init last, trimEnd p.split.2 = init ++ [last] ∧ q = unsplit p.split.1 (trimEnd init) := by
  rcases List.eq_nil_or_concat' (trimEnd p.split.2) with hnil | ⟨init, last, hlast⟩
  · rw [parent?] at h
    dsimp only at h
    rw [hnil] at h
    obtain ⟨hs, hq⟩ : p.split.1 = some .here ∧ (⟨""⟩ : Path) = q := by
      simpa [ite_eq_iff] using h
    exact Or.inl ⟨hs, hnil, hq.symm⟩
  · have hq := (parent?_of_trimEnd hlast).symm.trans h
    exact Or.inr ⟨init, last, hlast, (Option.some.inj hq).symm⟩

/-- The parts of the path before the last one are those of the path around it, and idle ones. -/
theorem exists_split_of_trimEnd {init : List (List Char)} {last : List Char}
    (h : trimEnd p.split.2 = init ++ [last]) : ∃ more idle,
      p.split.2 = trimEnd init ++ (more ++ last :: idle) ∧ (∀ part ∈ more, isIdle part = true) ∧
        (∀ part ∈ idle, isIdle part = true) ∧ ∀ part ∈ trimEnd init, '/' ∉ part := by
  obtain ⟨idle, hparts, hidle⟩ := exists_trimEnd p.split.2
  obtain ⟨more, hinit, hmore⟩ := exists_trimEnd init
  have hwhole : p.split.2 = trimEnd init ++ (more ++ last :: idle) := by
    rw [hparts, h, List.append_assoc, List.singleton_append, ← List.append_assoc, ← hinit]
  refine ⟨more, idle, hwhole, hmore, hidle, fun part hpart => ?_⟩
  have hmem : part ∈ p.parts := by
    rw [parts_eq_split, hwhole]
    simp [hpart]
  exact not_mem_of_mem_splitOn hmem

/-- A path has one part more than the path around it, and dots on both sides of that part. -/
theorem exists_steps_of_parent? {q : Path} (h : p.parent? = some q) :
    q.isAbsolute = p.isAbsolute ∧ ∃ dots part back, p.steps = q.steps ++ dots ++ part :: back ∧
      (∀ s ∈ dots, s = ".") ∧ ∀ s ∈ back, s = "." := by
  have hsteps : p.steps = stepsOf (startParts p.split.1 ++ p.split.2) :=
    congrArg stepsOf p.parts_eq_split
  rcases parent?_cases h with ⟨hs, hnil, rfl⟩ | ⟨init, last, hlast, rfl⟩
  · obtain ⟨idle, hparts, hidle⟩ := exists_trimEnd p.split.2
    rw [hnil] at hparts
    have habsolute : p.isAbsolute = false := isAbsolute_of_start (by simp [hs])
    refine ⟨habsolute.symm, [], ".", stepsOf idle, ?_, by simp, eq_dot_of_mem_stepsOf hidle⟩
    rw [hsteps, hs, hparts]
    rfl
  · obtain ⟨more, idle, hwhole, hmore, hidle, hslash⟩ := exists_split_of_trimEnd hlast
    have hpart : stepsOf (last :: idle) = String.ofList last :: stepsOf idle := by
      have hne := not_idle_of_trimEnd hlast
      simp only [isIdle, Bool.or_eq_false_iff] at hne
      simp [stepsOf, hne.1]
    refine ⟨isAbsolute_unsplit (by simp) hwhole, stepsOf more, String.ofList last, stepsOf idle, ?_,
      eq_dot_of_mem_stepsOf hmore, eq_dot_of_mem_stepsOf hidle⟩
    rw [steps_unsplit p.start_cases hslash, hsteps, hwhole]
    simp only [stepsOf_append, hpart, List.append_assoc]

end Splitting

end Path

end DesignSystem
