import DesignSystem.Proofs.DocumentScan

/-! Which paths a pattern after `**/` excludes. With `/*` behind it, its parts have to follow each
other in the path, with one more part behind them. Without, they have to be the last parts of the
path, but only the end of the first of them counts. -/

namespace DesignSystem

theorem occursIn_iff_infix {sub cs : List Char} : occursIn sub cs = true ↔ sub <:+: cs := by
  induction cs with
  | nil => simp [occursIn]
  | cons c cs ih =>
    rw [occursIn, Bool.or_eq_true, List.isPrefixOf_iff_prefix, ih, List.infix_cons_iff]

theorem after?_append (start cs : List Char) : after? start (start ++ cs) = some cs := by
  simp [after?]

theorem before?_append (cs ending : List Char) : before? ending (cs ++ ending) = some cs := by
  simp [before?, List.isSuffixOf_iff_suffix]

theorem before?_of_not_mem {c : Char} {cs ending : List Char} (hc : c ∉ cs) (hend : c ∈ ending) :
    before? ending cs = none := by
  rw [before?, if_neg]
  rw [List.isSuffixOf_iff_suffix]
  exact fun hsuffix => hc (hsuffix.subset hend)

theorem suffix_iff_splitOn {ending cs : List Char} (a : Char) :
    ending <:+ cs ↔ ∃ front extra first tail, ending.splitOn a = first :: tail ∧
      cs.splitOn a = front ++ (extra ++ first) :: tail := by
  constructor
  · rintro ⟨before, rfl⟩
    obtain ⟨front, extra, first, tail, -, hending, hcs⟩ := splitOn_append a before ending
    exact ⟨front, extra, first, tail, hending, hcs⟩
  · rintro ⟨front, extra, first, tail, hending, hcs⟩
    have htext : [a].intercalate (cs.splitOn a) = cs := List.intercalate_splitOn a
    have hend : [a].intercalate (ending.splitOn a) = ending := List.intercalate_splitOn a
    have hextra : [a].intercalate ((extra ++ first) :: tail) = extra ++ ending := by
      rw [← hend, hending]
      cases tail with
      | nil => simp
      | cons part tail => simp [List.intercalate_cons_of_ne_nil]
    rw [← htext, hcs]
    by_cases hfront : front = []
    · rw [hfront, List.nil_append, hextra]
      exact List.suffix_append extra ending
    · rw [intercalate_append a hfront (by simp), hextra]
      exact ⟨[a].intercalate front ++ a :: extra, by simp⟩

namespace Pattern

/-- The pattern of what ends as a path does. -/
def atEnd (n : Path) : Pattern :=
  ⟨"**/" ++ n.text⟩

/-- The pattern of everything in folders of a path. -/
def inside (n : Path) : Pattern :=
  ⟨"**/" ++ n.text ++ "/*"⟩

theorem entersFolder_iff {folder path : List Char} :
    entersFolder folder path = true ↔ ∃ front back, back ≠ [] ∧
      path.splitOn '/' = front ++ folder.splitOn '/' ++ back := by
  rw [entersFolder, Bool.or_eq_true, occursIn_iff_infix, List.isPrefixOf_iff_prefix]
  constructor
  · rintro (⟨before, after, rfl⟩ | ⟨after, rfl⟩)
    · refine ⟨before.splitOn '/', after.splitOn '/', List.splitOn_ne_nil _ _, ?_⟩
      simp [List.splitOn_append_cons_self]
    · refine ⟨[], after.splitOn '/', List.splitOn_ne_nil _ _, ?_⟩
      simp [List.splitOn_append_cons_self]
  · rintro ⟨front, back, hback, hparts⟩
    have hpath : ['/'].intercalate (path.splitOn '/') = path := List.intercalate_splitOn '/'
    have hfolder : ['/'].intercalate (folder.splitOn '/') = folder := List.intercalate_splitOn '/'
    have hne : folder.splitOn '/' ≠ [] := List.splitOn_ne_nil _ _
    rw [hparts, intercalate_append '/' (by simp [hne]) hback] at hpath
    by_cases hfront : front = []
    · rw [hfront, List.nil_append, hfolder] at hpath
      exact Or.inr ⟨['/'].intercalate back, by simp [← hpath]⟩
    · rw [intercalate_append '/' hfront hne, hfolder] at hpath
      exact Or.inl ⟨['/'].intercalate front, ['/'].intercalate back, by simp [← hpath]⟩

theorem covers_atEnd {n : Path} (hn : '*' ∉ n.text.toList) (q : Path) :
    (atEnd n).covers q = n.text.toList.isSuffixOf q.text.toList := by
  have htext : (atEnd n).text.toList = ['*', '*', '/'] ++ n.text.toList := by simp [atEnd]
  have hfolder : folder? n.text.toList = none := before?_of_not_mem hn (by simp)
  simp only [covers, htext, after?_append, hfolder, Option.elim_none]

theorem covers_inside (n q : Path) :
    (inside n).covers q = entersFolder n.text.toList q.text.toList := by
  have htext : (inside n).text.toList = ['*', '*', '/'] ++ (n.text.toList ++ ['/', '*']) := by
    simp [inside]
  have hfolder : folder? (n.text.toList ++ ['/', '*']) = some n.text.toList :=
    before?_append _ _
  simp only [covers, htext, after?_append, hfolder, Option.elim_some]

end Pattern

/-- The text of a component as a part of a path. -/
def Component.label : Component → List Char
  | .root => []
  | .here => ['.']
  | .up => ['.', '.']
  | .name s => s.toList

namespace Path

variable {q n : Path}

/-- The component of a part that is not idle. -/
def componentOf (part : List Char) : Component :=
  if part = ['.', '.'] then .up else .name (String.ofList part)

@[simp] theorem label_componentOf (part : List Char) : (componentOf part).label = part := by
  rw [componentOf]
  split
  · rename_i h
    exact h.symm
  · exact String.toList_ofList

theorem component?_of_not_idle {part : List Char} (h : isIdle part = false) :
    component? part = some (componentOf part) := by
  rw [component?, componentOf, h, if_neg Bool.false_ne_true]
  split <;> rfl

theorem component?_eq_none_iff {part : List Char} :
    component? part = none ↔ isIdle part = true := by
  cases h : isIdle part with
  | true => simp [component?, h]
  | false => simp [component?_of_not_idle h]

theorem filterMap_component? {parts : List (List Char)} (h : ∀ part ∈ parts, isIdle part = false) :
    parts.filterMap component? = parts.map componentOf := by
  induction parts with
  | nil => rfl
  | cons part parts ih =>
    rw [List.filterMap_cons, component?_of_not_idle (h part (by simp)),
      ih fun p hp => h p (by simp [hp]), List.map_cons]

theorem isIdle_of_suffix {part whole : List Char} (h : part <:+ whole) (hw : isIdle whole = true) :
    isIdle part = true := by
  have hwhole : whole = [] ∨ whole = ['.'] := by simpa [isIdle] using hw
  rcases hwhole with rfl | rfl
  · rw [List.suffix_nil.mp h]
    rfl
  · rcases List.suffix_cons_iff.mp h with rfl | h
    · rfl
    · rw [List.suffix_nil.mp h]
      rfl

/-- A part that is not idle is a component, and so are those behind it. -/
theorem exists_components {front back : List (List Char)} {part : List Char}
    (h : q.parts = front ++ part :: back) (hpart : isIdle part = false) :
    ∃ before, q.components = before ++ componentOf part :: back.filterMap component? := by
  have htext : q.text ≠ "" := by
    intro he
    rw [← parts_eq_empty_iff, h] at he
    have hmem : part ∈ [[]] := he ▸ (by simp)
    rw [List.mem_singleton.mp hmem] at hpart
    cases hpart
  have hcons : (part :: back).filterMap component? =
      componentOf part :: back.filterMap component? := by
    rw [List.filterMap_cons, component?_of_not_idle hpart]
  rw [components_eq htext, h, ← hcons]
  by_cases hfront : front = []
  · exact ⟨[], by rw [hfront, List.nil_append, componentsOf_of_not_idle hpart, List.nil_append]⟩
  · exact ⟨componentsOf front, componentsOf_append hfront _⟩

theorem exists_split_parts (q : Path) : ∃ front, q.parts = front ++ q.split.2 := by
  rw [split, parts]
  split
  · rename_i heq
    exact ⟨[[]], heq⟩
  · rename_i heq
    exact ⟨[['.']], heq⟩
  · exact ⟨[], rfl⟩

theorem isIdle_label_of_start {c : Component} (h : q.split.1 = some c) : isIdle c.label = true := by
  rw [split] at h
  split at h
  · cases h
    rfl
  · cases h
    rfl
  · cases h

/-- A component other than the root and the dot at the start is a part, and the components behind
it are those of the parts behind it. -/
theorem exists_parts {before after : List Component} {c : Component}
    (h : q.components = before ++ c :: after) (hc : isIdle c.label = false) :
    ∃ front back, q.parts = front ++ c.label :: back ∧ back.filterMap component? = after := by
  obtain ⟨first, hfirst⟩ := q.exists_split_parts
  have hrest : ∃ before, q.split.2.filterMap component? = before ++ c :: after := by
    rw [components] at h
    rcases List.append_eq_append_iff.mp h with ⟨before', -, hmore⟩ | ⟨more, hstart, hmore⟩
    · exact ⟨before', hmore⟩
    · cases more with
      | nil => exact ⟨[], hmore.symm⟩
      | cons d more =>
        obtain ⟨rfl, -⟩ := List.cons_eq_cons.mp hmore
        have hmem : c ∈ q.split.1.toList := by simp [hstart]
        rw [isIdle_label_of_start (Option.mem_toList.mp hmem)] at hc
        cases hc
  obtain ⟨before, hrest⟩ := hrest
  obtain ⟨front, parts, hparts, -, hcons⟩ := List.filterMap_eq_append_iff.mp hrest
  obtain ⟨idle, part, back, rfl, -, hpart, hback⟩ := List.filterMap_eq_cons_iff.mp hcons
  have hidle : isIdle part = false := by
    rw [← Bool.not_eq_true, ← component?_eq_none_iff, hpart]
    exact Option.some_ne_none c
  obtain rfl : componentOf part = c :=
    Option.some.inj ((component?_of_not_idle hidle).symm.trans hpart)
  refine ⟨first ++ front ++ idle, back, ?_, hback⟩
  rw [hfirst, hparts, label_componentOf]
  simp

/-- No part is idle, so the path is neither empty nor absolute. -/
def IsPlain (n : Path) : Prop :=
  ∀ part ∈ n.parts, isIdle part = false

theorem IsPlain.exists_cons (hn : n.IsPlain) : ∃ first tail, n.parts = first :: tail ∧
    isIdle first = false ∧ (∀ part ∈ tail, isIdle part = false) ∧
      n.components = componentOf first :: tail.map componentOf := by
  obtain ⟨first, tail, hparts⟩ := List.exists_cons_of_ne_nil n.parts_ne_nil
  have hfirst : isIdle first = false := hn first (by simp [hparts])
  have htail : ∀ part ∈ tail, isIdle part = false := fun part hp => hn part (by simp [hparts, hp])
  refine ⟨first, tail, hparts, hfirst, htail, ?_⟩
  have htext : n.text ≠ "" := by
    intro he
    rw [parts_eq_empty_iff.mpr he] at hparts
    obtain ⟨rfl, -⟩ := List.cons_eq_cons.mp hparts
    cases hfirst
  rw [components_eq htext, hparts, componentsOf_of_not_idle hfirst, List.filterMap_cons,
    component?_of_not_idle hfirst, filterMap_component? htail]

/-- Idle parts stand at the start alone. -/
def IsTight (q : Path) : Prop :=
  ∃ idle rest, q.parts = idle ++ rest ∧ (∀ part ∈ idle, isIdle part = true) ∧
    ∀ part ∈ rest, isIdle part = false

theorem IsTight.not_idle_behind (hq : q.IsTight) {front back : List (List Char)} {part : List Char}
    (h : q.parts = front ++ part :: back) (hpart : isIdle part = false) :
    ∀ p ∈ back, isIdle p = false := by
  obtain ⟨idle, rest, hparts, hidle, hrest⟩ := hq
  intro p hp
  rw [h] at hparts
  rcases List.append_eq_append_iff.mp hparts with ⟨start, rfl, hback⟩ | ⟨more, rfl, hback⟩
  · cases start with
    | nil => exact hrest p (by rw [← List.nil_append rest, ← hback]; simp [hp])
    | cons s start =>
      obtain ⟨rfl, -⟩ := List.cons_eq_cons.mp hback
      rw [hidle part (by simp)] at hpart
      cases hpart
  · exact hrest p (by simp [hback, hp])

/-- Where the parts of a path can be looked for by their components: the other path is tight, or
there is a single part. -/
def Comparable (n q : Path) : Prop :=
  q.IsTight ∨ n.parts.length = 1

theorem Comparable.nil_or_not_idle (h : Comparable n q) {first part : List Char}
    {tail front back : List (List Char)} (hn : n.parts = first :: tail)
    (hq : q.parts = front ++ part :: back) (hpart : isIdle part = false) :
    tail = [] ∨ ∀ p ∈ back, isIdle p = false := by
  rcases h with htight | hsingle
  · exact Or.inr (htight.not_idle_behind hq hpart)
  · exact Or.inl (by simpa [hn] using hsingle)

theorem exists_rest {parts back : List (List Char)} {after : List Component}
    (h : parts = [] ∨ ∀ part ∈ back, isIdle part = false)
    (hback : back.filterMap component? = parts.map componentOf ++ after) :
    ∃ rest, back = parts ++ rest ∧ rest.filterMap component? = after := by
  rcases h with rfl | h
  · exact ⟨back, rfl, hback⟩
  · rw [filterMap_component? h] at hback
    obtain ⟨start, rest, rfl, hstart, hrest⟩ := List.map_eq_append_iff.mp hback
    have hinj : Function.Injective componentOf := Function.LeftInverse.injective label_componentOf
    obtain rfl := hinj.list_map hstart
    refine ⟨rest, rfl, ?_⟩
    rw [filterMap_component? fun p hp => h p (by simp [hp]), hrest]

section Comparing

variable {last : List Char}

theorem filterMap_ne_nil (hlast : q.parts.getLast? = some last) (hidle : isIdle last = false)
    {front back : List (List Char)} (h : q.parts = front ++ back) (hback : back ≠ []) :
    back.filterMap component? ≠ [] := by
  intro hnil
  rw [h, List.getLast?_append_of_ne_nil front hback] at hlast
  have hnone := List.filterMap_eq_nil_iff.mp hnil last (List.mem_of_getLast? hlast)
  rw [component?_of_not_idle hidle] at hnone
  cases hnone

/-- The parts of a path end another one exactly if its components do, up to the start of the first
of them. -/
theorem ends_iff_components (hn : n.IsPlain) (hlast : q.parts.getLast? = some last)
    (hidle : isIdle last = false) (hspelling : Comparable n q) :
    (∃ front extra first tail, n.parts = first :: tail ∧
        q.parts = front ++ (extra ++ first) :: tail) ↔
      ∃ front c d tail, n.components = c :: tail ∧ c.label <:+ d.label ∧
        q.components = front ++ d :: tail := by
  obtain ⟨first, tail, hparts, hfirst, htail, hcomponents⟩ := hn.exists_cons
  rw [hparts, hcomponents]
  constructor
  · rintro ⟨front, extra, _, _, ⟨rfl, rfl⟩, hq⟩
    have hwhole : isIdle (extra ++ first) = false := by
      rw [← Bool.not_eq_true] at hfirst ⊢
      exact mt (isIdle_of_suffix (List.suffix_append extra first)) hfirst
    obtain ⟨before, hbefore⟩ := exists_components hq hwhole
    rw [filterMap_component? htail] at hbefore
    exact ⟨before, _, componentOf (extra ++ first), _, rfl, by simp, hbefore⟩
  · rintro ⟨before, _, d, _, ⟨rfl, rfl⟩, hlabel, hq⟩
    rw [label_componentOf] at hlabel
    have hd : isIdle d.label = false := by
      rw [← Bool.not_eq_true] at hfirst ⊢
      exact mt (isIdle_of_suffix hlabel) hfirst
    obtain ⟨front, back, hback, hafter⟩ := exists_parts hq hd
    rw [← List.append_nil (tail.map componentOf)] at hafter
    obtain ⟨rest, rfl, hrest⟩ := exists_rest (hspelling.nil_or_not_idle hparts hback hd) hafter
    -- What is left stands for no component, but the last part of `q` does.
    obtain rfl : rest = [] := by
      by_contra hne
      rw [← List.cons_append, ← List.append_assoc] at hback
      exact filterMap_ne_nil hlast hidle hback hne hrest
    obtain ⟨extra, hextra⟩ := hlabel
    exact ⟨front, extra, first, tail, rfl, by simpa [hextra] using hback⟩

/-- The parts of a path occur in another one, with more behind them, exactly if its components
do. -/
theorem occurs_iff_components (hn : n.IsPlain) (hlast : q.parts.getLast? = some last)
    (hidle : isIdle last = false) (hspelling : Comparable n q) :
    (∃ front back, back ≠ [] ∧ q.parts = front ++ n.parts ++ back) ↔
      ∃ front back, back ≠ [] ∧ q.components = front ++ n.components ++ back := by
  obtain ⟨first, tail, hparts, hfirst, htail, hcomponents⟩ := hn.exists_cons
  rw [hparts, hcomponents]
  constructor
  · rintro ⟨front, back, hback, hq⟩
    have hrest : back.filterMap component? ≠ [] := filterMap_ne_nil hlast hidle hq hback
    rw [List.append_assoc, List.cons_append] at hq
    obtain ⟨before, hbefore⟩ := exists_components hq hfirst
    rw [List.filterMap_append, filterMap_component? htail] at hbefore
    exact ⟨before, _, hrest, by simpa using hbefore⟩
  · rintro ⟨before, after, hafter, hq⟩
    rw [List.append_assoc, List.cons_append] at hq
    have hlabel : isIdle (componentOf first).label = false := by rwa [label_componentOf]
    obtain ⟨front, back, hback, hrest⟩ := exists_parts hq hlabel
    obtain ⟨rest, rfl, hmore⟩ := exists_rest (hspelling.nil_or_not_idle hparts hback hlabel) hrest
    refine ⟨front, rest, ?_, by simpa using hback⟩
    rintro rfl
    exact hafter hmore.symm

end Comparing

end Path

/-- A pattern after `**/` excludes what has its parts as the last ones, but only the end of the
first of them counts. With `/*` behind it, its parts have to follow each other, with more behind.
The same holds of the components of a path that a scan lists. -/
theorem exclusion_compares_parts (n q : Path) (hn : '*' ∉ n.text.toList) :
    ((Pattern.atEnd n).covers q = true ↔ ∃ front extra first tail, n.parts = first :: tail ∧
        q.parts = front ++ (extra ++ first) :: tail) ∧
      ((Pattern.inside n).covers q = true ↔
        ∃ front back, back ≠ [] ∧ q.parts = front ++ n.parts ++ back) ∧
      ∀ (w : World) (manifest : Manifest) (root : Path), w.root.Ordered →
        q ∈ w.scanned manifest root → n.IsPlain → Path.Comparable n q →
          ((Pattern.atEnd n).covers q = true ↔ ∃ front c d tail, n.components = c :: tail ∧
              c.label <:+ d.label ∧ q.components = front ++ d :: tail) ∧
            ((Pattern.inside n).covers q = true ↔
              ∃ front back, back ≠ [] ∧ q.components = front ++ n.components ++ back) := by
  have hending : (Pattern.atEnd n).covers q = true ↔ ∃ front extra first tail,
      n.parts = first :: tail ∧ q.parts = front ++ (extra ++ first) :: tail := by
    rw [Pattern.covers_atEnd hn, List.isSuffixOf_iff_suffix]
    exact suffix_iff_splitOn '/'
  have hinside : (Pattern.inside n).covers q = true ↔
      ∃ front back, back ≠ [] ∧ q.parts = front ++ n.parts ++ back := by
    rw [Pattern.covers_inside]
    exact Pattern.entersFolder_iff
  refine ⟨hending, hinside, fun w manifest root hw hq hplain hspelling => ?_⟩
  obtain ⟨⟨-, place, content, -, -, hfile⟩, -, -⟩ := (World.mem_scanned_iff hw manifest).mp hq
  obtain ⟨last, hlast, hidle⟩ := World.exists_last_part_of_file hfile
  exact ⟨hending.trans (Path.ends_iff_components hplain hlast hidle hspelling),
    hinside.trans (Path.occurs_iff_components hplain hlast hidle hspelling)⟩

/-- The pattern `**/drafts/b.ssf` excludes a file in `old-drafts`. -/
theorem exclusion_compares_parts_longer_name :
    let w : World := ⟨.folder [("p", .folder [("drafts", .folder [("a.ssf", .file (.text ""))]),
      ("old-drafts", .folder [("b.ssf", .file (.text ""))])])], ["p"], "", ""⟩
    let n : Path := ⟨"drafts/b.ssf"⟩
    let q : Path := ⟨"./old-drafts/b.ssf"⟩
    '*' ∉ n.text.toList ∧ w.root.Ordered ∧ q ∈ w.scanned Manifest.standard ⟨"."⟩ ∧ n.IsPlain ∧
      Path.Comparable n q ∧ (Pattern.atEnd n).covers q = true ∧
      (∃ front c d tail, n.components = c :: tail ∧ c.label <:+ d.label ∧
        q.components = front ++ d :: tail) ∧
      ¬ ∃ front back, back ≠ [] ∧ q.components = front ++ n.components ++ back := by
  intro w n q
  have hn : '*' ∉ n.text.toList := by decide
  have hw : w.root.Ordered := by
    simp only [w, Item.Ordered, Item.OrderedItems]
    decide
  have hq : q ∈ w.scanned Manifest.standard ⟨"."⟩ := by decide +kernel
  have hplain : n.IsPlain := by
    rw [Path.IsPlain]
    decide
  have hspelling : Path.Comparable n q :=
    Or.inl ⟨[['.']], ["old-drafts".toList, "b.ssf".toList], by decide, by decide, by decide⟩
  have hcovers : (Pattern.atEnd n).covers q = true := by decide
  have hfree : (Pattern.inside n).covers q ≠ true := by decide
  obtain ⟨-, -, hscan⟩ := exclusion_compares_parts n q hn
  obtain ⟨hends, hoccurs⟩ := hscan w Manifest.standard ⟨"."⟩ hw hq hplain hspelling
  exact ⟨hn, hw, hq, hplain, hspelling, hcovers, hends.mp hcovers, mt hoccurs.mpr hfree⟩

/-- The pattern `**/b.ssf` excludes `ab.ssf`, which is another name. -/
theorem excluded_by_end_of_name :
    let w : World := ⟨.folder [("ab.ssf", .file (.text "")), ("b.ssf", .file (.text "")),
      ("c", .folder [("ab.ssf", .file (.text ""))])], [], "", ""⟩
    let n : Path := ⟨"b.ssf"⟩
    let q : Path := ⟨"./ab.ssf"⟩
    '*' ∉ n.text.toList ∧ n.text ≠ "" ∧ n.isAbsolute = false ∧ w.root.Ordered ∧
      q ∈ w.scanned Manifest.standard ⟨"."⟩ ∧ (Pattern.atEnd n).covers q = true ∧
      ¬ n.components <:+ q.components := by
  intro w n q
  have hw : w.root.Ordered := by
    simp only [w, Item.Ordered, Item.OrderedItems]
    decide
  exact ⟨by decide, by decide, by decide, hw, by decide +kernel, by decide, by decide⟩

end DesignSystem
