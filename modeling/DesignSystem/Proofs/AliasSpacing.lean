import DesignSystem.Proofs.AliasLookup
import DesignSystem.Proofs.AlikeTrees
import DesignSystem.Proofs.SpacedNames

/-! White space next to the commas of an alias row. A name that is no number is listed with the
spaces that touch it, and then no property has that name. Every other property finds the category
that it finds without the spaces. -/

namespace DesignSystem

/-- The text has the names between its commas, with white space next to the commas or not. -/
def ListsNames (text : List Char) (names : List String) : Prop :=
  wordsByComma text = names.map fun name => [name.toList]

instance (text : List Char) (names : List String) : Decidable (ListsNames text names) :=
  inferInstanceAs (Decidable (_ = _))

/-- Both texts are the same single word but for the white space around it. -/
def SameWord (p q : List Char) : Prop :=
  ∃ w, words p = [w] ∧ words q = [w]

section Items

variable {raw other : List Char} {names : List String}

theorem ListsNames.exists_coerce? (h : ListsNames raw names) :
    ∃ v, Value.coerce? (String.ofList raw) = some v := by
  refine Value.exists_coerce? ?_
  rw [String.toList_ofList]
  rintro rfl
  rw [ListsNames, wordsByComma_nil] at h
  obtain ⟨name, -, hname⟩ := List.mem_map.mp (h ▸ List.mem_singleton_self [])
  cases hname

theorem forall₂_sameWord {ps qs : List (List Char)}
    (hp : ps.map words = names.map fun name => [name.toList])
    (hq : qs.map words = names.map fun name => [name.toList]) :
    List.Forall₂ SameWord ps qs := by
  induction names generalizing ps qs with
  | nil =>
    obtain rfl := List.map_eq_nil_iff.mp hp
    obtain rfl := List.map_eq_nil_iff.mp hq
    exact .nil
  | cons name names ih =>
    obtain ⟨p, ps, rfl, hp, hps⟩ := List.map_eq_cons_iff.mp hp
    obtain ⟨q, qs, rfl, hq, hqs⟩ := List.map_eq_cons_iff.mp hq
    exact .cons ⟨_, hp, hq⟩ (ih hps hqs)

theorem comma_mem_iff {cs : List Char} : ',' ∈ cs ↔ (cs.splitOn ',').length ≠ 1 := by
  refine ⟨fun hc hlength => ?_, fun hlength => ?_⟩
  · obtain ⟨part, hpart⟩ := List.length_eq_one_iff.mp hlength
    have hcs : [','].intercalate (cs.splitOn ',') = cs := List.intercalate_splitOn ','
    rw [hpart, List.intercalate_singleton] at hcs
    exact not_mem_of_mem_splitOn (hpart ▸ List.mem_singleton_self part) (hcs ▸ hc)
  · by_contra hc
    rw [List.splitOn_eq_singleton hc] at hlength
    exact hlength rfl

namespace Value

theorem any_opensQuote_eq {ps qs : List (List Char)} (h : List.Forall₂ SameWord ps qs) :
    ps.any opensQuote = qs.any opensQuote := by
  induction h with
  | nil => rfl
  | cons hpq _ ih =>
    obtain ⟨w, hp, hq⟩ := hpq
    rw [List.any_cons, List.any_cons, opensQuote_of_words hp, opensQuote_of_words hq, ih]

theorem isListText_eq (h : List.Forall₂ SameWord (raw.splitOn ',') (other.splitOn ',')) :
    isListText raw = isListText other := by
  have hcomma : raw.contains ',' = other.contains ',' := by
    rw [Bool.eq_iff_iff, List.contains_iff_mem, List.contains_iff_mem, comma_mem_iff,
      comma_mem_iff, h.length_eq]
  rw [isListText, isListText, hcomma, any_opensQuote_eq h]

/-- White space next to commas takes no number from a text and adds none. -/
theorem forall₂_itemTexts (h : List.Forall₂ SameWord (raw.splitOn ',') (other.splitOn ',')) :
    List.Forall₂ (fun p q => readNumber? p = readNumber? q) (itemTexts raw) (itemTexts other) := by
  have hsame : ∀ p q, SameWord p q → readNumber? p = readNumber? q := by
    rintro p q ⟨w, hp, hq⟩
    rw [readNumber?_of_words hp, readNumber?_of_words hq]
  rw [itemTexts, itemTexts, ← isListText_eq h]
  by_cases hlist : isListText raw = true
  · rw [if_pos hlist, if_pos hlist]
    exact h.imp hsame
  · rw [if_neg hlist, if_neg hlist]
    refine .cons ?_ .nil
    -- The whole texts are the only items. With a comma they are no numbers, and without one they
    -- are single words.
    by_cases hcomma : ',' ∈ raw
    · have hother : ',' ∈ other := by rwa [comma_mem_iff, ← h.length_eq, ← comma_mem_iff]
      rw [readNumber?_of_comma hcomma, readNumber?_of_comma hother]
    · have hother : ',' ∉ other := by rwa [comma_mem_iff, ← h.length_eq, ← comma_mem_iff]
      rw [List.splitOn_eq_singleton hcomma, List.splitOn_eq_singleton hother,
        List.forall₂_cons] at h
      exact hsame _ _ h.1

/-- Every item that is the name in one of the texts and is spaced otherwise in the other one is
a number. -/
def KeepsItem (raw other : List Char) (name : String) : Prop :=
  ∀ x ∈ (itemTexts raw).zip (itemTexts other), x.1 ≠ x.2 → name.toList ∈ [x.1, x.2] →
    (readNumber? x.1).isSome

instance (raw other : List Char) (name : String) : Decidable (KeepsItem raw other name) :=
  inferInstanceAs (Decidable (∀ x ∈ _, _))

theorem display_ofItem_iff (hnumber : readNumber? raw = readNumber? other) {name : String}
    (h : raw ≠ other → name.toList ∈ [raw, other] → (readNumber? raw).isSome) :
    (ofItem raw).display = name ↔ (ofItem other).display = name := by
  by_cases he : raw = other
  · rw [he]
  cases hn : readNumber? raw with
  | some n => rw [ofItem, ofItem, ← hnumber, hn]
  | none =>
    have hkept : name.toList ∉ [raw, other] := fun hm => by simpa [hn] using h he hm
    have hdisplay : ∀ cs, readNumber? cs = none → (ofItem cs).display = name →
        name.toList = cs := by
      rintro cs hcs rfl
      rw [display, String.toList_ofList, plain_ofItem_of_not_number hcs]
    constructor
    · intro hd
      exact absurd (by simp [hdisplay raw hn hd]) hkept
    · intro hd
      exact absurd (by simp [hdisplay other (hnumber ▸ hn) hd]) hkept

/-- Rows with these values both list the name, or neither does. -/
def ListAlike (name : String) (v w : Value) : Prop :=
  name ∈ Aliases.properties (.leaf v) ↔ name ∈ Aliases.properties (.leaf w)

theorem mem_map_iff_of_forall₂ {α β : Type} {f : α → β} {b : β} {xs ys : List α}
    (h : List.Forall₂ (fun x y => f x = b ↔ f y = b) xs ys) : b ∈ xs.map f ↔ b ∈ ys.map f := by
  induction h with
  | nil => rfl
  | cons hxy _ ih => rw [List.map_cons, List.map_cons, List.mem_cons, List.mem_cons, eq_comm, hxy,
      eq_comm, ih]

/-- The values of two rows with the same names between their commas list the same, but for names
that are spaced otherwise. -/
theorem listAlike_coerce? (hr : ListsNames raw names) (ho : ListsNames other names)
    {name : String} (h : KeepsItem raw other name) :
    Option.Rel (ListAlike name) (coerce? (String.ofList raw)) (coerce? (String.ofList other)) := by
  obtain ⟨v, hv⟩ := hr.exists_coerce?
  obtain ⟨w, hw⟩ := ho.exists_coerce?
  rw [hv, hw]
  refine .some ?_
  rw [ListAlike, Aliases.properties_of_coerce? hv, Aliases.properties_of_coerce? hw,
    String.toList_ofList, String.toList_ofList]
  obtain ⟨hlength, hnumber⟩ := List.forall₂_iff_zip.mp
    (forall₂_itemTexts (forall₂_sameWord hr ho))
  refine mem_map_iff_of_forall₂ (List.forall₂_iff_zip.mpr ⟨hlength, fun hx => ?_⟩)
  exact display_ofItem_iff (hnumber hx) (h _ hx)

theorem mem_properties_of_item (hr : ListsNames raw names) {item : List Char}
    (h : item ∈ itemTexts raw) {name : String} (hwords : words item = [name.toList])
    (hitem : item = name.toList ∨ (readNumber? item).isSome)
    (hshown : (ofItem name.toList).display = name) :
    name ∈ Aliases.properties (.ofValue? (coerce? (String.ofList raw))) := by
  obtain ⟨v, hv⟩ := hr.exists_coerce?
  have hdisplay : (ofItem item).display = name := by
    rcases hitem with rfl | hnumber
    · exact hshown
    · obtain ⟨n, hn⟩ := Option.isSome_iff_exists.mp hnumber
      have hname := readNumber?_of_words hwords
      rw [← hshown, ofItem, ofItem, ← hname, hn]
  rw [hv, Node.ofValue?, Aliases.properties_of_coerce? hv, String.toList_ofList]
  exact List.mem_map.mpr ⟨item, h, hdisplay⟩

end Value

end Items

section Tables

variable {name : String}

theorem mem_properties_iff {m n : Node} (h : Node.Alike (Value.ListAlike name) m n) :
    name ∈ Aliases.properties m ↔ name ∈ Aliases.properties n := by
  cases h with
  | leaf h => exact h
  | branch h => exact iff_of_eq (congrArg (name ∈ ·) (Tree.Alike.keys_eq h))

theorem forall₂_ofSection {s t : Tree} (h : Tree.Alike (Value.ListAlike name) s t) :
    List.Forall₂ (fun a b => a.1 = b.1 ∧ (name ∈ a.2 ↔ name ∈ b.2))
      (Aliases.ofSection s) (Aliases.ofSection t) := by
  have htable := rel_getD (h.branch? "tokens") h
  rw [Aliases.ofSection, Aliases.ofSection, List.forall₂_map_left_iff, List.forall₂_map_right_iff]
  refine htable.imp fun a b hab => ?_
  obtain ⟨key, hmn⟩ := hab
  exact ⟨rfl, mem_properties_iff hmn⟩

end Tables

theorem ListsNames.spaced {text : List Char} {names : List String} (h : ListsNames text names) :
    ListsNames (spaced text) names :=
  (wordsByComma_spaced text).trans h

/-- What white space next to the commas of a row changes. Two documents that differ in it alone
resolve a property to the same category, unless its bare name is an item of the row that is
spaced otherwise in the other document and is no number. An item that is its name, or is a
number, draws from the category of the row unless an earlier row lists the name. -/
theorem alias_rows_respaced {source other : String} {before after : List (List Char)}
    {head text respaced : List Char} {c : Char} {depth : Nat} {category : String}
    {names : List String}
    (hhead : Line.read? head = some ⟨depth, category, ""⟩) (hc : isBlank c = true)
    (hs : textLines source.toList = before ++ (head ++ c :: text) :: after)
    (ho : textLines other.toList = before ++ (head ++ c :: respaced) :: after)
    (ht : ListsNames text names) (hr : ListsNames respaced names) (start : Widths) :
    (∀ property, Value.KeepsItem (spaced text) (spaced respaced) (bareProperty property) →
      (Design.ofTree start (parse source)).aliases.resolve property =
        (Design.ofTree start (parse other)).aliases.resolve property) ∧
    ∀ earlier later, (Design.ofTree start (parse source)).aliases = earlier ++
        (category, Aliases.properties
          (.ofValue? (Value.coerce? (String.ofList (spaced text))))) :: later →
      ∀ item ∈ Value.itemTexts (spaced text), ∀ name : String, words item = [name.toList] →
        (item = name.toList ∨ (Value.readNumber? item).isSome) → '=' ∉ name.toList →
        (Value.ofItem name.toList).display = name → (∀ row ∈ earlier, name ∉ row.2) →
        (Design.ofTree start (parse source)).aliases.resolve name = category := by
  constructor
  · intro property hkept
    have hrow := Value.listAlike_coerce? ht.spaced hr.spaced hkept
    have hlines : List.Forall₂
        (Line.Alike Value.coerce? (Value.ListAlike (bareProperty property)))
        (documentLines source) (documentLines other) := by
      have hrest : ∀ lines : List Line, List.Forall₂ (Line.Alike Value.coerce?
          (Value.ListAlike (bareProperty property))) lines lines :=
        fun lines => List.forall₂_same.mpr fun l _ => .refl (fun _ => Iff.rfl) l
      rw [documentLines, documentLines, hs, ho, List.filterMap_append, List.filterMap_append,
        List.filterMap_cons, List.filterMap_cons, Line.read?_append hhead hc,
        Line.read?_append hhead hc]
      exact List.rel_append (hrest _) (.cons ⟨rfl, rfl, hrow⟩ (hrest _))
    exact Aliases.resolve_congr (forall₂_ofSection ((alike_treeOfLines hlines).sectionOf _))
  · intro earlier later haliases item hitem name hwords hplain heq hshown hearlier
    have hbare := bareProperty_of_not_mem heq
    rw [haliases]
    refine Aliases.resolve_of_first ?_ (by rwa [hbare])
    rw [hbare]
    exact Value.mem_properties_of_item ht.spaced hitem hwords hplain hshown

/-- The number `2` is found with spaces next to it and without. -/
theorem alias_rows_respaced_number :
    let source := "aliases\n\tcolor fill,2 ,stroke\n\tsize 2\n"
    let other := "aliases\n\tcolor fill , 2,stroke\n\tsize 2\n"
    let aliases := fun source => (Design.ofTree .standard (parse source)).aliases
    (ListsNames "fill,2 ,stroke".toList ["fill", "2", "stroke"] ∧
      ListsNames "fill , 2,stroke".toList ["fill", "2", "stroke"]) ∧
      (aliases source).resolve "roles=2" = (aliases other).resolve "roles=2" ∧
      (aliases source).resolve "2" = "color" := by
  intro source other aliases
  have ht : ListsNames "fill,2 ,stroke".toList ["fill", "2", "stroke"] := by decide +kernel
  have hr : ListsNames "fill , 2,stroke".toList ["fill", "2", "stroke"] := by decide +kernel
  have hhead : Line.read? "\tcolor".toList = some ⟨1, "color", ""⟩ := by decide +kernel
  have hs : textLines source.toList = ["aliases".toList] ++
      ("\tcolor".toList ++ ' ' :: "fill,2 ,stroke".toList) :: ["\tsize 2".toList] := by
    decide +kernel
  have ho : textLines other.toList = ["aliases".toList] ++
      ("\tcolor".toList ++ ' ' :: "fill , 2,stroke".toList) :: ["\tsize 2".toList] := by
    decide +kernel
  obtain ⟨hkept, hlisted⟩ :=
    alias_rows_respaced hhead (by decide) hs ho ht hr .standard
  have htwo := hlisted [] [("size", ["2"])] (by decide +kernel) "2 ".toList (by decide +kernel) "2"
    (by decide +kernel) (by decide +kernel) (by decide) (by decide +kernel) (by simp)
  have hsame := hkept "roles=2" (by decide +kernel)
  exact ⟨⟨ht, hr⟩, hsame, htwo⟩

/-- With a space before it the name `b` is not listed. -/
theorem name_behind_space_not_listed :
    let aliases := fun source => (Design.ofTree .standard (parse source)).aliases
    (aliases "aliases\n\tcolor a,b").resolve "b" = "color" ∧
      (aliases "aliases\n\tcolor a, b").resolve "b" = "b" := by
  decide +kernel

end DesignSystem
