import DesignSystem.Proofs.AliasLookup
import DesignSystem.Proofs.NestedBlocks

/-! The ways to write an alias table. A row has its names on one line or on lines of their own,
and the table stands in the `aliases` section or in its `tokens` entry. All of them denote the
same table. -/

namespace DesignSystem

/-- A property name that a row on one line can list: a word without commas that does not open
with a quote and is what it is read as. -/
structure ListedName (name : String) : Prop where
  word : IsWord name.toList
  no_comma : ',' ∉ name.toList
  no_quote : ∀ c ∈ name.toList.head?, c ≠ '"' ∧ c ≠ '\''
  shown : (Value.coerce? name).map Value.display = some name

instance (name : String) : Decidable (ListedName name) :=
  -- Tests along the characters of the name, since a quantifier over characters tries them all.
  decidable_of_iff
    (name.toList ≠ [] ∧ name.toList.all (!isBlank ·) ∧ ',' ∉ name.toList ∧
      name.toList.head?.all (fun c => c != '"' && c != '\'') ∧
      (Value.coerce? name).map Value.display = some name) <| by
    rw [List.all_eq_true, Option.all_eq_true]
    constructor
    · rintro ⟨hne, hblank, hcomma, hquote, hshown⟩
      exact ⟨⟨hne, by simpa using hblank⟩, hcomma, by simpa using hquote, hshown⟩
    · rintro ⟨⟨hne, hblank⟩, hcomma, hquote, hshown⟩
      exact ⟨hne, by simpa using hblank, hcomma, by simpa using hquote, hshown⟩

/-- A line without further lines below it. -/
def Block.single (name value : String) : Block where
  head := ⟨0, name, value⟩
  body := []
  head_depth := rfl
  body_depth := by simp
  steps := .singleton _

inductive WritesRow : String × List String → Block → Prop
  | onOneLine (category : String) (names : List String) :
    WritesRow (category, names) (.single category (",".intercalate names))
  | lineByLine (category : String) (names : List String) :
    WritesRow (category, names) (.nest category (names.map (.single · "")))

inductive WritesTable (rows : Aliases) : Block → Prop
  | directly {bs : List Block} : List.Forall₂ WritesRow rows bs →
    WritesTable rows (.nest "aliases" bs)
  | inTokens {bs before after : List Block} : List.Forall₂ WritesRow rows bs →
    (∀ b ∈ before ++ after, b.name ≠ "tokens") →
    WritesTable rows (.nest "aliases" (before ++ .nest "tokens" bs :: after))

namespace ListedName

variable {name : String}

theorem opensQuote_eq_false (h : ListedName name) : Value.opensQuote name.toList = false := by
  obtain ⟨c, cs, hcs⟩ := List.exists_cons_of_ne_nil h.word.1
  obtain ⟨hdouble, hsingle⟩ := h.no_quote c (by simp [hcs])
  rw [Value.opensQuote, trimStart_of_isWord h.word, hcs]
  simp [hdouble, hsingle]

theorem display_ofItem (h : ListedName name) : (Value.ofItem name.toList).display = name := by
  obtain ⟨v, hv, hshown⟩ := Option.map_eq_some_iff.mp h.shown
  obtain ⟨-, ⟨hl, -⟩ | ⟨-, rfl⟩⟩ := Value.coerce?_eq_some.mp hv
  · simp [Value.isListText, h.no_comma] at hl
  · exact hshown

end ListedName

theorem properties_intercalate {names : List String} (h : ∀ n ∈ names, ListedName n) :
    Aliases.properties (Node.ofValue? (Value.coerce? (",".intercalate names))) = names := by
  by_cases hne : names = []
  · rw [hne]
    rfl
  have hsplit : (",".intercalate names).toList.splitOn ',' = names.map String.toList := by
    rw [String.toList_intercalate]
    refine List.splitOn_intercalate ',' (fun w hw => ?_) (by simpa using hne)
    obtain ⟨n, hn, rfl⟩ := List.mem_map.mp hw
    exact (h n hn).no_comma
  have hquote : ∀ part ∈ (",".intercalate names).toList.splitOn ',',
      Value.opensQuote part = false := by
    intro part hp
    rw [hsplit] at hp
    obtain ⟨n, hn, rfl⟩ := List.mem_map.mp hp
    exact (h n hn).opensQuote_eq_false
  have hempty : (",".intercalate names).toList ≠ [] := by
    intro he
    obtain ⟨n, hn⟩ := List.exists_mem_of_ne_nil names hne
    have hm : n.toList ∈ (",".intercalate names).toList.splitOn ',' :=
      hsplit ▸ List.mem_map_of_mem hn
    rw [he] at hm
    exact (h n hn).word.1 (by simpa using hm)
  obtain ⟨v, hv⟩ := Value.exists_coerce? hempty
  rw [hv, Node.ofValue?, Aliases.properties_of_coerce? hv, Value.itemTexts_of_no_quote hquote,
    hsplit, List.map_map]
  exact (List.map_congr_left fun n hn => (h n hn).display_ofItem).trans (List.map_id names)

theorem Block.placed_single (name value : String) :
    (single name value).placed = [⟨[], ⟨0, name, value⟩⟩] := rfl

theorem Block.node?_single (convert : String → Option Value) (name value : String) :
    (single name value).node? convert = some (Node.ofValue? (convert value)) := by
  rw [node?, placed_single, List.foldl_cons, List.foldl_nil, Placement.put, Tree.insertAt,
    Tree.alterAt, Tree.insert, Tree.get?_alter]
  exact if_pos rfl

theorem mem_keys_treeOfBlocks_single (convert : String → Option Value) (names : List String)
    (name : String) :
    name ∈ Tree.keys (treeOfBlocks convert (names.map (.single · ""))) ↔ name ∈ names := by
  have hplaced : (names.map (Block.single · "")).flatMap Block.placed =
      names.map fun n => ⟨[], ⟨0, n, ""⟩⟩ := by
    rw [List.flatMap_map]
    exact List.map_eq_flatMap.symm
  have hkeys := keys_foldl_put convert [] (names.map fun n => ⟨[], ⟨0, n, ""⟩⟩) []
    (fun r _ => by simp [r.path_ne_nil]) rfl
  rw [Tree.entriesAt_nil] at hkeys
  rw [treeOfBlocks, hplaced, hkeys, childNames, List.mem_eraseDups]
  simp [childOf?, Placement.path]

/-- A block that writes a row holds a node that lists the names of the row. -/
theorem WritesRow.node? {row : String × List String} {b : Block} (h : WritesRow row b)
    (hlisted : ∀ n ∈ row.2, ListedName n) :
    b.name = row.1 ∧ ∃ n, b.node? Value.coerce? = some n ∧
      ∀ name, name ∈ Aliases.properties n ↔ name ∈ row.2 := by
  cases h with
  | onOneLine category names =>
    refine ⟨rfl, _, Block.node?_single _ _ _, fun name => ?_⟩
    rw [properties_intercalate hlisted]
  | lineByLine category names =>
    exact ⟨rfl, _, Block.node?_nest _ rfl _ _, mem_keys_treeOfBlocks_single _ names⟩

/-- The rows of a written table, as they are read, list what the rows of the table list. -/
theorem forall₂_ofBlocks {rows : Aliases} {bs : List Block} (h : List.Forall₂ WritesRow rows bs)
    (hlisted : ∀ row ∈ rows, ∀ n ∈ row.2, ListedName n) :
    bs.map Block.name = rows.map (·.1) ∧
      List.Forall₂ (fun a row => a.1 = row.1 ∧ ∀ name, name ∈ a.2 ↔ name ∈ row.2)
        ((bs.filterMap (Block.named? Value.coerce?)).map fun e => (e.1, Aliases.properties e.2))
        rows := by
  induction h with
  | nil => exact ⟨rfl, .nil⟩
  | @cons row b rows bs hb _ ih =>
    obtain ⟨hnames, hrows⟩ := ih fun r hr => hlisted r (by simp [hr])
    obtain ⟨hname, n, hn, hmem⟩ := hb.node? (hlisted row (by simp))
    have hnamed : b.named? Value.coerce? = some (b.name, n) := by rw [Block.named?, hn]; rfl
    refine ⟨by rw [List.map_cons, List.map_cons, hname, hnames], ?_⟩
    rw [List.filterMap_cons, hnamed, List.map_cons]
    exact .cons ⟨hname, hmem⟩ hrows

theorem WritesTable.name_eq {rows : Aliases} {b : Block} (h : WritesTable rows b) :
    b.name = "aliases" := by
  cases h <;> rfl

theorem WritesTable.exists_entries {rows : Aliases} {b : Block} (h : WritesTable rows b)
    (hdistinct : (rows.map (·.1)).Nodup) (hname : ∀ row ∈ rows, row.1 ≠ "tokens")
    (hlisted : ∀ row ∈ rows, ∀ n ∈ row.2, ListedName n) :
    ∃ entries, b.node? Value.coerce? = some (.branch entries) ∧
      List.Forall₂ (fun a row => a.1 = row.1 ∧ ∀ name, name ∈ a.2 ↔ name ∈ row.2)
        (Aliases.ofSection entries) rows := by
  cases h with
  | @directly bs hbs =>
    -- No row is called `tokens`, so the section itself is the table.
    obtain ⟨hnames, hrows⟩ := forall₂_ofBlocks hbs hlisted
    refine ⟨_, Block.node?_nest _ rfl _ _, ?_⟩
    have hnone : Tree.branch? (treeOfBlocks Value.coerce? bs) "tokens" = none := by
      have hout : ∀ b ∈ bs, b.name ≠ "tokens" := by
        intro b hb
        have hb' : b.name ∈ rows.map (·.1) := hnames ▸ List.mem_map_of_mem hb
        obtain ⟨row, hrow, he⟩ := List.mem_map.mp hb'
        exact he ▸ hname row hrow
      rw [Tree.branch?, treeOfBlocks, get?_foldl_put_blocks_of_ne _ hout]
      rfl
    rw [Aliases.ofSection, hnone, Option.getD_none, treeOfBlocks_eq _ (hnames ▸ hdistinct)]
    exact hrows
  | @inTokens bs before after hbs hother =>
    obtain ⟨hnames, hrows⟩ := forall₂_ofBlocks hbs hlisted
    refine ⟨_, Block.node?_nest _ rfl _ _, ?_⟩
    have hsome : Tree.branch? (treeOfBlocks Value.coerce?
        (before ++ .nest "tokens" bs :: after)) "tokens" =
        some (treeOfBlocks Value.coerce? bs) := by
      have hget : Tree.get? (treeOfBlocks Value.coerce?
          (before ++ .nest "tokens" bs :: after)) "tokens" =
          (Block.nest "tokens" bs).node? Value.coerce? :=
        get?_treeOfBlocks_of_last _ fun c hc => hother c (List.mem_append_right _ hc)
      rw [Tree.branch?, hget, Block.node?_nest _ rfl]
      rfl
    rw [Aliases.ofSection, hsome, Option.getD_some, treeOfBlocks_eq _ (hnames ▸ hdistinct)]
    exact hrows

/-- However a table is written, and whatever stands before it, a property belongs to the first
category that lists what follows the last `=` of the property, and else to that itself. -/
theorem alias_layouts_agree {rows : Aliases} (hdistinct : (rows.map (·.1)).Nodup)
    (hname : ∀ row ∈ rows, row.1 ≠ "tokens")
    (hlisted : ∀ row ∈ rows, ∀ n ∈ row.2, ListedName n) {table : Block}
    (hw : WritesTable rows table) {source : String} {before : List Line} {after : List Block}
    (hs : documentLines source = before ++ table.lines ++ after.flatMap Block.lines)
    (ha : ∀ b ∈ after, b.name ≠ "aliases") (start : Widths) (property : String) :
    ∃ bare, '=' ∉ bare.toList ∧
      (property = bare ∨ ∃ modifiers, property = modifiers ++ "=" ++ bare) ∧
      (Design.ofTree start (parse source)).aliases.resolve property =
        ((rows.find? (bare ∈ ·.2)).map (·.1)).getD bare := by
  obtain ⟨entries, hnode, hrows⟩ := hw.exists_entries hdistinct hname hlisted
  have hget := get?_parseWith_of_last Value.coerce? hs fun b hb => hw.name_eq ▸ ha b hb
  rw [hnode, hw.name_eq] at hget
  have hsection : Design.sectionOf (parse source) "aliases" = entries := by
    rw [Design.sectionOf, Tree.branch?, parse, hget]
    rfl
  obtain ⟨hbare, hproperty⟩ := bareProperty_spec property
  refine ⟨bareProperty property, hbare, hproperty, ?_⟩
  rw [← Aliases.resolve_eq, Design.ofTree, hsection]
  exact Aliases.resolve_congr (hrows.imp fun _ _ h => ⟨h.1, h.2 _⟩)

/-- A table in the `tokens` entry, with rows of both kinds, after another entry. -/
theorem alias_layouts_agree_mixed :
    let rows : Aliases := [("color", ["fill", "stroke"]), ("size", ["width", "2"]), ("gap", [])]
    let source := "aliases\n\tproperty fill\n\ttokens\n\t\tcolor fill,stroke\n" ++
      "\t\tsize\n\t\t\twidth\n\t\t\t2\n\t\tgap\nelements\n\tcard\n"
    ((rows.map (·.1)).Nodup ∧ (∀ row ∈ rows, row.1 ≠ "tokens") ∧
      (∀ row ∈ rows, ∀ n ∈ row.2, ListedName n)) ∧
      (Design.ofTree .standard (parse source)).aliases.resolve "roles=2" = "size" := by
  intro rows source
  have hdistinct : (rows.map (·.1)).Nodup := by decide
  have hname : ∀ row ∈ rows, row.1 ≠ "tokens" := by decide
  have hlisted : ∀ row ∈ rows, ∀ n ∈ row.2, ListedName n := by decide +kernel
  let table : Block := .nest "aliases" ([.single "property" "fill"] ++
    .nest "tokens" [.single "color" "fill,stroke",
      .nest "size" [.single "width" "", .single "2" ""], .single "gap" ""] :: [])
  have hw : WritesTable rows table :=
    .inTokens (.cons (.onOneLine "color" ["fill", "stroke"])
      (.cons (.lineByLine "size" ["width", "2"]) (.cons (.onOneLine "gap" []) .nil))) (by decide)
  have hs : documentLines source = [] ++ table.lines ++
      [Block.nest "elements" [.single "card" ""]].flatMap Block.lines := by
    decide +kernel
  obtain ⟨bare, hbare, hproperty, hresolve⟩ := alias_layouts_agree hdistinct hname hlisted hw hs
    (by decide) .standard "roles=2"
  have htwo : bareProperty "roles=2" = "2" := by decide +kernel
  obtain rfl : bare = "2" := (bareProperty_eq hbare hproperty).symm.trans htwo
  exact ⟨⟨hdistinct, hname, hlisted⟩, hresolve⟩

end DesignSystem
