import DesignSystem.Proofs.BuildOutcome
import DesignSystem.Proofs.JsonParts
import Mathlib.Data.Option.Basic

/-! What the JSON of a tree or of a resolved system says. Finite numbers are all it needs to tell
everything apart. -/

namespace DesignSystem

section Values

namespace Value

theorem exists_of_json_number {v : Value} {cs : List Char} (h : v.json = .number cs) :
    ∃ n, v = .number n ∧ n.json? = some cs := by
  cases v with
  | number n =>
    rw [json_number] at h
    cases hn : n.json? with
    | none => simp [hn] at h
    | some ds => exact ⟨n, rfl, by simpa [hn] using h⟩
  | _ => simp [json] at h

theorem eq_bool_of_json {v : Value} {b : Bool} (h : v.json = .bool b) : v = .bool b := by
  cases v with
  | number n => obtain hn | ⟨cs, hn⟩ := json_number_eq n <;> simp [hn] at h
  | _ => simp_all [json]

theorem eq_text_of_json {v : Value} {s : String} (h : v.json = .text s) : v = .text s := by
  cases v with
  | number n => obtain hn | ⟨cs, hn⟩ := json_number_eq n <;> simp [hn] at h
  | _ => simp_all [json]

theorem exists_of_json_list {v : Value} {js : List Json} (h : v.json = .list js) :
    ∃ items, v = .list items ∧ jsonItems items = js := by
  cases v with
  | number n => obtain hn | ⟨cs, hn⟩ := json_number_eq n <;> simp [hn] at h
  | list items => exact ⟨items, rfl, by simpa [json] using h⟩
  | _ => simp [json] at h

theorem json_ne_object (v : Value) (fields : List (String × Json)) : v.json ≠ .object fields := by
  intro h
  cases v with
  | number n => obtain hn | ⟨cs, hn⟩ := json_number_eq n <;> simp [hn] at h
  | _ => simp [json] at h

mutual

theorem same_of_json : (v w : Value) → v.IsFinite → v.json = w.json → v.same w = true
  | .number m, w, hv, h => by
    have hm : m.isFinite = true := hv m (by simp [numbers])
    obtain ⟨cs, hcs⟩ := exists_json?_of_isFinite hm
    rw [json_number, hcs] at h
    obtain ⟨n, rfl, hn⟩ := exists_of_json_number h.symm
    exact Binary64.same_of_json? hm (hcs.trans hn.symm)
  | .bool a, w, hv, h => by
    rw [eq_bool_of_json h.symm]
    exact beq_self_eq_true a
  | .text s, w, hv, h => by
    rw [eq_text_of_json h.symm]
    exact beq_self_eq_true s
  | .list items, w, hv, h => by
    obtain ⟨others, rfl, hitems⟩ := exists_of_json_list h.symm
    exact sameItems_of_json items others (by simpa [IsFinite, numbers] using hv) hitems.symm

theorem sameItems_of_json : (vs ws : List Value) → (∀ n ∈ itemNumbers vs, n.isFinite = true) →
    jsonItems vs = jsonItems ws → sameItems vs ws = true
  | [], [], _, _ => rfl
  | [], w :: ws, _, h => by simp [jsonItems] at h
  | v :: vs, [], _, h => by simp [jsonItems] at h
  | v :: vs, w :: ws, hv, h => by
    rw [jsonItems, jsonItems, List.cons.injEq] at h
    have hfirst : v.IsFinite := fun n hn => hv n (List.mem_append_left _ hn)
    have hrest : ∀ n ∈ itemNumbers vs, n.isFinite = true :=
      fun n hn => hv n (List.mem_append_right _ hn)
    rw [sameItems, same_of_json v w hfirst h.1, sameItems_of_json vs ws hrest h.2]
    rfl

end

end Value

end Values

section Trees

mutual

theorem Tree.sameNode_of_json : (m n : Node) → (∀ v ∈ m.leaves, v.IsFinite) →
    nodeJson m = nodeJson n → sameNode m n = true
  | .leaf v, .leaf w, hv, h => by
    rw [nodeJson, nodeJson] at h
    exact Value.same_of_json v w (hv v (by simp [Node.leaves])) h
  | .leaf v, .branch t, _, h => by
    rw [nodeJson, nodeJson] at h
    exact absurd h (v.json_ne_object _)
  | .branch s, .leaf w, _, h => by
    rw [nodeJson, nodeJson] at h
    exact absurd h.symm (w.json_ne_object _)
  | .branch s, .branch t, hv, h => by
    rw [nodeJson, nodeJson, Json.object.injEq] at h
    exact Tree.same_of_jsonFields s t hv h

theorem Tree.same_of_jsonFields : (s t : List (String × Node)) →
    (∀ v ∈ Tree.leaves s, v.IsFinite) → jsonFields s = jsonFields t → same s t = true
  | [], [], _, _ => rfl
  | [], e :: t, _, h => by simp [jsonFields] at h
  | e :: s, [], _, h => by simp [jsonFields] at h
  | (j, m) :: s, (k, n) :: t, hv, h => by
    rw [jsonFields, jsonFields, List.cons.injEq, Prod.mk.injEq] at h
    obtain ⟨⟨rfl, hnode⟩, hrest⟩ := h
    have hfirst := Tree.sameNode_of_json m n (fun v hm => hv v (List.mem_append_left _ hm)) hnode
    have hothers := Tree.same_of_jsonFields s t
      (fun v hm => hv v (List.mem_append_right _ hm)) hrest
    simp [same, hfirst, hothers]

end

end Trees

section Outputs

/-! Equality of results, with numbers compared by value. -/

structure TokenEntry.Same (s t : TokenEntry) : Prop where
  category : s.category = t.category
  name : s.name = t.name
  value : s.value.same t.value = true

structure TokenRecord.Same (s t : TokenRecord) : Prop where
  entry : s.toTokenEntry.Same t.toTokenEntry
  width : s.width = t.width

structure TierEntry.Same (v w : TierEntry) : Prop where
  width : v.width = w.width
  value : v.value.same w.value = true
  token : Option.Rel TokenEntry.Same v.token? w.token?

structure PropertyEntry.Same (p q : PropertyEntry) : Prop where
  name : p.name = q.name
  values : List.Forall₂ TierEntry.Same p.values q.values

structure BatchedEntry.Same (p q : BatchedEntry) : Prop where
  name : p.name = q.name
  value : p.value.same q.value = true
  token : Option.Rel TokenEntry.Same p.token? q.token?

structure Group.Same {α : Type} (same : α → α → Prop) (g h : Group α) : Prop where
  selector : g.selector = h.selector
  properties : List.Forall₂ same g.properties h.properties

structure Batch.Same {α : Type} (same : α → α → Prop) (b c : Batch α) : Prop where
  width : b.width = c.width
  entries : List.Forall₂ same b.entries c.entries

structure ElementEntry.Same (e f : ElementEntry) : Prop where
  name : e.name = f.name
  groups : List.Forall₂ (Group.Same PropertyEntry.Same) e.groups f.groups
  batches : List.Forall₂ (Batch.Same (Group.Same BatchedEntry.Same)) e.batches f.batches

structure Output.Same (o p : Output) : Prop where
  tokens : List.Forall₂ TokenRecord.Same o.tokens p.tokens
  batches : List.Forall₂ (Batch.Same TokenEntry.Same) o.batches p.batches
  elements : List.Forall₂ ElementEntry.Same o.elements p.elements

/-- What has finite numbers is told apart by its JSON. -/
def Faithful {α : Type} (json : α → Json) (valuesOf : α → List Value)
    (same : α → α → Prop) : Prop :=
  ∀ a b, (∀ v ∈ valuesOf a, v.IsFinite) → json a = json b → same a b

variable {α : Type} {json : α → Json} {valuesOf : α → List Value} {same : α → α → Prop}

theorem Faithful.forall₂ (h : Faithful json valuesOf same) {xs ys : List α}
    (hv : ∀ v ∈ xs.flatMap valuesOf, v.IsFinite) (hj : xs.map json = ys.map json) :
    List.Forall₂ same xs ys := by
  induction xs generalizing ys with
  | nil =>
    obtain rfl := List.map_eq_nil_iff.mp hj.symm
    exact .nil
  | cons x xs ih =>
    cases ys with
    | nil => cases hj
    | cons y ys =>
      obtain ⟨hxy, hrest⟩ := List.cons.inj hj
      rw [List.flatMap_cons] at hv
      have hx := h x y (fun v hm => hv v (List.mem_append_left _ hm)) hxy
      exact .cons hx (ih (fun v hm => hv v (List.mem_append_right _ hm)) hrest)

theorem Json.ofNat_inj {m n : Nat} (h : Json.ofNat m = Json.ofNat n) : m = n := by
  rw [ofNat, ofNat, number.injEq] at h
  exact toDigits_inj h

theorem Faithful.group (h : Faithful json valuesOf same) :
    Faithful (Group.json json) (Group.valuesOf valuesOf) (Group.Same same) := by
  intro g k hv hj
  simp only [Group.json, Json.object.injEq, List.cons.injEq, Prod.mk.injEq, Json.text.injEq,
    Json.list.injEq, true_and, and_true] at hj
  obtain ⟨hmodifiers, hstates, hproperties⟩ := hj
  refine ⟨?_, h.forall₂ hv hproperties⟩
  cases hg : g.selector
  cases hk : k.selector
  simp_all

theorem Faithful.batch (h : Faithful json valuesOf same) (name : String) :
    Faithful (Batch.json json name) (Batch.valuesOf valuesOf) (Batch.Same same) := by
  intro b c hv hj
  simp only [Batch.json, Json.object.injEq, List.cons.injEq, Prod.mk.injEq, Json.list.injEq,
    true_and, and_true] at hj
  exact ⟨Json.ofNat_inj hj.1, h.forall₂ hv hj.2⟩

theorem faithful_tokenEntry :
    Faithful TokenEntry.json (fun t => [t.value]) TokenEntry.Same := by
  intro s t hv hj
  obtain ⟨⟨c, hc⟩, ⟨n, hn⟩, v⟩ := s
  obtain ⟨⟨c', hc'⟩, ⟨n', hn'⟩, v'⟩ := t
  simp only [TokenEntry.json, TokenEntry.namesJson, List.cons_append, List.nil_append,
    Json.object.injEq, List.cons.injEq, Prod.mk.injEq, Json.text.injEq, true_and, and_true] at hj
  obtain ⟨rfl, rfl, rfl, rfl, hvalue⟩ := hj
  exact ⟨rfl, rfl, Value.same_of_json v v' (hv v (by simp)) hvalue⟩

theorem faithful_tokenRecord :
    Faithful TokenRecord.json (fun t => [t.value]) TokenRecord.Same := by
  intro s t hv hj
  obtain ⟨⟨⟨c, hc⟩, ⟨n, hn⟩, v⟩, w⟩ := s
  obtain ⟨⟨⟨c', hc'⟩, ⟨n', hn'⟩, v'⟩, w'⟩ := t
  simp only [TokenRecord.json, TokenEntry.namesJson, List.cons_append, List.nil_append,
    Json.object.injEq, List.cons.injEq, Prod.mk.injEq, Json.text.injEq, true_and, and_true] at hj
  obtain ⟨rfl, rfl, rfl, rfl, hwidth, hvalue⟩ := hj
  exact ⟨⟨rfl, rfl, Value.same_of_json v v' (hv v (by simp)) hvalue⟩, Json.ofNat_inj hwidth⟩

theorem same_of_tokenJson {s t : Option TokenEntry}
    (hv : ∀ v ∈ s.toList.map (·.value), v.IsFinite) (hj : tokenJson s = tokenJson t) :
    Option.Rel TokenEntry.Same s t := by
  cases s with
  | none =>
    cases t with
    | none => exact .none
    | some t => cases hj
  | some s =>
    cases t with
    | none => cases hj
    | some t =>
      simp only [tokenJson, Option.map_some, Option.toList_some, List.cons.injEq, Prod.mk.injEq,
        true_and, and_true] at hj
      exact .some (faithful_tokenEntry s t hv hj)

theorem faithful_tierEntry : Faithful TierEntry.json TierEntry.valuesOf TierEntry.Same := by
  intro v w hv hj
  simp only [TierEntry.json, List.cons_append, List.nil_append, Json.object.injEq,
    List.cons.injEq, Prod.mk.injEq, true_and] at hj
  obtain ⟨hwidth, hvalue, htoken⟩ := hj
  have hrest : ∀ x ∈ v.token?.toList.map (·.value), x.IsFinite :=
    fun x hx => hv x (List.mem_cons_of_mem _ hx)
  exact ⟨Json.ofNat_inj hwidth, Value.same_of_json _ _ (hv _ List.mem_cons_self) hvalue,
    same_of_tokenJson hrest htoken⟩

theorem faithful_propertyEntry :
    Faithful PropertyEntry.json PropertyEntry.valuesOf PropertyEntry.Same := by
  intro p q hv hj
  obtain ⟨⟨n, hn⟩, values⟩ := p
  obtain ⟨⟨n', hn'⟩, values'⟩ := q
  simp only [PropertyEntry.json, Json.object.injEq, List.cons.injEq, Prod.mk.injEq,
    Json.text.injEq, Json.list.injEq, true_and, and_true] at hj
  obtain ⟨rfl, rfl, hvalues⟩ := hj
  exact ⟨rfl, faithful_tierEntry.forall₂ hv hvalues⟩

theorem faithful_batchedEntry :
    Faithful BatchedEntry.json BatchedEntry.valuesOf BatchedEntry.Same := by
  intro p q hv hj
  obtain ⟨⟨n, hn⟩, v, token⟩ := p
  obtain ⟨⟨n', hn'⟩, v', token'⟩ := q
  simp only [BatchedEntry.json, List.cons_append, List.nil_append, Json.object.injEq,
    List.cons.injEq, Prod.mk.injEq, Json.text.injEq, true_and] at hj
  obtain ⟨rfl, rfl, hvalue, htoken⟩ := hj
  have hrest : ∀ x ∈ token.toList.map (·.value), x.IsFinite :=
    fun x hx => hv x (List.mem_cons_of_mem _ hx)
  exact ⟨rfl, Value.same_of_json v v' (hv v List.mem_cons_self) hvalue,
    same_of_tokenJson hrest htoken⟩

theorem faithful_elementEntry :
    Faithful ElementEntry.json ElementEntry.valuesOf ElementEntry.Same := by
  intro e f hv hj
  obtain ⟨⟨n, hn⟩, groups, batches⟩ := e
  obtain ⟨⟨n', hn'⟩, groups', batches'⟩ := f
  simp only [ElementEntry.json, Json.object.injEq, List.cons.injEq, Prod.mk.injEq,
    Json.text.injEq, Json.list.injEq, true_and, and_true] at hj
  obtain ⟨rfl, rfl, hgroups, hbatches⟩ := hj
  have hgroup := faithful_propertyEntry.group
  have hbatch := faithful_batchedEntry.group.batch "groups"
  exact ⟨rfl, hgroup.forall₂ (fun v hm => hv v (List.mem_append_left _ hm)) hgroups,
    hbatch.forall₂ (fun v hm => hv v (List.mem_append_right _ hm)) hbatches⟩

theorem faithful_output : Faithful Output.json Output.valuesOf Output.Same := by
  intro o p hv hj
  simp only [Output.json, Json.object.injEq, List.cons.injEq, Prod.mk.injEq, Json.list.injEq,
    true_and, and_true] at hj
  obtain ⟨htokens, hbatches, helements⟩ := hj
  simp only [Output.valuesOf, List.mem_append, or_imp, forall_and] at hv
  obtain ⟨⟨hv₁, hv₂⟩, hv₃⟩ := hv
  have hbatch := faithful_tokenEntry.batch "entries"
  exact ⟨faithful_tokenRecord.forall₂ (by simpa [List.map_eq_flatMap] using hv₁) htokens,
    hbatch.forall₂ hv₂ hbatches, faithful_elementEntry.forall₂ hv₃ helements⟩

end Outputs

section Lines

theorem splitOn_lines {lines : List (List Char)} (h : ∀ line ∈ lines, '\n' ∉ line) :
    (lines.flatMap (· ++ ['\n'])).splitOn '\n' = lines ++ [[]] := by
  induction lines with
  | nil => rfl
  | cons line lines ih =>
    have hline : line.splitOn '\n' = [line] := List.splitOn_eq_singleton (h line (by simp))
    have hrest := ih fun other ho => h other (by simp [ho])
    rw [List.flatMap_cons, List.append_assoc, List.singleton_append,
      List.splitOn_append_cons_self, hline, hrest]
    rfl

theorem Output.not_mem_json (o : Output) : '\n' ∉ (o.json.render false).toList := by
  intro h
  exact absurd (Json.printable_render o.wellFormed_json _ h) (by decide)

theorem toList_join_lines (texts : List String) :
    (String.join (texts.map (· ++ "\n"))).toList =
      (texts.map String.toList).flatMap (· ++ ['\n']) := by
  induction texts with
  | nil => rfl
  | cons text texts ih =>
    rw [List.map_cons, List.map_cons, String.join_cons, String.toList_append, ih,
      List.flatMap_cons, String.toList_append]
    rfl

/-- The designs that are printed without layout stand one on a line. -/
theorem splitOn_printed (designs : List LoadedDesign) :
    (Machine.printed false designs).toList.splitOn '\n' =
      designs.map (fun d => (d.design.resolve.output.json.render false).toList) ++ [[]] := by
  let line (d : LoadedDesign) := d.design.resolve.output.json.render false
  have hlines : ∀ cs ∈ designs.map (fun d => (line d).toList), '\n' ∉ cs := by
    intro cs hl
    obtain ⟨d, -, rfl⟩ := List.mem_map.mp hl
    exact d.design.resolve.output.not_mem_json
  have htext := toList_join_lines (designs.map line)
  rw [List.map_map, List.map_map] at htext
  rw [← splitOn_lines hlines]
  exact congrArg (List.splitOn '\n') htext

end Lines

/-- Trees and results with finite numbers are told apart by their JSON, in each of the two
layouts. What comes of a document has no null in its JSON. Compact JSON has no control
characters, so a build that prints it puts each system on a line of its own. -/
theorem json_is_faithful :
    (∀ (s t : Tree) isPretty, (∀ v ∈ Tree.leaves s, v.IsFinite) →
      s.json.render isPretty = t.json.render isPretty → Tree.same s t = true) ∧
    (∀ (o p : Output) isPretty, (∀ v ∈ o.valuesOf, v.IsFinite) →
      o.json.render isPretty = p.json.render isPretty → o.Same p) ∧
    (∀ source start, (Tree.json (parse source)).NullFree ∧
      (Design.ofTree start (parse source)).resolve.json.NullFree) ∧
    (∀ t : Tree, ∀ c ∈ (t.json.render false).toList, ' ' ≤ c) ∧
    (∀ o : Output, ∀ c ∈ (o.json.render false).toList, ' ' ≤ c) ∧
    ∀ {ρ : Type} [Disk ρ] [ManifestReader] (w v : Machine ρ) (options : BuildOptions),
      options.toStdout = true → w.built options = (.ok (), v) → ∃ project designs printed,
        w.discovered options = .ok project ∧
        List.Forall₂ (w.Loads project) project.documents designs ∧
        v.stdout = w.stdout ++ printed ∧
        (options.isPretty project = false → printed.toList.splitOn '\n' =
          designs.map (fun d => (d.design.resolve.output.json.render false).toList) ++ [[]]) := by
  refine ⟨fun s t isPretty hs h => ?_, fun o p isPretty ho h => ?_, fun source start => ⟨?_, ?_⟩,
    fun t c hc => ?_, fun o c hc => ?_, fun {_ _ _} w v options hto h => ?_⟩
  · have hjson : s.json = t.json := Json.render_inj s.wellFormed_json t.wellFormed_json h
    exact Tree.same_of_jsonFields s t hs (Json.object.inj hjson)
  · exact faithful_output o p ho (Json.render_inj o.wellFormed_json p.wellFormed_json h)
  · exact Tree.nullFree_json fun v hv => isFinite_of_mem_leaves_parse hv
  · exact Output.nullFree_json fun v hv =>
      isFinite_of_mem_leaves_parse (mem_leaves_of_mem_output hv)
  · exact Json.printable_render t.wellFormed_json c hc
  · exact Json.printable_render o.wellFormed_json c hc
  · obtain ⟨project, designs, hp, hl, hout⟩ := Machine.stdout_of_built hto h
    refine ⟨project, designs, _, hp, hl, hout, fun hpretty => ?_⟩
    rw [hpretty]
    exact splitOn_printed designs

/-- The two zeros have one text, in a tree and in a result. Two systems are printed as two
lines. -/
theorem json_is_faithful_zeros :
    let zero (negative : Bool) : Value := .number (.finite negative .zero)
    let tree (negative : Bool) : Tree := [("gap", .leaf (zero negative))]
    let output (negative : Bool) : Output :=
      ⟨[⟨⟨⟨"gap", "gap"⟩, ⟨"sM", "s-m"⟩, zero negative⟩, 0⟩], [], []⟩
    let w : World :=
      ⟨.folder [("a.ssf", .file (.text "")), ("b.ssf", .file (.text "x 1"))], [], "", ""⟩
    let options : BuildOptions := ⟨[], none, true, false⟩
    ((tree false).json.render true = (tree true).json.render true ∧
        Tree.same (tree false) (tree true) = true) ∧
      ((output false).json.render false = (output true).json.render false ∧
        (output false).Same (output true)) ∧
      (w.built options).1 = .ok () ∧ ∃ first second : LoadedDesign,
        (w.built options).2.stdout.toList.splitOn '\n' =
          [(first.design.resolve.output.json.render false).toList,
            (second.design.resolve.output.json.render false).toList, []] := by
  intro zero tree output w options
  obtain ⟨htrees, houtputs, -, -, -, hlines⟩ := json_is_faithful
  have hzero : (zero false).IsFinite := by
    simp [zero, Value.IsFinite, Value.numbers, Binary64.isFinite]
  have hst : (tree false).json.render true = (tree true).json.render true := by decide +kernel
  have hop : (output false).json.render false = (output true).json.render false := by
    decide +kernel
  have hs : ∀ v ∈ Tree.leaves (tree false), v.IsFinite := by
    simpa [tree, Tree.leaves, Node.leaves] using hzero
  have ho : ∀ v ∈ (output false).valuesOf, v.IsFinite := by
    simpa [output, Output.valuesOf] using hzero
  have hok : (w.built options).1 = .ok () := by decide +kernel
  have hto : options.toStdout = true := rfl
  have hbuilt : w.built options = (.ok (), (w.built options).2) := Prod.ext hok rfl
  obtain ⟨project, designs, printed, hp, hl, hout, hsplit⟩ := hlines w _ options hto hbuilt
  have hproject : w.discovered options =
      .ok ⟨⟨"."⟩, .standard, false, [⟨"././a.ssf"⟩, ⟨"././b.ssf"⟩]⟩ := by rfl
  obtain rfl := Except.ok.inj (hp.symm.trans hproject)
  obtain ⟨first, rest, -, hrest, rfl⟩ := List.forall₂_cons_left_iff.mp hl
  obtain ⟨second, others, -, hothers, rfl⟩ := List.forall₂_cons_left_iff.mp hrest
  obtain rfl := List.forall₂_nil_left_iff.mp hothers
  have hprinted : w.stdout ++ printed = printed := String.empty_append
  have hlast := hsplit (by rfl)
  rw [hprinted] at hout
  rw [← hout] at hlast
  exact ⟨⟨hst, htrees _ _ true hs hst⟩, ⟨hop, houtputs _ _ false ho hop⟩, hok, first, second,
    hlast⟩

end DesignSystem
