import DesignSystem.Proofs.JsonNumber
import DesignSystem.Proofs.OutputValues

/-! What the JSON of a tree or of a resolved system is made of. Its numbers are numerals, and it
has a null only where a number is not finite. -/

namespace DesignSystem

namespace Value

theorem json_number (n : Binary64) : (number n).json = n.json?.elim .null .number := by
  rw [json]

theorem json_number_eq (n : Binary64) :
    (number n).json = .null ∨ ∃ cs, (number n).json = .number cs := by
  rw [json_number]
  cases n.json? with
  | none => exact Or.inl rfl
  | some cs => exact Or.inr ⟨cs, rfl⟩

theorem exists_json?_of_isFinite {n : Binary64} (h : n.isFinite = true) :
    ∃ cs, n.json? = some cs := by
  cases n with
  | nan => cases h
  | infinite negative => cases h
  | finite negative m =>
    obtain ⟨cs, -, hcs, -⟩ := Binary64.exists_json?_finite negative m
    exact ⟨cs, hcs⟩

end Value

/-- A property of all data but for numbers and nothing. -/
structure Json.Admits (P : Json → Prop) : Prop where
  bool : ∀ b, P (.bool b)
  text : ∀ s, P (.text s)
  list : ∀ items, P (.list items)
  object : ∀ fields, P (.object fields)
  count : ∀ n, P (.ofNat n)

variable {P : Json → Prop}

theorem Json.each_list {α : Type} (hP : Admits P) {json : α → Json} {xs : List α}
    (h : ∀ x ∈ xs, (json x).Each P) : (Json.list (xs.map json)).Each P :=
  ⟨hP.list _, eachItem_iff.mpr (by simpa using h)⟩

mutual

theorem Value.each_json (hP : Json.Admits P) : (v : Value) →
    (∀ n ∈ v.numbers, P (number n).json) → v.json.Each P
  | .number n, h => by
    have hn := h n (by simp [numbers])
    obtain hj | ⟨cs, hj⟩ := json_number_eq n
    · rw [hj] at hn ⊢
      exact hn
    · rw [hj] at hn ⊢
      exact hn
  | .bool b, _ => by
    rw [json]
    exact hP.bool b
  | .text s, _ => by
    rw [json]
    exact hP.text s
  | .list items, h => by
    rw [json]
    exact ⟨hP.list _, Value.each_jsonItems hP items h⟩

theorem Value.each_jsonItems (hP : Json.Admits P) : (vs : List Value) →
    (∀ n ∈ itemNumbers vs, P (number n).json) → Json.EachItem P (jsonItems vs)
  | [], _ => trivial
  | v :: vs, h => ⟨Value.each_json hP v fun n hn => h n (List.mem_append_left _ hn),
      Value.each_jsonItems hP vs fun n hn => h n (List.mem_append_right _ hn)⟩

end

mutual

theorem Tree.each_nodeJson (hP : Json.Admits P) : (n : Node) →
    (∀ v ∈ n.leaves, v.json.Each P) → (nodeJson n).Each P
  | .leaf v, h => by
    rw [nodeJson]
    exact h v (by simp [Node.leaves])
  | .branch t, h => by
    rw [nodeJson]
    exact ⟨hP.object _, Tree.each_jsonFields hP t h⟩

theorem Tree.each_jsonFields (hP : Json.Admits P) : (t : List (String × Node)) →
    (∀ v ∈ leaves t, v.json.Each P) → Json.EachField P (jsonFields t)
  | [], _ => trivial
  | (_, n) :: t, h => ⟨Tree.each_nodeJson hP n fun v hv => h v (List.mem_append_left _ hv),
      Tree.each_jsonFields hP t fun v hv => h v (List.mem_append_right _ hv)⟩

end

/-- All data in the JSON has a property if that holds for the values. -/
def Covered (P : Json → Prop) {α : Type} (json : α → Json) (valuesOf : α → List Value) : Prop :=
  ∀ a, (∀ v ∈ valuesOf a, v.json.Each P) → (json a).Each P

theorem covered_tree (hP : Json.Admits P) : Covered P Tree.json Tree.leaves :=
  fun t h => ⟨hP.object _, Tree.each_jsonFields hP t h⟩

section

variable {α : Type} {json : α → Json} {valuesOf : α → List Value}

theorem Covered.list (h : Covered P json valuesOf) (hP : Json.Admits P) {xs : List α}
    (hv : ∀ v ∈ xs.flatMap valuesOf, v.json.Each P) : (Json.list (xs.map json)).Each P :=
  Json.each_list hP fun x hx => h x fun v hm => hv v (List.mem_flatMap.mpr ⟨x, hx, hm⟩)

theorem Covered.group (h : Covered P json valuesOf) (hP : Json.Admits P) :
    Covered P (Group.json json) (Group.valuesOf valuesOf) := by
  intro g hv
  have hproperties := h.list hP hv
  exact ⟨hP.object _, hP.text _, hP.text _, hproperties, trivial⟩

theorem Covered.batch (h : Covered P json valuesOf) (hP : Json.Admits P) (name : String) :
    Covered P (Batch.json json name) (Batch.valuesOf valuesOf) := by
  intro b hv
  have hentries := h.list hP hv
  exact ⟨hP.object _, hP.count _, hentries, trivial⟩

end

theorem covered_tokenEntry (hP : Json.Admits P) :
    Covered P TokenEntry.json fun t => [t.value] := by
  intro t hv
  have hvalue := hv t.value (by simp)
  exact ⟨hP.object _, hP.text _, hP.text _, hP.text _, hP.text _, hvalue, trivial⟩

theorem covered_tokenRecord (hP : Json.Admits P) :
    Covered P TokenRecord.json fun t => [t.value] := by
  intro t hv
  have hvalue := hv t.value (by simp)
  exact ⟨hP.object _, hP.text _, hP.text _, hP.text _, hP.text _, hP.count _, hvalue, trivial⟩

theorem each_tokenJson (hP : Json.Admits P) {token? : Option TokenEntry}
    (hv : ∀ v ∈ token?.toList.map (·.value), v.json.Each P) :
    Json.EachField P (tokenJson token?) := by
  cases token? with
  | none => trivial
  | some t => exact ⟨covered_tokenEntry hP t hv, trivial⟩

theorem covered_tierEntry (hP : Json.Admits P) : Covered P TierEntry.json TierEntry.valuesOf := by
  intro v hv
  have hvalue := hv v.value List.mem_cons_self
  have htoken := each_tokenJson hP fun x hx => hv x (List.mem_cons_of_mem _ hx)
  exact ⟨hP.object _, hP.count _, hvalue, htoken⟩

theorem covered_propertyEntry (hP : Json.Admits P) :
    Covered P PropertyEntry.json PropertyEntry.valuesOf := by
  intro p hv
  have hvalues := (covered_tierEntry hP).list hP hv
  exact ⟨hP.object _, hP.text _, hP.text _, hvalues, trivial⟩

theorem covered_batchedEntry (hP : Json.Admits P) :
    Covered P BatchedEntry.json BatchedEntry.valuesOf := by
  intro p hv
  have hvalue := hv p.value List.mem_cons_self
  have htoken := each_tokenJson hP fun x hx => hv x (List.mem_cons_of_mem _ hx)
  exact ⟨hP.object _, hP.text _, hP.text _, hvalue, htoken⟩

theorem covered_elementEntry (hP : Json.Admits P) :
    Covered P ElementEntry.json ElementEntry.valuesOf := by
  intro e hv
  have hgroups := ((covered_propertyEntry hP).group hP).list hP
    fun v hm => hv v (List.mem_append_left _ hm)
  have hbatches := (((covered_batchedEntry hP).group hP).batch hP "groups").list hP
    fun v hm => hv v (List.mem_append_right _ hm)
  exact ⟨hP.object _, hP.text _, hP.text _, hgroups, hbatches, trivial⟩

theorem covered_output (hP : Json.Admits P) : Covered P Output.json Output.valuesOf := by
  intro o hv
  simp only [Output.valuesOf, List.mem_append, or_imp, forall_and] at hv
  obtain ⟨⟨hv₁, hv₂⟩, hv₃⟩ := hv
  have htokens := (covered_tokenRecord hP).list hP (by simpa [List.map_eq_flatMap] using hv₁)
  have hbatches := ((covered_tokenEntry hP).batch hP "entries").list hP hv₂
  have helements := (covered_elementEntry hP).list hP hv₃
  exact ⟨hP.object _, htokens, hbatches, helements, trivial⟩

def Json.NullFree (j : Json) : Prop :=
  j.Each (· ≠ .null)

theorem Json.admits_spelled : Admits IsSpelled :=
  ⟨fun _ => trivial, fun _ => trivial, fun _ => trivial, fun _ => trivial, isNumeral_toDigits⟩

theorem Json.admits_nonnull : Admits (· ≠ .null) := by
  constructor <;> intro _ h <;> cases h

theorem Value.wellFormed_json (v : Value) : v.json.WellFormed := by
  refine Value.each_json Json.admits_spelled v fun n _ => ?_
  rw [json_number]
  cases hn : n.json? with
  | none => trivial
  | some cs => exact Binary64.isNumeral_of_json? hn

theorem Value.nullFree_json {v : Value} (h : v.IsFinite) : v.json.NullFree := by
  refine Value.each_json Json.admits_nonnull v fun n hn => ?_
  obtain ⟨cs, hcs⟩ := exists_json?_of_isFinite (h n hn)
  rw [json_number, hcs]
  exact nofun

theorem Tree.wellFormed_json (t : Tree) : t.json.WellFormed :=
  covered_tree Json.admits_spelled t fun v _ => v.wellFormed_json

theorem Output.wellFormed_json (o : Output) : o.json.WellFormed :=
  covered_output Json.admits_spelled o fun v _ => v.wellFormed_json

theorem Tree.nullFree_json {t : Tree} (h : ∀ v ∈ leaves t, v.IsFinite) : t.json.NullFree :=
  covered_tree Json.admits_nonnull t fun v hv => Value.nullFree_json (h v hv)

theorem Output.nullFree_json {o : Output} (h : ∀ v ∈ o.valuesOf, v.IsFinite) :
    o.json.NullFree :=
  covered_output Json.admits_nonnull o fun v hv => Value.nullFree_json (h v hv)

end DesignSystem
