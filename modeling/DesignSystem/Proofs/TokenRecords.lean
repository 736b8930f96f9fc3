import DesignSystem.Proofs.Batching
import DesignSystem.Proofs.TierNames
import DesignSystem.Proofs.Ways
import DesignSystem.Stylesheet

/-! The token records of a system are the leaves of its `tokens` section that stand where a
token can have a value, in the order of the document. Their batches hold the same records
by width. -/

namespace DesignSystem

/-- The records of one entry of a category. A branch gives one for every leaf whose key
names a tier. -/
def Token.ofEntry (widths : Widths) (category name : String) : Node → Tokens
  | .leaf v => [⟨⟨category, name, v⟩, 0⟩]
  | .branch values =>
    values.filterMap fun e =>
      match widths.ofName? e.1, e.2 with
      | some width, .leaf v => some ⟨⟨category, name, v⟩, width⟩
      | _, _ => none

/-- The record that a way down the `tokens` section ends at. Its leaf is a token of a
category, which holds at the base, or the value of a token for a tier. -/
def Token.ofWay? (widths : Widths) : Way → Option Token
  | [(category, _), (name, .leaf v)] => some ⟨⟨category, name, v⟩, 0⟩
  | [(category, _), (name, _), (key, .leaf v)] =>
    (Tier.named? key).map fun tier => ⟨⟨category, name, v⟩, widths.width tier⟩
  | _ => none

section OnePass

namespace TokenSet

theorem foldl_addTier (widths : Widths) (category name : String) (set : TokenSet) (values : Tree) :
    values.foldl (addTier widths category name) set =
      (Token.ofEntry widths category name (.branch values)).foldl add set := by
  rw [Token.ofEntry, List.foldl_filterMap]
  congr 1
  funext set e
  rw [addTier]
  split <;> simp_all

theorem addEntry_eq_foldl (widths : Widths) (category : String) (set : TokenSet)
    (e : String × Node) :
    set.addEntry widths category e = (Token.ofEntry widths category e.1 e.2).foldl add set := by
  obtain ⟨name, n⟩ := e
  cases n with
  | leaf v => rfl
  | branch values => exact foldl_addTier widths category name set values

theorem grouped_foldl_add (tokens : Tokens) (set : TokenSet) :
    (tokens.foldl add set).grouped = set.grouped ++ tokens := by
  induction tokens generalizing set with
  | nil => simp
  | cons t tokens ih => rw [List.foldl_cons, ih, add, List.append_assoc, List.singleton_append]

theorem batched_foldl_add (tokens : Tokens) (set : TokenSet) :
    (tokens.foldl add set).batched =
      tokens.foldl (fun batches t => Batch.touch (· ++ [t.toTokenValue]) t.width batches)
        set.batched := by
  induction tokens generalizing set with
  | nil => rfl
  | cons t tokens ih => exact ih (set.add t)

end TokenSet

/-- One pass through the categories adds the records of their entries one by one. -/
theorem tokenSet_eq_foldl (s : Design) :
    s.tokenSet = ((s.categories.flatMap fun c => c.2.flatMap fun e =>
      Token.ofEntry s.widths c.1 e.1 e.2).foldl TokenSet.add .start).finish := by
  simp only [Design.tokenSet, List.foldl_flatMap, ← TokenSet.addEntry_eq_foldl]
  rfl

theorem tokenRecords_eq_categories (s : Design) :
    s.tokenRecords = s.categories.flatMap fun c => c.2.flatMap fun e =>
      Token.ofEntry s.widths c.1 e.1 e.2 := by
  rw [Design.tokenRecords, tokenSet_eq_foldl]
  exact TokenSet.grouped_foldl_add _ _

theorem batched_tokenSet (s : Design) : s.tokenSet.batched = s.tokenRecords.batches := by
  rw [tokenSet_eq_foldl, tokenRecords_eq_categories, Tokens.batches]

namespace Tokens

theorem batches_eq_alterAll (tokens : Tokens) :
    tokens.batches = Batch.alterAll (fun t es => es ++ [t.toTokenValue]) (·.width) tokens := by
  rw [← Batch.sort_foldl_touch]
  exact congrArg Batch.sort (TokenSet.batched_foldl_add tokens .start)

theorem ordered_batches (tokens : Tokens) : Batch.Ordered tokens.batches := by
  rw [batches_eq_alterAll]
  exact Batch.ordered_alterAll _ _ (by simp) tokens

theorem entriesAt_batches (tokens : Tokens) (width : Nat) :
    Batch.entriesAt tokens.batches width =
      (tokens.filter (·.width = width)).map Token.toTokenValue := by
  rw [batches_eq_alterAll, Batch.entriesAt_alterAll, List.foldl_append_eq_append, List.nil_append,
    ← List.flatMap_def, ← List.map_eq_flatMap]

end Tokens

end OnePass

namespace Token

theorem filterMap_ofWay?_below (widths : Widths) (e₁ e₂ e₃ : String × Node) :
    (waysBelow e₃.2).filterMap (fun w => ofWay? widths (e₁ :: e₂ :: e₃ :: w)) = [] := by
  -- Such a way has four entries or more, and no record lies that deep.
  refine List.filterMap_eq_nil_iff.mpr fun w hw => ?_
  obtain ⟨e, w, rfl⟩ := List.exists_cons_of_ne_nil (ne_nil_of_mem_waysBelow hw)
  simp [ofWay?]

theorem filterMap_ofWay?_tiers (widths : Widths) (category name : String) (m n : Node)
    (values : Tree) :
    (ways values).filterMap (fun w => ofWay? widths ((category, m) :: (name, n) :: w)) =
      ofEntry widths category name (.branch values) := by
  rw [filterMap_ways, ofEntry, List.filterMap_eq_flatMap_toList]
  refine congrArg (values.flatMap ·) (funext fun e => ?_)
  rw [filterMap_ofWay?_below, List.append_nil]
  obtain ⟨key, o⟩ := e
  cases o with
  | branch t =>
    cases h : Tier.named? key <;> simp [ofWay?, Widths.ofName?, Tier.ofName?_eq_named?, h]
  | leaf v =>
    cases h : Tier.named? key <;> simp [ofWay?, Widths.ofName?, Tier.ofName?_eq_named?, h]

theorem filterMap_ofWay?_entries (widths : Widths) (category : String) (m : Node)
    (entries : Tree) :
    (ways entries).filterMap (fun w => ofWay? widths ((category, m) :: w)) =
      entries.flatMap fun e => ofEntry widths category e.1 e.2 := by
  rw [filterMap_ways]
  refine congrArg (entries.flatMap ·) (funext fun e => ?_)
  obtain ⟨name, n⟩ := e
  cases n with
  | leaf v => rfl
  | branch values => exact filterMap_ofWay?_tiers widths category name m (.branch values) values

end Token

theorem tokenRecords_eq_flatMap (s : Design) :
    s.tokenRecords = s.tokens.flatMap fun c => c.2.entries.flatMap fun e =>
      Token.ofEntry s.widths c.1 e.1 e.2 := by
  rw [tokenRecords_eq_categories, Design.categories, List.filterMap_eq_flatMap_toList,
    List.flatMap_assoc]
  refine congrArg (s.tokens.flatMap ·) (funext fun c => ?_)
  obtain ⟨category, n⟩ := c
  cases n <;> simp [Node.branch?, Node.entries]

theorem tokenRecords_eq (s : Design) :
    s.tokenRecords = (ways s.tokens).filterMap (Token.ofWay? s.widths) := by
  rw [filterMap_ways, tokenRecords_eq_flatMap]
  refine congrArg (s.tokens.flatMap ·) (funext fun c => ?_)
  obtain ⟨category, n⟩ := c
  cases n with
  | leaf v => rfl
  | branch entries =>
    exact (Token.filterMap_ofWay?_entries s.widths category (.branch entries) entries).symm

/-- The token records are those of the ways down the `tokens` section in pre-order, and no
others. The batches have ascending widths from the base on, none but the base batch is
empty, and each holds the records of its width in their order. Both are in the resolved system. -/
theorem tokens_flattened_and_batched (s : Design) :
    s.tokenRecords = (ways s.tokens).filterMap (Token.ofWay? s.widths) ∧
      Batch.Ordered s.tokenRecords.batches ∧
        (∀ width, Batch.entriesAt s.tokenRecords.batches width =
          (s.tokenRecords.filter (·.width = width)).map Token.toTokenValue) ∧
        s.resolve.tokens = s.tokenRecords ∧ s.resolve.batches = s.tokenRecords.batches :=
  ⟨tokenRecords_eq s, Tokens.ordered_batches _, Tokens.entriesAt_batches _, rfl,
    batched_tokenSet s⟩

end DesignSystem
