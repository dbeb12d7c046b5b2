import QueryMarkup.Proofs.Numbers.Equality
import QueryMarkup.Proofs.OrderedMap
import QueryMarkup.Proofs.Reading.Exact

/-!
# Named arguments

Named arguments are the same map whether they are inserted one by one, collected from a list or read
off an argument list. Maps compare by what is found under their names: the comparison looks up the
entries of one map in the other, which is symmetric because names are distinct.
-/

namespace QueryMarkup.ArgMap

/-- Whichever way a map comes from the pairs, it is this one. -/
structure IsBuiltFrom (m : ArgMap) (pairs : List (String × Literal)) : Prop where
  /-- Names keep the places they first had and take the values they last had. -/
  collects : m.Collects pairs
  distinct : m.keys.Nodup
  inserted : pairs.foldl (fun m p => (m.exchange p.1 p.2).2) .empty = m
  collected : OrderedMap.ofList pairs = m
  /-- Written as an argument list the pairs are read back, whatever stands behind. -/
  read : pairs ≠ [] → (∀ p ∈ pairs, IsArgument p) → ∀ behind,
    Parse.Passes (do Parse.expect '(' .openParenthesis; Parse.arguments)
      (Line.argumentList pairs) (.named m) behind

theorem isBuiltFrom_ofList (pairs : List (String × Literal)) :
    IsBuiltFrom (.ofList pairs) pairs where
  collects := OrderedMap.collects_ofList pairs
  distinct := (OrderedMap.ofList pairs).nodup_keys
  inserted := rfl
  collected := rfl
  read := Parse.passes_argumentList

theorem equal_iff {m n : ArgMap} :
    m.equal n = true ↔ (∀ key, key ∈ m.keys ↔ key ∈ n.keys) ∧
      ∀ key a b, m.get? key = some a → n.get? key = some b → a.Same b := by
  simp only [equal, OrderedMap.equal_iff, Literal.equal_iff]

theorem equal_symm {m n : ArgMap} (h : m.equal n = true) : n.equal m = true := by
  obtain ⟨hkeys, hvalues⟩ := equal_iff.1 h
  exact equal_iff.2 ⟨fun key => (hkeys key).symm, fun key a b ha hb => (hvalues key b a hb ha).symm⟩

theorem equal_trans {m n p : ArgMap} (h : m.equal n = true) (k : n.equal p = true) :
    m.equal p = true := by
  obtain ⟨hkeys, hvalues⟩ := equal_iff.1 h
  obtain ⟨hkeys', hvalues'⟩ := equal_iff.1 k
  refine equal_iff.2 ⟨fun key => (hkeys key).trans (hkeys' key), fun key a c ha hc => ?_⟩
  obtain ⟨b, hb⟩ := OrderedMap.mem_keys_iff.1 ((hkeys key).1 (OrderedMap.mem_keys_iff.2 ⟨a, ha⟩))
  exact (hvalues key a b ha hb).trans (hvalues' key b c hb hc)

theorem equal_comm (m n : ArgMap) : m.equal n = n.equal m :=
  Bool.eq_iff_iff.2 ⟨equal_symm, equal_symm⟩

/-- What a map is equal to is told by what is found in it. -/
theorem equal_congr {m m' : ArgMap} (h : ∀ key, m.get? key = m'.get? key) (n : ArgMap) :
    m.equal n = m'.equal n := by
  have hkeys : ∀ key, key ∈ m.keys ↔ key ∈ m'.keys := fun key => by
    rw [OrderedMap.mem_keys_iff, OrderedMap.mem_keys_iff, h]
  rw [Bool.eq_iff_iff, equal_iff, equal_iff]
  simp only [hkeys, h]

/-- Distinct names may be inserted in any order. -/
theorem get?_ofList_of_perm {pairs pairs' : List (String × Literal)} (h : pairs.Perm pairs')
    (hdistinct : (pairs.map Prod.fst).Nodup) (key : String) :
    (OrderedMap.ofList pairs).get? key = (OrderedMap.ofList pairs').get? key := by
  have hdistinct' : (pairs'.map Prod.fst).Nodup := (h.map Prod.fst).nodup_iff.1 hdistinct
  refine Option.ext fun l => ?_
  rw [OrderedMap.get?_eq_some_iff, OrderedMap.get?_eq_some_iff, OrderedMap.entries_ofList hdistinct,
    OrderedMap.entries_ofList hdistinct', h.mem_iff]

/-- Named arguments are one map however they are built, an insertion answers with what was found
before, and equality is that of the values under each name, whatever the order. -/
theorem built_and_compared :
    (∀ pairs, IsBuiltFrom (.ofList pairs) pairs) ∧
    (∀ (m : ArgMap) (key : String) (l : Literal), (m.exchange key l).1 = m.get? key) ∧
    (∀ m n : ArgMap, m.equal n = true ↔ (∀ key, key ∈ m.keys ↔ key ∈ n.keys) ∧
      ∀ key a b, m.get? key = some a → n.get? key = some b → a.Same b) ∧
    (∀ a b : Literal, a.equal b = true ↔ a.Same b) ∧
    (∀ m n : ArgMap, m.equal n = n.equal m) ∧
    (∀ m n p : ArgMap, m.equal n = true → n.equal p = true → m.equal p = true) ∧
    (∀ pairs pairs' : List (String × Literal), pairs.Perm pairs' → (pairs.map Prod.fst).Nodup →
      ∀ n, ArgMap.equal (.ofList pairs) n = ArgMap.equal (.ofList pairs') n) ∧
    (∀ x : Binary64, x.isNaN = true → ∀ l, ¬(Literal.float x).Same l) ∧
    (∀ negative negative' : Bool,
      (Literal.float (.zero negative)).Same (.float (.zero negative'))) ∧
    ∀ (i : Int64) (x : Binary64), ¬(Literal.int i).Same (.float x) := by
  refine ⟨isBuiltFrom_ofList, fun m key l => by rw [OrderedMap.exchange_eq], fun _ _ => equal_iff,
    fun _ _ => Literal.equal_iff, equal_comm, fun _ _ _ => equal_trans, fun _ _ h hdistinct =>
    equal_congr (get?_ofList_of_perm h hdistinct), ?_, ?_, ?_⟩
  · rintro x hx l (_ | _ | _ | ⟨hn, -⟩ | _)
    rw [Binary64.number?_eq_none_iff.2 hx] at hn
    cases hn
  · intro negative negative'
    have hzero : ∀ negative, (Binary64.zero negative).number? = some (.finite 0) := fun negative =>
      Binary64.number?_of_magnitudeBits (by cases negative <;> rfl)
    exact .float (hzero negative) (hzero negative')
  · rintro i x ⟨⟩

theorem built_and_compared_repeated_name :
    [("a", Literal.int 1), ("b", .null), ("a", .int 2)] ≠ [] ∧
    (∀ p ∈ [("a", Literal.int 1), ("b", .null), ("a", .int 2)], IsArgument p) ∧
    Parse.Passes (do Parse.expect '(' .openParenthesis; Parse.arguments)
      "(a: 1, b: null, a: 2)".toList (.named (.ofList [("a", .int 2), ("b", .null)])) [] ∧
    ([("a", Literal.int 2), ("b", .null)] : List (String × Literal)).Perm
      [("b", .null), ("a", .int 2)] ∧
    ([("a", Literal.int 2), ("b", .null)].map Prod.fst).Nodup ∧
    ArgMap.equal (.ofList [("a", .int 2), ("b", .null)]) (.ofList [("b", .null), ("a", .int 2)]) =
      true := by
  obtain ⟨hbuilt, -, -, -, -, -, horder, -⟩ := built_and_compared
  have hne : [("a", Literal.int 1), ("b", .null), ("a", .int 2)] ≠ [] := List.cons_ne_nil _ _
  have hint : ∀ i, (Literal.int i).IsWritable := fun i x h => by cases h
  have hnull : Literal.null.IsWritable := fun x h => by cases h
  have harguments : ∀ p ∈ [("a", Literal.int 1), ("b", .null), ("a", .int 2)], IsArgument p := by
    simp only [List.forall_mem_cons]
    exact ⟨⟨by decide, hint 1⟩, ⟨by decide, hnull⟩, ⟨by decide, hint 2⟩, fun p hp => by cases hp⟩
  have hperm : ([("a", Literal.int 2), ("b", .null)] : List (String × Literal)).Perm
      [("b", .null), ("a", .int 2)] := .swap _ _ []
  have hdistinct : ([("a", Literal.int 2), ("b", .null)].map Prod.fst).Nodup := by decide
  refine ⟨hne, harguments, (hbuilt _).read hne harguments [], hperm, hdistinct, ?_⟩
  rw [horder _ _ hperm hdistinct]
  rfl

end QueryMarkup.ArgMap
