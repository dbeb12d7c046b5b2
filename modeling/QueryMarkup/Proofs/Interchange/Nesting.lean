import QueryMarkup.Proofs.Interchange.Lossless
import QueryMarkup.Proofs.Markup.Size

/-!
# Nesting in JSON

Each selection takes an object and the array of its properties, so a document nested `n` deep is a
tree nested twice as deep and two or three more: three where the innermost selections have a filter
with named arguments, which may lie deeper than their fields. A tree is read with a limit of its own,
and fits it if its document is nested at most `maxJsonNesting` deep, which is less than validation
allows.
-/

namespace QueryMarkup

theorem Literal.nesting_toJson (l : Literal) : l.toJson.nesting = 0 := by
  cases l with
  | float x =>
    rw [toJson]
    split <;> rfl
  | _ => rfl

theorem Value.nesting_toJson_le (v : Value) : v.toJson.nesting ≤ 1 := by
  cases v with
  | literal l => exact Nat.le_trans (Nat.le_of_eq l.nesting_toJson) (Nat.zero_le 1)
  | mapping m =>
    refine Json.nesting_object_le_iff.2 ⟨0, rfl, fun e he => ?_⟩
    obtain ⟨entry, -, rfl⟩ := List.mem_map.1 he
    exact Nat.le_of_eq entry.2.nesting_toJson

theorem Filter.nesting_toJson_le (f : Filter) : f.toJson.nesting ≤ 2 := by
  refine Json.nesting_array_le_iff.2 ⟨1, rfl, fun j hj => ?_⟩
  rcases List.mem_pair.1 hj with rfl | rfl
  · exact Nat.zero_le 1
  · exact f.value.nesting_toJson_le

theorem Header.nesting_toMembers_le (h : Header) : ∀ e ∈ h.toMembers, e.2.nesting ≤ 3 := by
  intro e he
  rcases List.mem_cons.1 he with rfl | he
  · exact Nat.zero_le 3
  rcases List.mem_append.1 he with he | he
  · cases hp : h.params with
    | none => simp [hp] at he
    | some v =>
      obtain rfl : e = ("params", v.toJson) := by simpa [hp] using he
      exact Nat.le_trans v.nesting_toJson_le (by decide)
  · split at he
    · cases he
    · obtain rfl := List.mem_singleton.1 he
      refine Json.nesting_array_le_iff.2 ⟨2, rfl, fun j hj => ?_⟩
      obtain ⟨f, -, rfl⟩ := List.mem_map.1 hj
      exact f.nesting_toJson_le

mutual

theorem Property.nesting_toJson_le : (p : Property) → p.toJson.nesting ≤ 2 * p.nesting + 2
  | .field n => by
    rw [toJson, nesting]
    exact Json.nesting_object_le_iff.2 ⟨1, rfl, by simp [Json.nesting]⟩
  | .selection h ps => by
    rw [toJson, nesting]
    refine Json.nesting_object_le_iff.2 ⟨2 * listNesting ps + 3, by omega, fun e he => ?_⟩
    rcases List.mem_append.1 he with he | he
    · have := h.nesting_toMembers_le e he
      omega
    · obtain rfl := List.mem_singleton.1 he
      exact Json.nesting_array_le_iff.2 ⟨_, rfl, Property.nesting_listToJson_le ps⟩

theorem Property.nesting_listToJson_le :
    (ps : List Property) → ∀ j ∈ listToJson ps, j.nesting ≤ 2 * listNesting ps + 2
  | [], j, hj => by
    rw [listToJson] at hj
    cases hj
  | p :: rest, j, hj => by
    rw [listToJson] at hj
    rw [listNesting]
    rcases List.mem_cons.1 hj with rfl | hj
    · have := Property.nesting_toJson_le p
      omega
    · have := Property.nesting_listToJson_le rest j hj
      omega

end

mutual

/-- As valid selections have properties, the innermost ones have fields. -/
theorem Property.le_nesting_toJson {depth : Nat} : (p : Property) →
    Validation.checkProperty depth p = .ok () → 2 * p.nesting + 1 ≤ p.toJson.nesting
  | .field n, _ => by
    rw [toJson, nesting, Json.nesting]
    omega
  | .selection h ps, hv => by
    rw [Validation.checkProperty] at hv
    obtain ⟨-, hv⟩ := Validation.bind_eq_ok hv
    dsimp only at hv
    split at hv
    · cases hv
    · rename_i hne
      obtain ⟨j, hj, hle⟩ := Property.exists_le_nesting ps hv (by simpa using hne)
      rw [toJson, nesting]
      by_contra hlt
      obtain ⟨m, hm, hmembers⟩ := Json.nesting_object_le_iff.1 (Nat.lt_succ_iff.1 (not_le.1 hlt))
      obtain ⟨k, hk, hitems⟩ := Json.nesting_array_le_iff.1
        (hmembers ("properties", .array (listToJson ps)) (by simp))
      have := hitems j hj
      omega

theorem Property.exists_le_nesting {depth : Nat} : (ps : List Property) →
    Validation.checkProperties depth ps = .ok () → ps ≠ [] →
      ∃ j ∈ listToJson ps, 2 * listNesting ps + 1 ≤ j.nesting
  | [], _, hne => (hne rfl).elim
  | p :: rest, hv, _ => by
    rw [Validation.checkProperties] at hv
    obtain ⟨hp, hrest⟩ := Validation.bind_eq_ok hv
    have hle := Property.le_nesting_toJson p hp
    rw [listToJson, listNesting]
    by_cases hmax : listNesting rest ≤ p.nesting
    · exact ⟨_, List.mem_cons_self .., by omega⟩
    · have hne : rest ≠ [] := by
        rintro rfl
        exact hmax (Nat.zero_le _)
      obtain ⟨j, hj, hle⟩ := Property.exists_le_nesting rest hrest hne
      exact ⟨j, List.mem_cons_of_mem _ hj, by omega⟩

end

/-! ## Documents and towers -/

/-- How deep selections may be nested for their JSON form to be read. -/
def maxJsonNesting : Nat := 62

namespace Document

theorem toJson_eq_listToJson (d : Document) :
    d.toJson = .array (Property.listToJson (d.selections.map .ofSelection)) := by
  rw [Property.listToJson_eq_map, List.map_map]
  rfl

theorem nesting_toJson_le (d : Document) : d.toJson.nesting ≤ 2 * d.nesting + 3 := by
  rw [toJson_eq_listToJson]
  exact Json.nesting_array_le_iff.2 ⟨_, rfl, Property.nesting_listToJson_le _⟩

theorem le_nesting_toJson {d : Document} (h : d.validate = .ok ()) :
    2 * d.nesting + 2 ≤ d.toJson.nesting := by
  unfold validate at h
  split at h
  · cases h
  · rename_i hne
    rw [Validation.checkSelections_eq] at h
    obtain ⟨j, hj, hle⟩ := Property.exists_le_nesting _ h (by simpa [isEmpty] using hne)
    rw [toJson_eq_listToJson, Json.nesting]
    have := Json.itemsNesting_le_iff.1 (Nat.le_refl _) j hj
    rw [Document.nesting]
    omega

/-- The JSON form of a valid document can be read if its selections are nested no deeper than that.
-/
theorem nesting_toJson_le_maxOpen_iff {d : Document} (h : d.validate = .ok ()) :
    d.toJson.nesting ≤ Decode.maxOpen ↔ d.nesting ≤ maxJsonNesting := by
  have hle := d.nesting_toJson_le
  have hge := le_nesting_toJson h
  unfold Decode.maxOpen maxJsonNesting
  omega

/-- A tree nested deeper than may be open at once is refused, whatever it stands for. -/
theorem exists_error_of_lt_nesting {j : Json} (h : Decode.maxOpen < j.nesting) :
    ∃ e, Decode.deliver Decode.document .streamed j = .error e := by
  cases hr : Decode.deliver Decode.document .streamed j with
  | error e => exact ⟨e, rfl⟩
  | ok d =>
    have := (Decode.document_eq_ok_iff.1 hr).1
    omega

theorem exists_error_of_lt_nesting_of_valid {d : Document} (hv : d.validate = .ok ())
    (h : maxJsonNesting < d.nesting) :
    ∃ e, Decode.deliver Decode.document .streamed d.toJson = .error e :=
  exists_error_of_lt_nesting
    (Nat.lt_of_not_le fun hle => Nat.not_le_of_lt h ((nesting_toJson_le_maxOpen_iff hv).1 hle))

/-- Documents that can be written as text are read back from their JSON form if they are nested at
most `maxJsonNesting` deep, and are refused otherwise. -/
theorem deliver_toJson_of_valid {d : Document} (hv : d.validate = .ok ())
    (hf : ∀ x, .float x ∈ d.literals → x.isFinite = true) :
    (d.nesting ≤ maxJsonNesting → Decode.deliver Decode.document .streamed d.toJson = .ok d) ∧
    (maxJsonNesting < d.nesting →
      ∃ e, Decode.deliver Decode.document .streamed d.toJson = .error e) := by
  refine ⟨fun h => ?_, exists_error_of_lt_nesting_of_valid hv⟩
  exact Decode.document_eq_ok_iff.2 ⟨(nesting_toJson_le_maxOpen_iff hv).2 h, isDocument_toJson hf⟩

end Document

/-- The property inside that many selections with nothing else in them. -/
def Property.inside : (n : Nat) → Property → Property
  | 0, p => p
  | n + 1, p => .selection (.named "a") [inside n p]

namespace Property

theorem nesting_inside (n : Nat) (p : Property) : (inside n p).nesting = n + p.nesting := by
  induction n with
  | zero => exact (Nat.zero_add _).symm
  | succ n ih =>
    rw [inside, nesting, listNesting, listNesting, ih]
    omega

theorem literals_inside (n : Nat) (p : Property) : (inside n p).literals = p.literals := by
  induction n with
  | zero => rfl
  | succ n ih =>
    rw [inside, literals, listLiterals, listLiterals, ih, List.append_nil]
    rfl

/-- All that can be wrong with a tower no deeper than the limit is what it is put on. -/
theorem checkProperty_inside {depth n : Nat} {p : Property} (h : depth + n ≤ maxNesting) :
    Validation.checkProperty depth (inside n p) = Validation.checkProperty (depth + n) p := by
  induction n generalizing depth with
  | zero => rfl
  | succ n ih =>
    have hheader : Validation.checkHeader (depth + 1) (.named "a") = .ok () := by
      have hdepth : ¬ maxNesting < depth + 1 := by omega
      simp only [Validation.checkHeader, if_neg hdepth]
      rfl
    have hrest : Validation.checkProperty (depth + 1) (inside n p) =
        Validation.checkProperty (depth + (n + 1)) p := by
      rw [ih (by omega), Nat.add_right_comm, Nat.add_assoc]
    rw [inside, Validation.checkProperty, hheader]
    show Validation.checkProperties (depth + 1) [inside n p] = _
    rw [Validation.checkProperties, Validation.checkProperties, hrest]
    cases Validation.checkProperty (depth + (n + 1)) p <;> rfl

end Property

namespace Document

/-- The document with nothing but the property inside that many selections. -/
def tower (n : Nat) (p : Property) : Document := ⟨[⟨.named "a", [Property.inside n p]⟩]⟩

theorem nesting_tower (n : Nat) (p : Property) : (tower n p).nesting = n + 1 + p.nesting := by
  show max (Property.inside (n + 1) p).nesting 0 = _
  rw [Nat.max_zero, Property.nesting_inside]

theorem literals_tower (n : Nat) (p : Property) : (tower n p).literals = p.literals := by
  show (Property.inside (n + 1) p).literals ++ [] = _
  rw [List.append_nil, Property.literals_inside]

theorem validate_tower {n : Nat} {p : Property} (h : n < maxNesting) :
    (tower n p).validate = Validation.checkProperty (n + 1) p := by
  have hp : Validation.checkProperty 0 (Property.inside (n + 1) p) =
      Validation.checkProperty (n + 1) p := by
    rw [Property.checkProperty_inside (by omega), Nat.zero_add]
  show Validation.checkSelections [⟨.named "a", [Property.inside n p]⟩] = _
  rw [Validation.checkSelections_eq, ← hp]
  show Validation.checkProperties 0 [Property.inside (n + 1) p] = _
  rw [Validation.checkProperties, Validation.checkProperties]
  cases Validation.checkProperty 0 (Property.inside (n + 1) p) <;> rfl

/-- The last depth that can be read, with a filter that has named arguments at the bottom. -/
theorem deliver_toJson_of_valid_deep : ∃ d : Document,
    d.validate = .ok () ∧ d.literals = [.float (.zero true)] ∧ d.nesting = maxJsonNesting ∧
    Decode.deliver Decode.document .streamed d.toJson = .ok d := by
  let p : Property := .selection
    ⟨"b", none, [⟨"c", .mapping ⟨[("d", .float (.zero true))], by decide⟩⟩]⟩ [.field "e"]
  have hv : (tower 60 p).validate = .ok () := validate_tower (by decide)
  have hl : (tower 60 p).literals = [.float (.zero true)] := literals_tower 60 p
  have hn : (tower 60 p).nesting = maxJsonNesting := nesting_tower 60 p
  have hf : ∀ x, .float x ∈ (tower 60 p).literals → x.isFinite = true := by
    intro x hx
    have hx : x = .zero true := by simpa [hl] using hx
    rw [hx]
    decide
  exact ⟨tower 60 p, hv, hl, hn, (deliver_toJson_of_valid hv hf).1 (Nat.le_of_eq hn)⟩

/-- One level deeper a document is valid, but cannot be read. -/
theorem not_deliver_toJson_tower :
    (tower 62 (.field "a")).validate = .ok () ∧
    (∀ x, .float x ∈ (tower 62 (.field "a")).literals → x.isFinite = true) ∧
    ∃ e, Decode.deliver Decode.document .streamed (tower 62 (.field "a")).toJson = .error e := by
  have hv : (tower 62 (.field "a")).validate = .ok () := validate_tower (by decide)
  have hdeep : maxJsonNesting < (tower 62 (.field "a")).nesting := by
    rw [nesting_tower]
    decide
  refine ⟨hv, fun x hx => ?_, exists_error_of_lt_nesting_of_valid hv hdeep⟩
  rw [literals_tower] at hx
  cases hx

end Document

end QueryMarkup
