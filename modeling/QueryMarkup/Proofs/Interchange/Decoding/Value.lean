import QueryMarkup.Proofs.Interchange.Form
import QueryMarkup.Proofs.Reading.Lexeme

/-!
# Decoding values

A tree is decoded as a value, or as a list of filters, exactly if it stands for it and no more
arrays and objects are inside each other than there is room for.
-/

namespace QueryMarkup.Decode

open Interchange

section
variable {ε α β : Type}

theorem bind_eq_ok_iff {x : Except ε α} {f : α → Except ε β} {b : β} :
    (x >>= f) = .ok b ↔ ∃ a, x = .ok a ∧ f a = .ok b := by
  cases x with
  | error e =>
    constructor
    · intro h
      cases h
    · rintro ⟨a, h, -⟩
      cases h
  | ok a =>
    constructor
    · intro h
      exact ⟨a, rfl, h⟩
    · rintro ⟨a, ⟨⟩, h⟩
      exact h

theorem pure_eq_ok_iff {a b : α} : (pure a : Except ε α) = .ok b ↔ a = b := by
  constructor
  · intro h
    exact Except.ok.inj h
  · rintro rfl
    rfl

theorem enter_eq_ok_iff {room : Nat} {inside : Nat → Except DecodeError α} {a : α} :
    enter room inside = .ok a ↔ ∃ r, room = r + 1 ∧ inside r = .ok a := by
  cases room with
  | zero => simp [enter]
  | succ room => simp [enter]

theorem mismatch_ne_ok {j : Json} {shape : JsonShape} {a : α} : ¬ mismatch j shape = .ok a := by
  intro h
  unfold mismatch at h
  split at h
  · obtain ⟨-, -, h⟩ := bind_eq_ok_iff.1 h
    cases h
  · cases h

theorem items_eq_ok_iff {decode : Json → Except DecodeError α} {js : List Json} {as : List α} :
    items decode js = .ok as ↔ List.Forall₂ (fun j a => decode j = .ok a) js as := by
  induction js generalizing as with
  | nil =>
    rw [items, List.forall₂_nil_left_iff]
    exact ⟨fun h => (Except.ok.inj h).symm, fun h => h ▸ rfl⟩
  | cons j rest ih =>
    simp only [items, bind_eq_ok_iff, pure_eq_ok_iff, ih, List.forall₂_cons_left_iff]
    constructor
    · rintro ⟨a, ha, others, hothers, rfl⟩
      exact ⟨a, others, ha, hothers, rfl⟩
    · rintro ⟨a, others, ha, hothers, rfl⟩
      exact ⟨a, ha, others, hothers, rfl⟩

theorem members_eq_ok_iff {decode : Json → Except DecodeError α} {es : List (String × Json)}
    {pairs : List (String × α)} :
    members decode es = .ok pairs ↔ List.Forall₂ (Entry fun j a => decode j = .ok a) es pairs := by
  induction es generalizing pairs with
  | nil =>
    rw [members, List.forall₂_nil_left_iff]
    exact ⟨fun h => (Except.ok.inj h).symm, fun h => h ▸ rfl⟩
  | cons e rest ih =>
    obtain ⟨key, j⟩ := e
    simp only [members, bind_eq_ok_iff, pure_eq_ok_iff, ih, List.forall₂_cons_left_iff]
    constructor
    · rintro ⟨a, ha, others, hothers, rfl⟩
      exact ⟨(key, a), others, ⟨rfl, ha⟩, hothers, rfl⟩
    · rintro ⟨⟨_, a⟩, others, ⟨rfl, ha⟩, hothers, rfl⟩
      exact ⟨a, ha, others, hothers, rfl⟩

/-- Members stand for their pairs within a bound if each does. -/
theorem forall₂_entry_and {P : Json → Prop} {Stands : Json → α → Prop} {es : List (String × Json)}
    {pairs : List (String × α)} :
    List.Forall₂ (Entry fun j a => P j ∧ Stands j a) es pairs ↔
      (∀ e ∈ es, P e.2) ∧ List.Forall₂ (Entry Stands) es pairs := by
  have hentry : Entry (fun j a => P j ∧ Stands j a) = fun e pair => P e.2 ∧ Entry Stands e pair := by
    funext e pair
    exact propext and_left_comm
  rw [hentry, List.forall₂_and_left]

end

/-! ## Values and filters -/

theorem string_eq_ok_iff {j : Json} {s : String} : string j = .ok s ↔ j = .string s := by
  cases j with
  | string t => simp [string]
  | _ => simp [string, mismatch_ne_ok]

theorem checkNumber_eq_ok_iff {x : Binary64} {u : Unit} :
    checkNumber x = .ok u ↔ x.isFinite = true := by
  simp [checkNumber]

theorem integer_eq_ok_iff {i : Int} {l : Literal} :
    integer i = .ok l ↔ IsLiteral (.integer i) l := by
  have hl : integer i = .ok l ↔ Literal.ofInt? i = some l := by
    unfold integer
    cases Literal.ofInt? i <;> simp
  rw [hl, Lexeme.ofInt?_eq_some_iff]
  constructor
  · rintro ⟨k, rfl, rfl⟩
    exact .integer
  · rintro ⟨⟩
    exact ⟨_, rfl, rfl⟩

theorem isLiteral_of_literal {room : Nat} {j : Json} {l : Literal} (h : literal room j = .ok l) :
    IsLiteral j l := by
  cases j with
  | null => cases h; exact .null
  | bool b => cases h; exact .bool
  | integer i => exact integer_eq_ok_iff.1 h
  | double x =>
    obtain ⟨_, hx, h⟩ := bind_eq_ok_iff.1 h
    cases pure_eq_ok_iff.1 h
    exact .double (checkNumber_eq_ok_iff.1 hx)
  | string s => cases h; exact .string
  | array items =>
    obtain ⟨_, -, h⟩ := enter_eq_ok_iff.1 h
    cases h
  | object members =>
    obtain ⟨_, -, h⟩ := enter_eq_ok_iff.1 h
    cases h

theorem literal_of_isLiteral {j : Json} {l : Literal} (h : IsLiteral j l) (room : Nat) :
    literal room j = .ok l := by
  cases h with
  | integer => exact integer_eq_ok_iff.2 .integer
  | double hx => exact bind_eq_ok_iff.2 ⟨(), checkNumber_eq_ok_iff.2 hx, rfl⟩
  | _ => rfl

/-- Scalars need no room. -/
theorem literal_eq_ok_iff {room : Nat} {j : Json} {l : Literal} :
    literal room j = .ok l ↔ j.nesting ≤ room ∧ IsLiteral j l := by
  constructor
  · intro h
    have hl := isLiteral_of_literal h
    refine ⟨?_, hl⟩
    cases hl <;> exact Nat.zero_le _
  · rintro ⟨-, hl⟩
    exact literal_of_isLiteral hl room

theorem argMap_eq_ok_iff {room : Nat} {j : Json} {m : ArgMap} :
    argMap room j = .ok m ↔ j.nesting ≤ room ∧ IsValue j (.mapping m) := by
  cases j with
  | object entries =>
    simp only [argMap, enter_eq_ok_iff, bind_eq_ok_iff, members_eq_ok_iff, literal_eq_ok_iff,
      forall₂_entry_and, pure_eq_ok_iff, Json.nesting_object_le_iff]
    constructor
    · rintro ⟨r, rfl, pairs, ⟨hn, hpairs⟩, rfl⟩
      exact ⟨⟨r, rfl, hn⟩, .mapping hpairs (OrderedMap.collects_ofList pairs)⟩
    · rintro ⟨⟨r, rfl, hn⟩, hv⟩
      cases hv with
      | mapping hpairs hm =>
        exact ⟨r, rfl, _, ⟨hn, hpairs⟩, (OrderedMap.collects_iff.1 hm).symm⟩
  | _ =>
    constructor
    · intro h
      simp only [argMap] at h
      exact (mismatch_ne_ok h).elim
    · rintro ⟨-, ⟨⟩⟩

theorem checkWhole_of_isLiteral {j : Json} {l : Literal} (h : IsLiteral j l) (room : Nat) :
    checkWhole room j = .ok () := by
  cases h with
  | double hx => exact checkNumber_eq_ok_iff.2 hx
  | _ => rfl

theorem checkMembers_of_forall₂ {members : List (String × Json)} {pairs : List (String × Literal)}
    (h : List.Forall₂ (Entry IsLiteral) members pairs) (room : Nat) :
    checkMembers room members = .ok () := by
  induction h with
  | nil => rfl
  | @cons e _ rest _ he _ ih =>
    obtain ⟨key, j⟩ := e
    exact bind_eq_ok_iff.2 ⟨(), checkWhole_of_isLiteral he.2 room, ih⟩

/-- What stands for a value can be read as a whole. -/
theorem checkWhole_of_isValue {room : Nat} {j : Json} {v : Value} (h : IsValue j v)
    (hn : j.nesting ≤ room) : checkWhole room j = .ok () := by
  cases h with
  | literal hl => exact checkWhole_of_isLiteral hl room
  | mapping hpairs _ =>
    obtain ⟨r, rfl, -⟩ := Json.nesting_object_le_iff.1 hn
    exact checkMembers_of_forall₂ hpairs r

theorem value_eq_ok_iff {room : Nat} {j : Json} {v : Value} :
    value room j = .ok v ↔ j.nesting ≤ room ∧ IsValue j v := by
  constructor
  · intro h
    obtain ⟨_, -, h⟩ := bind_eq_ok_iff.1 h
    cases hl : literal room j with
    | ok l =>
      rw [hl] at h
      cases pure_eq_ok_iff.1 h
      exact (literal_eq_ok_iff.1 hl).imp_right .literal
    | error e =>
      rw [hl] at h
      cases hm : argMap room j with
      | ok m =>
        simp only [hm] at h
        cases pure_eq_ok_iff.1 h
        exact argMap_eq_ok_iff.1 hm
      | error e =>
        simp only [hm] at h
        cases h
  · rintro ⟨hn, hv⟩
    refine bind_eq_ok_iff.2 ⟨(), checkWhole_of_isValue hv hn, ?_⟩
    cases hv with
    | literal hl =>
      rw [literal_of_isLiteral hl room]
      rfl
    | @mapping members pairs m hpairs hm =>
      cases hl : literal room (.object members) with
      | ok l => cases isLiteral_of_literal hl
      | error e =>
        simp only [argMap_eq_ok_iff.2 ⟨hn, .mapping hpairs hm⟩]
        rfl

theorem filterPair_eq_ok_iff {delivery : Delivery} {room : Nat} {j : Json} {f : Filter} :
    filterPair delivery room j = .ok f ↔ j.nesting ≤ room ∧ IsPair j f := by
  cases j with
  | array parts =>
    simp only [filterPair, enter_eq_ok_iff, Json.nesting_array_le_iff]
    constructor
    · rintro ⟨r, rfl, h⟩
      rcases parts with _ | ⟨name, _ | ⟨j, _ | ⟨extra, rest⟩⟩⟩
      · cases h
      · obtain ⟨_, -, hshort⟩ := bind_eq_ok_iff.1 h
        cases hshort
      · obtain ⟨n, hn, hj⟩ := bind_eq_ok_iff.1 h
        obtain ⟨v, hv, hf⟩ := bind_eq_ok_iff.1 hj
        obtain rfl := string_eq_ok_iff.1 hn
        obtain ⟨hnesting, hv⟩ := value_eq_ok_iff.1 hv
        obtain rfl : Filter.mk n v = f := Except.ok.inj hf
        exact ⟨⟨r, rfl, by simp [Json.nesting, hnesting]⟩, .intro hv⟩
      · obtain ⟨_, -, hj⟩ := bind_eq_ok_iff.1 h
        obtain ⟨_, -, hlong⟩ := bind_eq_ok_iff.1 hj
        cases hlong
    · rintro ⟨⟨r, rfl, hnesting⟩, hpair⟩
      cases hpair with
      | @intro n j v hv =>
        have hj : value r j = .ok v := value_eq_ok_iff.2 ⟨hnesting j (by simp), hv⟩
        exact ⟨r, rfl, bind_eq_ok_iff.2 ⟨n, rfl, bind_eq_ok_iff.2 ⟨v, hj, rfl⟩⟩⟩
  | _ =>
    constructor
    · intro h
      simp only [filterPair] at h
      exact (mismatch_ne_ok h).elim
    · rintro ⟨-, ⟨⟩⟩

theorem filters_eq_ok_iff {delivery : Delivery} {room : Nat} {j : Json} {fs : List Filter} :
    filters delivery room j = .ok fs ↔ j.nesting ≤ room ∧ IsFilters j fs := by
  cases j with
  | null =>
    constructor
    · rintro ⟨⟩
      exact ⟨Nat.zero_le _, .null⟩
    · rintro ⟨-, ⟨⟩⟩
      rfl
  | array items =>
    simp only [filters, enter_eq_ok_iff, items_eq_ok_iff, filterPair_eq_ok_iff,
      List.forall₂_and_left, Json.nesting_array_le_iff]
    constructor
    · rintro ⟨r, rfl, hn, hpairs⟩
      exact ⟨⟨r, rfl, hn⟩, .array hpairs⟩
    · rintro ⟨⟨r, rfl, hn⟩, ⟨⟩⟩
      exact ⟨r, rfl, hn, ‹_›⟩
  | object entries =>
    simp only [filters, enter_eq_ok_iff, bind_eq_ok_iff, members_eq_ok_iff, value_eq_ok_iff,
      forall₂_entry_and, pure_eq_ok_iff, Json.nesting_object_le_iff]
    constructor
    · rintro ⟨r, rfl, pairs, ⟨hn, hpairs⟩, rfl⟩
      exact ⟨⟨r, rfl, hn⟩, .object (List.forall₂_map_right_iff.2 hpairs)⟩
    · rintro ⟨⟨r, rfl, hn⟩, hf⟩
      cases hf with
      | object hpairs =>
        refine ⟨r, rfl, fs.map fun f => (f.name, f.value), ⟨hn, ?_⟩, ?_⟩
        · exact List.forall₂_map_right_iff.2 hpairs
        · simp [Function.comp_def]
  | _ =>
    constructor
    · intro h
      simp only [filters] at h
      exact (mismatch_ne_ok h).elim
    · rintro ⟨-, ⟨⟩⟩

end QueryMarkup.Decode
