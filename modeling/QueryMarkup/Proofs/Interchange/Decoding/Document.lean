import QueryMarkup.Proofs.Interchange.Decoding.Value

/-!
# Decoding documents

A tree is decoded as a document exactly if it stands for it and no more arrays and objects are
inside each other than there is room for. The fields of a record are decoded one after another,
whether they come by keys or in places, and what they leave is said once for both.
-/

namespace QueryMarkup.Decode

open Interchange

/-! ## Fields -/

/-- What a record has for its properties, if anything: an array, or in a property also null. -/
inductive IsBody : RecordKind → Option Json → Option (List Property) → Prop where
  | absent : IsBody .property none none
  | null : IsBody .property (some .null) none
  | array {kind : RecordKind} {items : List Json} {ps : List Property} : IsProperties items ps →
      IsBody kind (some (.array items)) (some ps)

/-- The fields of a record before and after one more is read. -/
inductive IsSet (kind : RecordKind) (f : Fields) : JsonField → Json → Fields → Prop where
  | name {s : String} : IsSet kind f .name (.string s) { f with name := some s }
  | params {j : Json} {v : Value} : IsValue j v → IsSet kind f .params j { f with params := some v }
  | filters {j : Json} {fs : List Filter} : IsFilters j fs →
      IsSet kind f .filters j { f with filters := some fs }
  | properties {j : Json} {o : Option (List Property)} : IsBody kind (some j) o →
      IsSet kind f .properties j { f with properties := some o }

theorem IsSet.has {kind : RecordKind} {f g : Fields} {field : JsonField} {j : Json}
    (h : IsSet kind f field j g) (other : JsonField) :
    g.has other = (decide (other = field) || f.has other) := by
  cases h <;> cases other <;> rfl

/-- With room for that many more arrays and objects, properties are decoded as they stand. -/
def ReadsProperties (delivery : Delivery) (room : Nat) : Prop :=
  ∀ items ps, properties delivery room items = .ok ps ↔
    (∀ j ∈ items, j.nesting ≤ room) ∧ IsProperties items ps

section
variable {delivery : Delivery} {kind : RecordKind} {room : Nat}

theorem assign_properties_eq_ok_iff (hp : ∀ r, room = r + 1 → ReadsProperties delivery r)
    {f g : Fields} {j : Json} :
    assign delivery kind room f .properties j = .ok g ↔
      j.nesting ≤ room ∧ ∃ o, IsBody kind (some j) o ∧ { f with properties := some o } = g := by
  cases j with
  | null =>
    cases kind with
    | selection =>
      constructor
      · intro h
        rw [assign, if_neg (by decide)] at h
        exact (mismatch_ne_ok h).elim
      · rintro ⟨-, _, ⟨⟩, -⟩
    | property =>
      constructor
      · intro h
        exact ⟨Nat.zero_le _, none, .null, Except.ok.inj h⟩
      · rintro ⟨-, _, ⟨⟩, rfl⟩
        rfl
  | array items =>
    simp only [assign, enter_eq_ok_iff, bind_eq_ok_iff, pure_eq_ok_iff, Json.nesting_array_le_iff]
    constructor
    · rintro ⟨r, rfl, ps, hps, rfl⟩
      obtain ⟨hn, hps⟩ := (hp r rfl items ps).1 hps
      exact ⟨⟨r, rfl, hn⟩, some ps, .array hps, rfl⟩
    · rintro ⟨⟨r, rfl, hn⟩, o, hbody, rfl⟩
      cases hbody with
      | @array _ _ ps hps => exact ⟨r, rfl, ps, (hp r rfl items ps).2 ⟨hn, hps⟩, rfl⟩
  | _ =>
    constructor
    · intro h
      simp only [assign] at h
      exact (mismatch_ne_ok h).elim
    · rintro ⟨-, _, ⟨⟩, -⟩

theorem assign_eq_ok_iff (hp : ∀ r, room = r + 1 → ReadsProperties delivery r) {f g : Fields}
    {field : JsonField} {j : Json} :
    assign delivery kind room f field j = .ok g ↔ j.nesting ≤ room ∧ IsSet kind f field j g := by
  cases field with
  | name =>
    simp only [assign, bind_eq_ok_iff, string_eq_ok_iff, pure_eq_ok_iff]
    constructor
    · rintro ⟨s, rfl, rfl⟩
      exact ⟨Nat.zero_le _, .name⟩
    · rintro ⟨-, ⟨⟩⟩
      exact ⟨_, rfl, rfl⟩
  | params =>
    simp only [assign, bind_eq_ok_iff, value_eq_ok_iff, pure_eq_ok_iff]
    constructor
    · rintro ⟨v, ⟨hn, hv⟩, rfl⟩
      exact ⟨hn, .params hv⟩
    · rintro ⟨hn, ⟨⟩⟩
      exact ⟨_, ⟨hn, ‹_›⟩, rfl⟩
  | filters =>
    simp only [assign, bind_eq_ok_iff, filters_eq_ok_iff, pure_eq_ok_iff]
    constructor
    · rintro ⟨fs, ⟨hn, hf⟩, rfl⟩
      exact ⟨hn, .filters hf⟩
    · rintro ⟨hn, ⟨⟩⟩
      exact ⟨_, ⟨hn, ‹_›⟩, rfl⟩
  | properties =>
    rw [assign_properties_eq_ok_iff hp]
    constructor
    · rintro ⟨hn, o, hbody, rfl⟩
      exact ⟨hn, .properties hbody⟩
    · rintro ⟨hn, ⟨⟩⟩
      exact ⟨hn, _, ‹_›, rfl⟩

/-- Fields decoded one after another. -/
def assignAll (delivery : Delivery) (kind : RecordKind) (room : Nat) :
    Fields → List (JsonField × Json) → Except DecodeError Fields
  | f, [] => .ok f
  | f, (field, j) :: rest => do
    assignAll delivery kind room (← assign delivery kind room f field j) rest

theorem positional_eq_ok_iff {length : Nat} {fields : List JsonField} {parts : List Json}
    {f g : Fields} :
    positional delivery kind room length fields f parts = .ok g ↔
      parts.length = fields.length ∧ assignAll delivery kind room f (fields.zip parts) = .ok g := by
  induction fields generalizing f parts with
  | nil =>
    cases parts with
    | nil => simp [positional, assignAll]
    | cons j rest => simp [positional]
  | cons field fields ih =>
    cases parts with
    | nil => simp [positional]
    | cons j rest =>
      simp only [positional, bind_eq_ok_iff, ih, List.length_cons, Nat.add_right_cancel_iff,
        List.zip_cons_cons, assignAll, exists_and_left, and_left_comm]

theorem keyed_cons_eq_ok_iff {key : String} {j : Json} {rest : List (String × Json)}
    {f g : Fields} :
    keyed delivery kind room f ((key, j) :: rest) = .ok g ↔
      ∃ field : JsonField, key = field.key ∧ f.has field = false ∧
        ∃ f', assign delivery kind room f field j = .ok f' ∧
          keyed delivery kind room f' rest = .ok g := by
  constructor
  · intro h
    rw [keyed] at h
    split at h
    · cases h
    · rename_i field hkey
      dsimp only at h
      split at h
      · cases h
      · rename_i hnew
        exact ⟨field, (JsonField.key_of_ofKey? hkey).symm, by simpa using hnew,
          bind_eq_ok_iff.1 h⟩
  · rintro ⟨field, rfl, hnew, h⟩
    simp only [keyed, JsonField.ofKey?_key, hnew]
    exact bind_eq_ok_iff.2 h

/-- Members are decoded if their keys are known, distinct and new. -/
theorem keyed_eq_ok_iff (hp : ∀ r, room = r + 1 → ReadsProperties delivery r)
    {members : List (String × Json)} {f g : Fields} :
    keyed delivery kind room f members = .ok g ↔
      ∃ entries : List (JsonField × Json), members = JsonField.members entries ∧
        (entries.map Prod.fst).Nodup ∧ (∀ e ∈ entries, f.has e.1 = false) ∧
        assignAll delivery kind room f entries = .ok g := by
  induction members generalizing f with
  | nil =>
    constructor
    · intro h
      exact ⟨[], rfl, List.nodup_nil, by simp, h⟩
    · rintro ⟨entries, he, -, -, h⟩
      obtain rfl := List.map_eq_nil_iff.1 he.symm
      exact h
  | cons member rest ih =>
    obtain ⟨key, j⟩ := member
    rw [keyed_cons_eq_ok_iff]
    constructor
    · rintro ⟨field, rfl, hnew, f', hf', h⟩
      obtain ⟨entries, rfl, hnodup, hentries, hall⟩ := ih.1 h
      have hset := ((assign_eq_ok_iff hp).1 hf').2
      have hbehind : ∀ e ∈ entries, e.1 ≠ field ∧ f.has e.1 = false := by
        intro e he
        simpa [hset.has] using hentries e he
      refine ⟨(field, j) :: entries, rfl, List.nodup_cons.2 ⟨fun hmem => ?_, hnodup⟩, ?_,
        bind_eq_ok_iff.2 ⟨f', hf', hall⟩⟩
      · obtain ⟨e, he, hfst⟩ := List.mem_map.1 hmem
        exact (hbehind e he).1 hfst
      · exact List.forall_mem_cons.2 ⟨hnew, fun e he => (hbehind e he).2⟩
    · rintro ⟨_ | ⟨⟨field, j'⟩, entries⟩, he, hnodup, hentries, hall⟩
      · cases he
      · obtain ⟨hmember, rfl⟩ := List.cons.inj he
        obtain ⟨rfl, rfl⟩ := Prod.mk.inj hmember
        obtain ⟨f', hf', hall⟩ := bind_eq_ok_iff.1 hall
        have hset := ((assign_eq_ok_iff hp).1 hf').2
        obtain ⟨hnew, hentries⟩ := List.forall_mem_cons.1 hentries
        rw [List.map_cons, List.nodup_cons] at hnodup
        refine ⟨field, rfl, hnew, f', hf', ih.2 ⟨entries, rfl, hnodup.2, fun e he => ?_, hall⟩⟩
        have hmem : e.1 ∈ entries.map Prod.fst := List.mem_map_of_mem he
        have hne : e.1 ≠ field := fun heq => hnodup.1 (heq ▸ hmem)
        simp [hset.has, hne, hentries e he]

/-- A field takes what is given for it, and keeps what it has if nothing is. -/
inductive Takes {α : Type} (Stands : Json → α → Prop) (before : Option α) :
    Option Json → Option α → Prop where
  | kept : Takes Stands before none before
  | given {j : Json} {a : α} : Stands j a → Takes Stands before (some j) (some a)

theorem takes_none_iff {α : Type} {Stands : Json → α → Prop} {before after : Option α} :
    Takes Stands before none after ↔ after = before := by
  constructor
  · rintro ⟨⟩
    rfl
  · rintro rfl
    exact .kept

theorem takes_some_iff {α : Type} {Stands : Json → α → Prop} {before after : Option α}
    {j : Json} : Takes Stands before (some j) after ↔ ∃ a, Stands j a ∧ after = some a := by
  constructor
  · rintro ⟨⟩
    exact ⟨_, ‹_›, rfl⟩
  · rintro ⟨a, ha, rfl⟩
    exact .given ha

/-- The fields of a record before and after some are read. -/
structure IsRead (kind : RecordKind) (entries : List (JsonField × Json)) (f g : Fields) :
    Prop where
  name : Takes (fun j s => j = .string s) f.name (entries.lookup .name) g.name
  params : Takes IsValue f.params (entries.lookup .params) g.params
  filters : Takes IsFilters f.filters (entries.lookup .filters) g.filters
  properties : Takes (fun j => IsBody kind (some j)) f.properties (entries.lookup .properties)
    g.properties

theorem isRead_nil {f g : Fields} : IsRead kind [] f g ↔ f = g := by
  constructor
  · rintro ⟨hname, hparams, hfilters, hproperties⟩
    obtain ⟨_, _, _, _⟩ := g
    cases takes_none_iff.1 hname
    cases takes_none_iff.1 hparams
    cases takes_none_iff.1 hfilters
    cases takes_none_iff.1 hproperties
    rfl
  · rintro rfl
    exact ⟨.kept, .kept, .kept, .kept⟩

/-- What is given first for a field is not given again. -/
theorem takes_cons_iff {α : Type} {Stands : Json → α → Prop} {before after : Option α} {j : Json}
    {field : JsonField} {entries : List (JsonField × Json)} (h : field ∉ entries.map Prod.fst) :
    Takes Stands before (((field, j) :: entries).lookup field) after ↔
      ∃ a, Stands j a ∧ Takes Stands (some a) (entries.lookup field) after := by
  have hnone : entries.lookup field = none := by
    rw [List.lookup_eq_none_iff]
    intro e he
    rw [bne_iff_ne]
    rintro rfl
    exact h (List.mem_map_of_mem he)
  simp only [List.lookup_cons_self, hnone, takes_none_iff, takes_some_iff]

theorem isRead_cons {field : JsonField} {j : Json} {entries : List (JsonField × Json)}
    {f g : Fields} (h : field ∉ entries.map Prod.fst) :
    IsRead kind ((field, j) :: entries) f g ↔
      ∃ f', IsSet kind f field j f' ∧ IsRead kind entries f' g := by
  cases field with
  | name =>
    constructor
    · rintro ⟨hname, hparams, hfilters, hproperties⟩
      obtain ⟨s, rfl, hrest⟩ := (takes_cons_iff h).1 hname
      exact ⟨_, .name, hrest, hparams, hfilters, hproperties⟩
    · rintro ⟨f', hset, hname, hparams, hfilters, hproperties⟩
      cases hset with
      | name => exact ⟨(takes_cons_iff h).2 ⟨_, rfl, hname⟩, hparams, hfilters, hproperties⟩
  | params =>
    constructor
    · rintro ⟨hname, hparams, hfilters, hproperties⟩
      obtain ⟨v, hv, hrest⟩ := (takes_cons_iff h).1 hparams
      exact ⟨_, .params hv, hname, hrest, hfilters, hproperties⟩
    · rintro ⟨f', hset, hname, hparams, hfilters, hproperties⟩
      cases hset with
      | params hv => exact ⟨hname, (takes_cons_iff h).2 ⟨_, hv, hparams⟩, hfilters, hproperties⟩
  | filters =>
    constructor
    · rintro ⟨hname, hparams, hfilters, hproperties⟩
      obtain ⟨fs, hf, hrest⟩ := (takes_cons_iff h).1 hfilters
      exact ⟨_, .filters hf, hname, hparams, hrest, hproperties⟩
    · rintro ⟨f', hset, hname, hparams, hfilters, hproperties⟩
      cases hset with
      | filters hf => exact ⟨hname, hparams, (takes_cons_iff h).2 ⟨_, hf, hfilters⟩, hproperties⟩
  | properties =>
    constructor
    · rintro ⟨hname, hparams, hfilters, hproperties⟩
      obtain ⟨o, ho, hrest⟩ := (takes_cons_iff h).1 hproperties
      exact ⟨_, .properties ho, hname, hparams, hfilters, hrest⟩
    · rintro ⟨f', hset, hname, hparams, hfilters, hproperties⟩
      cases hset with
      | properties ho =>
        exact ⟨hname, hparams, hfilters, (takes_cons_iff h).2 ⟨_, ho, hproperties⟩⟩

theorem assignAll_eq_ok_iff (hp : ∀ r, room = r + 1 → ReadsProperties delivery r)
    {entries : List (JsonField × Json)} (hn : (entries.map Prod.fst).Nodup) {f g : Fields} :
    assignAll delivery kind room f entries = .ok g ↔
      (∀ e ∈ entries, e.2.nesting ≤ room) ∧ IsRead kind entries f g := by
  induction entries generalizing f with
  | nil => simp [assignAll, isRead_nil]
  | cons e entries ih =>
    obtain ⟨field, j⟩ := e
    rw [List.map_cons, List.nodup_cons] at hn
    simp only [assignAll, bind_eq_ok_iff, assign_eq_ok_iff hp, ih hn.2, isRead_cons hn.1,
      List.forall_mem_cons]
    constructor
    · rintro ⟨f', ⟨hj, hset⟩, hrest, hread⟩
      exact ⟨⟨hj, hrest⟩, f', hset, hread⟩
    · rintro ⟨⟨hj, hrest⟩, f', hset, hread⟩
      exact ⟨f', ⟨hj, hset⟩, hrest, hread⟩

/-! ## Records and documents -/

theorem finish_eq_ok_iff {f : Fields} {r : Record} :
    finish kind f = .ok r ↔ f.name = some r.header.name ∧ f.params = r.header.params ∧
      f.filters.getD [] = r.header.filters ∧ f.properties.join = r.properties ∧
      (kind = .selection → f.properties.isSome = true) := by
  obtain ⟨⟨n, params, filters⟩, properties⟩ := r
  unfold finish
  cases f.name with
  | none => simp
  | some name =>
    cases kind <;> cases f.properties <;> simp [and_assoc]

theorem takes_of_none_iff {α : Type} {Stands : Json → α → Prop} {o : Option Json}
    {after : Option α} : Takes Stands none o after ↔ Option.Rel Stands o after := by
  constructor
  · rintro (_ | ha)
    · exact .none
    · exact .some ha
  · rintro (ha | _)
    · exact .given ha
    · exact .kept

/-- Filters that are left out are as good as null. -/
theorem rel_isFilters_iff {o : Option Json} {fs : List Filter} :
    (∃ p, Option.Rel IsFilters o p ∧ p.getD [] = fs) ↔ IsFilters (o.getD .null) fs := by
  cases o with
  | none =>
    constructor
    · rintro ⟨p, ⟨⟩, rfl⟩
      exact .null
    · rintro ⟨⟩
      exact ⟨none, .none, rfl⟩
  | some j =>
    constructor
    · rintro ⟨p, hp, rfl⟩
      cases hp with
      | some hf => exact hf
    · intro hf
      exact ⟨some fs, .some hf, rfl⟩

theorem rel_isBody_iff {o : Option Json} {b : Option (List Property)} :
    (∃ p, Option.Rel (fun j => IsBody kind (some j)) o p ∧ p.join = b ∧
      (kind = .selection → p.isSome = true)) ↔ IsBody kind o b := by
  cases o with
  | none =>
    constructor
    · rintro ⟨p, ⟨⟩, rfl, hkind⟩
      cases kind with
      | selection => cases hkind rfl
      | property => exact .absent
    · rintro ⟨⟩
      exact ⟨none, .none, rfl, fun h => by cases h⟩
  | some j =>
    constructor
    · rintro ⟨p, hp, rfl, -⟩
      cases hp with
      | some hb => exact hb
    · intro hb
      exact ⟨some b, .some hb, rfl, fun _ => rfl⟩

/-- What is read of a record and completed is its header and what it has for properties. -/
theorem isRead_finish_iff {entries : List (JsonField × Json)} {r : Record} :
    (∃ g, IsRead kind entries {} g ∧ finish kind g = .ok r) ↔
      IsHeader entries r.header ∧ IsBody kind (entries.lookup .properties) r.properties := by
  constructor
  · rintro ⟨g, ⟨hname, hparams, hfilters, hproperties⟩, hfinish⟩
    obtain ⟨hn, hp, hf, hb, hkind⟩ := finish_eq_ok_iff.1 hfinish
    rw [takes_of_none_iff] at hname hparams hfilters hproperties
    rw [hn] at hname
    rw [hp] at hparams
    refine ⟨⟨?_, hparams, rel_isFilters_iff.1 ⟨_, hfilters, hf⟩⟩,
      rel_isBody_iff.1 ⟨_, hproperties, hb, hkind⟩⟩
    generalize entries.lookup .name = o at hname
    cases hname with
    | some h => rw [h]
  · rintro ⟨⟨hname, hparams, hfilters⟩, hbody⟩
    obtain ⟨fs, hfilters, hf⟩ := rel_isFilters_iff.2 hfilters
    obtain ⟨ps, hproperties, hb, hkind⟩ := rel_isBody_iff.2 hbody
    refine ⟨⟨some r.header.name, r.header.params, fs, ps⟩, ⟨?_, takes_of_none_iff.2 hparams,
      takes_of_none_iff.2 hfilters, takes_of_none_iff.2 hproperties⟩,
      finish_eq_ok_iff.2 ⟨rfl, rfl, hf, hb, hkind⟩⟩
    rw [hname]
    exact .given rfl

/-- A record is read field by field, by keys or in places, and completed. -/
theorem record_eq_ok_iff_assignAll (hp : ∀ r, room = r + 2 → ReadsProperties delivery r) {j : Json}
    {r : Record} :
    record delivery kind room j = .ok r ↔ ∃ r', room = r' + 1 ∧ ∃ entries, IsWritten j entries ∧
      ∃ g, assignAll delivery kind r' {} entries = .ok g ∧ finish kind g = .ok r := by
  cases j with
  | array parts =>
    simp only [record, enter_eq_ok_iff, bind_eq_ok_iff, positional_eq_ok_iff]
    constructor
    · rintro ⟨r', rfl, g, ⟨hlength, hall⟩, hfinish⟩
      exact ⟨r', rfl, _, .array hlength, g, hall, hfinish⟩
    · rintro ⟨r', rfl, entries, hj, g, hall, hfinish⟩
      cases hj with
      | array hlength => exact ⟨r', rfl, g, ⟨hlength, hall⟩, hfinish⟩
  | object members =>
    simp only [record, enter_eq_ok_iff, bind_eq_ok_iff]
    constructor
    · rintro ⟨r', rfl, g, hkeyed, hfinish⟩
      obtain ⟨entries, rfl, hnodup, -, hall⟩ :=
        (keyed_eq_ok_iff fun r h => hp r (congrArg Nat.succ h)).1 hkeyed
      exact ⟨r', rfl, entries, .object hnodup, g, hall, hfinish⟩
    · rintro ⟨r', rfl, entries, hj, g, hall, hfinish⟩
      cases hj with
      | object hnodup =>
        have hnew : ∀ e ∈ entries, ({} : Fields).has e.1 = false := by
          rintro ⟨field, j⟩ -
          cases field <;> rfl
        exact ⟨r', rfl, g, (keyed_eq_ok_iff fun r h => hp r (congrArg Nat.succ h)).2
          ⟨entries, rfl, hnodup, hnew, hall⟩, hfinish⟩
  | _ =>
    constructor
    · intro h
      simp only [record] at h
      exact (mismatch_ne_ok h).elim
    · rintro ⟨_, -, _, ⟨⟩, -⟩

theorem record_eq_ok_iff (hp : ∀ r, room = r + 2 → ReadsProperties delivery r) {j : Json}
    {r : Record} :
    record delivery kind room j = .ok r ↔ j.nesting ≤ room ∧ ∃ entries, IsWritten j entries ∧
      IsHeader entries r.header ∧ IsBody kind (entries.lookup .properties) r.properties := by
  rw [record_eq_ok_iff_assignAll hp]
  constructor
  · rintro ⟨r', rfl, entries, hj, g, hall, hfinish⟩
    obtain ⟨hn, hread⟩ :=
      (assignAll_eq_ok_iff (fun r h => hp r (congrArg Nat.succ h)) hj.nodup).1 hall
    exact ⟨hj.nesting_le_iff.2 ⟨r', rfl, hn⟩, entries, hj,
      isRead_finish_iff.1 ⟨g, hread, hfinish⟩⟩
  · rintro ⟨hn, entries, hj, h⟩
    obtain ⟨r', rfl, hr⟩ := hj.nesting_le_iff.1 hn
    obtain ⟨g, hread, hfinish⟩ := isRead_finish_iff.2 h
    exact ⟨r', rfl, entries, hj, g,
      (assignAll_eq_ok_iff (fun r h => hp r (congrArg Nat.succ h)) hj.nodup).2 ⟨hr, hread⟩,
      hfinish⟩

theorem isBody_none_iff {o : Option Json} :
    IsBody kind o none ↔ kind = .property ∧ o.getD .null = .null := by
  constructor
  · rintro ⟨⟩ <;> exact ⟨rfl, rfl⟩
  · rintro ⟨rfl, h⟩
    cases o with
    | none => exact .absent
    | some j =>
      obtain rfl : j = .null := h
      exact .null

theorem isBody_some_iff {o : Option Json} {ps : List Property} :
    IsBody kind o (some ps) ↔ ∃ items, o = some (.array items) ∧ IsProperties items ps := by
  constructor
  · rintro ⟨⟩
    exact ⟨_, rfl, ‹_›⟩
  · rintro ⟨items, rfl, h⟩
    exact .array h

theorem toProperty_eq_ok_iff {r : Record} {p : Property} :
    r.toProperty = .ok p ↔
      (∃ ps, r.properties = some ps ∧ p = .selection r.header ps) ∨
      (r.properties = none ∧ ∃ n, r.header = ⟨n, none, []⟩ ∧ p = .field n) := by
  obtain ⟨⟨n, params, filters⟩, _ | ps⟩ := r
  · cases params <;> cases filters <;> simp [Record.toProperty, eq_comm]
  · simp [Record.toProperty, eq_comm]

theorem property_eq_ok_iff (hp : ∀ r, room = r + 2 → ReadsProperties delivery r) {j : Json}
    {p : Property} :
    property delivery room j = .ok p ↔ j.nesting ≤ room ∧ IsProperty j p := by
  simp only [property, bind_eq_ok_iff, record_eq_ok_iff hp, toProperty_eq_ok_iff]
  constructor
  · rintro ⟨⟨header, body⟩, ⟨hn, entries, hj, hheader, hbody⟩,
      ⟨ps, rfl, rfl⟩ | ⟨rfl, n, rfl, rfl⟩⟩
    · obtain ⟨items, hitems, hps⟩ := isBody_some_iff.1 hbody
      exact ⟨hn, .selection hj hheader hitems hps⟩
    · exact ⟨hn, .field hj hheader (isBody_none_iff.1 hbody).2⟩
  · rintro ⟨hn, hj⟩
    cases hj with
    | @field _ entries n hj hheader hnone =>
      exact ⟨⟨⟨n, none, []⟩, none⟩,
        ⟨hn, entries, hj, hheader, isBody_none_iff.2 ⟨rfl, hnone⟩⟩, .inr ⟨rfl, n, rfl, rfl⟩⟩
    | @selection _ entries header items ps hj hheader hitems hps =>
      exact ⟨⟨header, some ps⟩,
        ⟨hn, entries, hj, hheader, isBody_some_iff.2 ⟨items, hitems, hps⟩⟩, .inl ⟨ps, rfl, rfl⟩⟩

theorem properties_cons_eq_ok_iff {j : Json} {rest : List Json} {ps : List Property} :
    properties delivery room (j :: rest) = .ok ps ↔ ∃ p others, property delivery room j = .ok p ∧
      properties delivery room rest = .ok others ∧ ps = p :: others := by
  simp only [properties, property, bind_eq_ok_iff, pure_eq_ok_iff]
  constructor
  · rintro ⟨r, hr, p, hp, others, hothers, rfl⟩
    exact ⟨p, others, ⟨r, hr, hp⟩, hothers, rfl⟩
  · rintro ⟨p, others, ⟨r, hr, hp⟩, hothers, rfl⟩
    exact ⟨r, hr, p, hp, others, hothers, rfl⟩

/-- By induction on the room, of which every record in the list takes two, for itself and for the
array of its properties. -/
theorem readsProperties (delivery : Delivery) (room : Nat) : ReadsProperties delivery room := by
  induction room using Nat.strongRecOn with
  | ind room ih =>
    intro items
    induction items with
    | nil =>
      intro ps
      constructor
      · rintro ⟨⟩
        exact ⟨by simp, .nil⟩
      · rintro ⟨-, ⟨⟩⟩
        rfl
    | cons j rest ihrest =>
      intro ps
      have hp : ∀ r, room = r + 2 → ReadsProperties delivery r := fun r h => ih r (by omega)
      simp only [properties_cons_eq_ok_iff, property_eq_ok_iff hp, ihrest, List.forall_mem_cons]
      constructor
      · rintro ⟨p, others, ⟨hn, hj⟩, ⟨hrest, hothers⟩, rfl⟩
        exact ⟨⟨hn, hrest⟩, .cons hj hothers⟩
      · rintro ⟨⟨hn, hrest⟩, hps⟩
        cases hps with
        | cons hj hothers => exact ⟨_, _, ⟨hn, hj⟩, ⟨hrest, hothers⟩, rfl⟩

end

theorem selection_eq_ok_iff {delivery : Delivery} {room : Nat} {j : Json} {s : Selection} :
    selection delivery room j = .ok s ↔ j.nesting ≤ room ∧ IsProperty j (.ofSelection s) := by
  simp only [selection, bind_eq_ok_iff, pure_eq_ok_iff,
    record_eq_ok_iff fun r _ => readsProperties delivery r]
  constructor
  · rintro ⟨⟨header, body⟩, ⟨hn, entries, hj, hheader, hbody⟩, rfl⟩
    cases body with
    | none => cases (isBody_none_iff.1 hbody).1
    | some ps =>
      obtain ⟨items, hitems, hps⟩ := isBody_some_iff.1 hbody
      exact ⟨hn, .selection hj hheader hitems hps⟩
  · rintro ⟨hn, hj⟩
    cases hj with
    | @selection _ entries header items ps hj hheader hitems hps =>
      exact ⟨⟨s.toHeader, some s.properties⟩,
        ⟨hn, entries, hj, hheader, isBody_some_iff.2 ⟨items, hitems, hps⟩⟩, rfl⟩

theorem document_eq_ok_iff {delivery : Delivery} {room : Nat} {j : Json} {d : Document} :
    document delivery room j = .ok d ↔ j.nesting ≤ room ∧ IsDocument j d := by
  cases j with
  | array parts =>
    simp only [document, enter_eq_ok_iff, bind_eq_ok_iff, pure_eq_ok_iff, items_eq_ok_iff,
      selection_eq_ok_iff, List.forall₂_and_left, Json.nesting_array_le_iff]
    constructor
    · rintro ⟨r, rfl, selections, ⟨hn, hs⟩, rfl⟩
      exact ⟨⟨r, rfl, hn⟩, .intro hs⟩
    · rintro ⟨⟨r, rfl, hn⟩, ⟨hs⟩⟩
      exact ⟨r, rfl, _, ⟨hn, hs⟩, rfl⟩
  | _ =>
    constructor
    · intro h
      simp only [document] at h
      exact (mismatch_ne_ok h).elim
    · rintro ⟨-, ⟨⟩⟩

end QueryMarkup.Decode
