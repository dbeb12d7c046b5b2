import QueryMarkup.Proofs.Interchange.Form

/-!
# Positions

A path of numbers leads from a document to one of its selections and on through lists of properties.
In the JSON form it leads through arrays of properties. Where one leads to a record the other leads
to a property, and the record stands for it.
-/

namespace QueryMarkup

namespace Json

/-- A record has this for a field, under its key or in its place. -/
inductive HasField : Json → JsonField → Json → Prop where
  | member {members : List (String × Json)} {field : JsonField} {j : Json} :
      (field.key, j) ∈ members → HasField (.object members) field j
  | place {parts : List Json} {field : JsonField} {j : Json} :
      (field, j) ∈ JsonField.all.zip parts → HasField (.array parts) field j

/-- A path leads from a record to one inside it. -/
inductive Leads : Json → List Nat → Json → Prop where
  | here {r : Json} : Leads r [] r
  | inside {r r' r'' : Json} {items : List Json} {i : Nat} {path : List Nat} :
      HasField r .properties (.array items) → items[i]? = some r' → Leads r' path r'' →
      Leads r (i :: path) r''

/-- A path leads from a document to a record. -/
inductive HasRecord : Json → List Nat → Json → Prop where
  | root {items : List Json} {r r' : Json} {i : Nat} {path : List Nat} :
      items[i]? = some r → Leads r path r' → HasRecord (.array items) (i :: path) r'

theorem Leads.trans {r r' r'' : Json} {path path' : List Nat} (h : Leads r path r')
    (h' : Leads r' path' r'') : Leads r (path ++ path') r'' := by
  induction h with
  | here => exact h'
  | inside hitems hi _ ih => exact .inside hitems hi (ih h')

theorem HasRecord.trans {j r r' : Json} {path path' : List Nat} (h : HasRecord j path r)
    (h' : Leads r path' r') : HasRecord j (path ++ path') r' := by
  cases h with
  | root hi hleads => exact .root hi (hleads.trans h')

end Json

def Property.at? (p : Property) : List Nat → Option Property
  | [] => some p
  | i :: path =>
    match p with
    | .field _ => none
    | .selection _ properties => properties[i]?.bind fun child => child.at? path

def Document.at? (d : Document) : List Nat → Option Property
  | [] => none
  | i :: path => d.selections[i]?.bind fun s => (Property.ofSelection s).at? path

namespace Interchange

/-! ## Records and properties in the same position -/

theorem IsWritten.lookup_eq_some_iff {j : Json} {entries : List (JsonField × Json)}
    (h : IsWritten j entries) {field : JsonField} {k : Json} :
    entries.lookup field = some k ↔ j.HasField field k := by
  rw [JsonField.lookup_eq_some_iff h.nodup]
  cases h with
  | object _ =>
    constructor
    · intro hk
      exact .member (JsonField.mem_members.2 hk)
    · intro hk
      cases hk with
      | member hk => exact JsonField.mem_members.1 hk
  | array _ =>
    constructor
    · intro hk
      exact .place hk
    · intro hk
      cases hk with
      | place hk => exact hk

/-- Two readings of a position lead nowhere, or to a record and to what it stands for. -/
structure Agree (leads : Json → Prop) (found : Option Property) : Prop where
  property : ∀ r, leads r → ∃ p, found = some p ∧ IsProperty r p
  record : ∀ p, found = some p → ∃ r, leads r ∧ IsProperty r p

theorem Agree.congr {leads leads' : Json → Prop} {found : Option Property}
    (h : Agree leads found) (hiff : ∀ r, leads' r ↔ leads r) : Agree leads' found := by
  obtain rfl : leads = leads' := funext fun r => propext (hiff r).symm
  exact h

theorem Agree.item {α : Type} {items : List Json} {as : List α} {leads : Json → Json → Prop}
    {found : α → Option Property}
    (h : List.Forall₂ (fun r a => Agree (leads r) (found a)) items as) (i : Nat) :
    Agree (fun r' => ∃ r, items[i]? = some r ∧ leads r r') (as[i]?.bind found) := by
  induction h generalizing i with
  | nil =>
    constructor
    · rintro r' ⟨_, ⟨⟩, -⟩
    · rintro p ⟨⟩
  | cons ha _ ih =>
    cases i with
    | zero => exact ha.congr fun r' => by simp
    | succ i => exact ih i

/-- By induction on the path, which takes the property apart. -/
theorem IsProperty.agree {r : Json} {p : Property} (h : IsProperty r p) (path : List Nat) :
    Agree (r.Leads path) (p.at? path) := by
  induction path generalizing r p with
  | nil =>
    constructor
    · rintro _ ⟨⟩
      exact ⟨p, rfl, h⟩
    · rintro _ ⟨⟩
      exact ⟨r, .here, h⟩
  | cons i path ih =>
    cases h with
    | field hr hheader hnone =>
      constructor
      · intro _ hleads
        cases hleads with
        | inside hitems _ _ =>
          rw [hr.lookup_eq_some_iff.2 hitems] at hnone
          cases hnone
      · rintro _ ⟨⟩
    | @selection _ entries header items ps hr hheader hitems hps =>
      refine (Agree.item ((isProperties_iff.1 hps).imp fun _ _ hp => ih hp) i).congr fun r'' => ?_
      constructor
      · intro hleads
        cases hleads with
        | inside hitems' hi hleads =>
          cases hitems.symm.trans (hr.lookup_eq_some_iff.2 hitems')
          exact ⟨_, hi, hleads⟩
      · rintro ⟨r', hi, hleads⟩
        exact .inside (hr.lookup_eq_some_iff.1 hitems) hi hleads

theorem IsDocument.agree {j : Json} {d : Document} (h : IsDocument j d) (path : List Nat) :
    Agree (j.HasRecord path) (d.at? path) := by
  cases h with
  | intro hs =>
    cases path with
    | nil =>
      constructor
      · rintro _ ⟨⟩
      · rintro _ ⟨⟩
    | cons i path =>
      refine (Agree.item (hs.imp fun _ _ hr => hr.agree path) i).congr fun r' => ?_
      constructor
      · rintro ⟨hi, hleads⟩
        exact ⟨_, hi, hleads⟩
      · rintro ⟨r, hi, hleads⟩
        exact .root hi hleads

end Interchange

end QueryMarkup
