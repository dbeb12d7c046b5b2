import QueryMarkup.Proofs.Printing.Pieces

/-!
# Repaired documents

A document is repaired by putting finite doubles in the place of those that are none, each one
chosen freely; nothing else changes. Then validation comes to the same, and the layouts have the
same pieces but for the literals that were replaced. `Document.repair` is one way to do it.
-/

namespace QueryMarkup

/-- The same literal, or a finite double in the place of one that has no text. -/
def Literal.Repaired (l l' : Literal) : Prop :=
  (l.IsWritable ∧ l' = l) ∨ ¬ l.IsWritable ∧ ∃ x : Binary64, x.isFinite = true ∧ l' = .float x

inductive Value.Repaired : Value → Value → Prop where
  | literal {l l' : Literal} : l.Repaired l' → Repaired (.literal l) (.literal l')
  | mapping {m m' : ArgMap} :
      List.Forall₂ (fun e e' => e'.1 = e.1 ∧ Literal.Repaired e.2 e'.2) m.entries m'.entries →
      Repaired (.mapping m) (.mapping m')

structure Filter.Repaired (f f' : Filter) : Prop where
  name : f'.name = f.name
  value : f.value.Repaired f'.value

structure Header.Repaired (h h' : Header) : Prop where
  name : h'.name = h.name
  params : Option.Rel Value.Repaired h.params h'.params
  filters : List.Forall₂ Filter.Repaired h.filters h'.filters

mutual

inductive Property.Repaired : Property → Property → Prop where
  | field {name : String} : Repaired (.field name) (.field name)
  | selection {h h' : Header} {properties properties' : List Property} : h.Repaired h' →
      Property.ListRepaired properties properties' →
      Repaired (.selection h properties) (.selection h' properties')

inductive Property.ListRepaired : List Property → List Property → Prop where
  | nil : ListRepaired [] []
  | cons {p p' : Property} {rest rest' : List Property} : Property.Repaired p p' →
      ListRepaired rest rest' → ListRepaired (p :: rest) (p' :: rest')

end

/-- The second document is the first one with finite doubles for those that are not. -/
def Document.Repaired (d d' : Document) : Prop :=
  Property.ListRepaired (d.selections.map .ofSelection) (d'.selections.map .ofSelection)

theorem Literal.Repaired.isWritable {l l' : Literal} (h : l.Repaired l') : l'.IsWritable := by
  rcases h with ⟨hl, rfl⟩ | ⟨-, x, hx, rfl⟩
  · exact hl
  · rintro _ ⟨⟩
    exact hx

/-! ## A repair -/

/-- Zero in the place of a double that is not finite. -/
def Literal.repair : Literal → Literal
  | .float x => if x.isFinite then .float x else .float (.zero false)
  | l => l

theorem Literal.repaired_repair (l : Literal) : l.Repaired l.repair := by
  cases l with
  | float x =>
    by_cases hx : x.isFinite = true
    · refine .inl ⟨?_, by rw [repair, if_pos hx]⟩
      rintro _ ⟨⟩
      exact hx
    · exact .inr ⟨fun h => hx (h x rfl), .zero false, by decide, by rw [repair, if_neg hx]⟩
  | _ => exact .inl ⟨by rintro _ ⟨⟩, rfl⟩

def Value.repair : Value → Value
  | .literal l => .literal l.repair
  | .mapping m => .mapping ⟨m.entries.map fun e => (e.1, e.2.repair), by
      rw [List.map_map]
      exact m.nodup_keys⟩

theorem Value.repaired_repair (v : Value) : v.Repaired v.repair := by
  cases v with
  | literal l => exact .literal l.repaired_repair
  | mapping m =>
    refine .mapping (List.forall₂_map_right_iff.2 (List.forall₂_same.2 fun e _ => ?_))
    exact ⟨rfl, e.2.repaired_repair⟩

def Header.repair (h : Header) : Header :=
  ⟨h.name, h.params.map Value.repair, h.filters.map fun f => ⟨f.name, f.value.repair⟩⟩

theorem Header.repaired_repair (h : Header) : h.Repaired h.repair where
  name := rfl
  params := by
    cases hp : h.params with
    | none => simp [repair, hp]
    | some v => simpa [repair, hp] using v.repaired_repair
  filters := List.forall₂_map_right_iff.2 (List.forall₂_same.2 fun f _ =>
    ⟨rfl, f.value.repaired_repair⟩)

mutual

def Property.repair : Property → Property
  | .field name => .field name
  | .selection h properties => .selection h.repair (Property.listRepair properties)

def Property.listRepair : List Property → List Property
  | [] => []
  | p :: rest => p.repair :: Property.listRepair rest

end

mutual

theorem Property.repaired_repair : (p : Property) → p.Repaired p.repair
  | .field _ => .field
  | .selection h properties => .selection h.repaired_repair (listRepaired_listRepair properties)

theorem Property.listRepaired_listRepair :
    (properties : List Property) → Property.ListRepaired properties (listRepair properties)
  | [] => .nil
  | p :: rest => .cons p.repaired_repair (listRepaired_listRepair rest)

end

def Document.repair (d : Document) : Document :=
  ⟨d.selections.map fun s => ⟨s.toHeader.repair, Property.listRepair s.properties⟩⟩

theorem Document.repaired_repair (d : Document) : d.Repaired d.repair := by
  have h : d.repair.selections.map Property.ofSelection =
      Property.listRepair (d.selections.map Property.ofSelection) := by
    rw [Document.repair, List.map_map]
    induction d.selections with
    | nil => rfl
    | cons s rest ih => exact congrArg (_ :: ·) ih
  rw [Document.Repaired, h]
  exact Property.listRepaired_listRepair _

/-! ## Validation -/

theorem Property.ListRepaired.isEmpty {properties properties' : List Property}
    (h : Property.ListRepaired properties properties') :
    properties'.isEmpty = properties.isEmpty := by
  cases h <;> rfl

namespace Validation

theorem keys_of_forall₂ {entries entries' : List (String × Literal)}
    (h : List.Forall₂ (fun e e' => e'.1 = e.1 ∧ Literal.Repaired e.2 e'.2) entries entries') :
    entries'.map Prod.fst = entries.map Prod.fst := by
  induction h with
  | nil => rfl
  | cons he _ ih => rw [List.map_cons, List.map_cons, he.1, ih]

theorem checkValue_repaired {v v' : Value} (h : v.Repaired v') : checkValue v' = checkValue v := by
  cases h with
  | literal => rfl
  | mapping hm => exact congrArg (checkNames .argument) (keys_of_forall₂ hm)

theorem checkParams_repaired {selection : String} {v v' : Option Value}
    (h : Option.Rel Value.Repaired v v') : checkParams selection v' = checkParams selection v := by
  cases h with
  | none => rfl
  | some hv =>
    cases hv with
    | literal => rfl
    | @mapping m m' hm =>
      have hkeys : m'.keys = m.keys := keys_of_forall₂ hm
      have hempty : m'.isEmpty = m.isEmpty := by
        have hisEmpty : ∀ m : ArgMap, m.isEmpty = m.keys.isEmpty := fun m => List.isEmpty_map.symm
        rw [hisEmpty, hisEmpty, hkeys]
      rw [checkParams, checkParams, hempty, hkeys]

theorem checkFilters_repaired {filters filters' : List Filter}
    (h : List.Forall₂ Filter.Repaired filters filters') :
    checkFilters filters' = checkFilters filters := by
  induction h with
  | nil => rfl
  | cons hf _ ih => rw [checkFilters, checkFilters, hf.name, checkValue_repaired hf.value, ih]

theorem checkHeader_repaired {depth : Nat} {h h' : Header} (hr : h.Repaired h') :
    checkHeader depth h' = checkHeader depth h := by
  rw [checkHeader, checkHeader, hr.name, checkParams_repaired hr.params,
    checkFilters_repaired hr.filters]

mutual

theorem checkProperty_repaired (depth : Nat) : (p : Property) → {p' : Property} → p.Repaired p' →
    checkProperty depth p' = checkProperty depth p
  | .field _, _, .field => rfl
  | .selection h properties, .selection _ _, .selection hh hp => by
    rw [checkProperty, checkProperty, checkHeader_repaired hh, hp.isEmpty, hh.name,
      checkProperties_repaired (depth + 1) properties hp]

theorem checkProperties_repaired (depth : Nat) : (properties : List Property) →
    {properties' : List Property} → Property.ListRepaired properties properties' →
    checkProperties depth properties' = checkProperties depth properties
  | [], _, .nil => rfl
  | p :: rest, _, .cons hp hrest => by
    rw [checkProperties, checkProperties, checkProperty_repaired depth p hp,
      checkProperties_repaired depth rest hrest]

end

end Validation

theorem Document.Repaired.validate {d d' : Document} (h : d.Repaired d') :
    d'.validate = d.validate := by
  have hempty : d'.isEmpty = d.isEmpty := by
    have hmap : ∀ d : Document, d.isEmpty = (d.selections.map Property.ofSelection).isEmpty :=
      fun d => List.isEmpty_map.symm
    rw [hmap, hmap]
    exact Property.ListRepaired.isEmpty h
  rw [Document.validate, Document.validate, hempty, Validation.checkSelections_eq,
    Validation.checkSelections_eq, Validation.checkProperties_repaired 0 _ h]

/-! ## Layouts -/

inductive Piece.Repaired : Piece → Piece → Prop where
  | sign {text : List Char} : Repaired (.sign text) (.sign text)
  | blank {text : List Char} : Repaired (.blank text) (.blank text)
  | literal {l l' : Literal} : l.Repaired l' → Repaired (.literal l) (.literal l')

/-- The same pieces but for literals that were replaced. -/
abbrev Piece.ListRepaired : List Piece → List Piece → Prop := List.Forall₂ Piece.Repaired

namespace Piece

theorem ListRepaired.isWritable {pieces pieces' : List Piece} (h : ListRepaired pieces pieces') :
    ∀ l ∈ literals pieces', l.IsWritable := by
  induction h with
  | nil =>
    intro l hl
    cases hl
  | cons hp _ ih =>
    intro l hl
    cases hp with
    | sign => exact ih l hl
    | blank => exact ih l hl
    | literal hr =>
      rcases List.mem_cons.1 hl with rfl | hl
      · exact hr.isWritable
      · exact ih l hl

/-- Pieces stay the same up to the first literal that is replaced. -/
theorem ListRepaired.exists_eq_append {front back pieces' : List Piece} {l : Literal}
    (h : ListRepaired (front ++ .literal l :: back) pieces')
    (hl : ∀ l ∈ literals front, l.IsWritable) :
    ∃ l' back', pieces' = front ++ .literal l' :: back' := by
  induction front generalizing pieces' with
  | nil =>
    cases h with
    | cons hp hrest =>
      cases hp with
      | literal _ => exact ⟨_, _, rfl⟩
  | cons p front ih =>
    cases h with
    | cons hp hrest =>
      obtain ⟨l', back', rfl⟩ := ih hrest fun k hk =>
        hl k (mem_literals.2 (List.mem_cons_of_mem _ (mem_literals.1 hk)))
      cases hp with
      | sign => exact ⟨l', back', rfl⟩
      | blank => exact ⟨l', back', rfl⟩
      | literal hr =>
        rcases hr with ⟨-, rfl⟩ | ⟨hnot, -⟩
        · exact ⟨l', back', rfl⟩
        · exact absurd (hl _ (mem_literals.2 (List.mem_cons_self ..))) hnot

end Piece

namespace Layout

open Piece (ListRepaired)

variable (indent : Nat)

theorem repaired_blank (text : List Char) :
    ListRepaired (blank indent text) (blank indent text) := by
  unfold blank
  split
  · exact .nil
  · exact .cons .blank .nil

theorem repaired_intercalate {separator : List Piece} (hs : ListRepaired separator separator)
    {parts parts' : List (List Piece)} (h : List.Forall₂ ListRepaired parts parts') :
    ListRepaired (separator.intercalate parts) (separator.intercalate parts') := by
  induction h with
  | nil => exact .nil
  | cons hpart hrest ih =>
    cases hrest with
    | nil => simpa only [List.intercalate_singleton] using hpart
    | cons hnext hrest =>
      rw [List.intercalate_cons_cons, List.intercalate_cons_cons]
      exact List.rel_append (List.rel_append hpart hs) ih

theorem repaired_argument {e e' : String × Literal} (hn : e'.1 = e.1) (hl : e.2.Repaired e'.2) :
    ListRepaired (argument indent e) (argument indent e') := by
  rw [argument, argument, hn]
  exact .cons .sign (.cons .sign (List.rel_append (repaired_blank indent _)
    (.cons (.literal hl) .nil)))

theorem repaired_arguments {v v' : Value} (h : v.Repaired v') :
    ListRepaired (arguments indent v) (arguments indent v') := by
  cases h with
  | literal hl => exact .cons .sign (.cons (.literal hl) (.cons .sign .nil))
  | mapping hm =>
    have hentries := List.Forall₂.imp (fun _ _ he => repaired_argument indent he.1 he.2) hm
    have hparts := List.forall₂_map_left_iff.2 (List.forall₂_map_right_iff.2 hentries)
    exact .cons .sign (List.rel_append
      (repaired_intercalate (.cons .sign (repaired_blank indent _)) hparts) (.cons .sign .nil))

theorem repaired_params {v v' : Option Value} (h : Option.Rel Value.Repaired v v') :
    ListRepaired (params indent v) (params indent v') := by
  cases h with
  | none => exact .nil
  | some hv => exact repaired_arguments indent hv

theorem repaired_filters {filters filters' : List Filter}
    (h : List.Forall₂ Filter.Repaired filters filters') :
    ListRepaired (filters.flatMap (filter indent)) (filters'.flatMap (filter indent)) := by
  induction h with
  | nil => exact .nil
  | cons hf _ ih =>
    rw [List.flatMap_cons, List.flatMap_cons, filter, filter, hf.name]
    exact List.rel_append (.cons .sign (.cons .sign (repaired_arguments indent hf.value))) ih

theorem repaired_header {h h' : Header} (hr : h.Repaired h') :
    ListRepaired (header indent h) (header indent h') := by
  rw [header, header, hr.name]
  exact .cons .sign (List.rel_append (repaired_params indent hr.params)
    (repaired_filters indent hr.filters))

theorem repaired_block (depth : Nat) {siblings siblings' : List (List Piece)}
    (h : List.Forall₂ ListRepaired siblings siblings') :
    ListRepaired (block indent depth siblings) (block indent depth siblings') :=
  have hseparator : ListRepaired (separator indent) (separator indent) :=
    .cons .sign (repaired_blank indent _)
  .cons .sign (List.rel_append (List.rel_append (List.rel_append (List.rel_append
    (repaired_blank indent _) (repaired_intercalate hseparator h)) (repaired_blank indent _))
    (repaired_blank indent _)) (.cons .sign .nil))

mutual

theorem repaired_property (depth : Nat) : (p : Property) → {p' : Property} → p.Repaired p' →
    ListRepaired (property indent depth p) (property indent depth p')
  | .field _, _, .field => by
    rw [property]
    exact List.rel_append (repaired_blank indent _) (.cons .sign .nil)
  | .selection _ properties, _, .selection hh hp => by
    rw [property, property]
    exact List.rel_append (List.rel_append (List.rel_append (repaired_blank indent _)
      (repaired_header indent hh)) (repaired_blank indent _))
      (repaired_block indent depth (repaired_each (depth + 1) properties hp))

theorem repaired_each (depth : Nat) : (properties : List Property) →
    {properties' : List Property} → Property.ListRepaired properties properties' →
    List.Forall₂ ListRepaired (each indent depth properties) (each indent depth properties')
  | [], _, .nil => .nil
  | p :: rest, _, .cons hp hrest =>
    .cons (repaired_property depth p hp) (repaired_each depth rest hrest)

end

theorem repaired_document {d d' : Document} (h : d.Repaired d') :
    ListRepaired (document indent d) (document indent d') :=
  repaired_block indent 0 (repaired_each indent 1 _ h)

end Layout

end QueryMarkup
