import QueryMarkup.Proofs.Printing.Outlets

/-!
# The violations of a document

Validation stops at the first thing that is wrong with a document. `Document.violations` goes on and
lists all of them in document order: for a selection its name, its depth, its parameters, its
filters, the lack of properties, and then the properties one by one. Only what is inside a selection
that stands too deep is left out. Validation tells the head of that list; so does printing, which
validates before it looks at any double.
-/

namespace QueryMarkup

namespace Violations

def ofName (role : NameRole) (name : String) : List Violation :=
  if Identifier.isIdentifier name.toList then [] else [.badName role name]

def ofValue : Value → List Violation
  | .literal _ => []
  | .mapping arguments => arguments.keys.flatMap (ofName .argument)

def ofParams (selection : String) : Option Value → List Violation
  | none => []
  | some (.literal _) => []
  | some (.mapping arguments) =>
    if arguments.isEmpty then [.emptyParams selection] else ofValue (.mapping arguments)

def ofFilter (f : Filter) : List Violation := ofName .filter f.name ++ ofValue f.value

/-- A selection needs properties. -/
def ofBody (selection : String) (properties : List Property) : List Violation :=
  if properties.isEmpty then [.noProperties selection] else []

mutual

/-- The violations of a property of a selection that is itself `depth` deep. -/
def ofProperty (depth : Nat) : Property → List Violation
  | .field name => ofName .field name
  | .selection header properties =>
    ofName .selection header.name ++
      if maxNesting < depth + 1 then [.tooDeep header.name]
      else
        ofParams header.name header.params ++ header.filters.flatMap ofFilter
          ++ ofBody header.name properties ++ ofProperties (depth + 1) properties

def ofProperties (depth : Nat) : List Property → List Violation
  | [] => []
  | p :: rest => ofProperty depth p ++ ofProperties depth rest

end

end Violations

/-- All violations in document order. -/
def Document.violations (d : Document) : List Violation :=
  if d.isEmpty then [.noSelections]
  else Violations.ofProperties 0 (d.selections.map Property.ofSelection)

namespace Violations

/-- Fails with the first violation, if there is one. -/
def raise : List Violation → Except Violation Unit
  | [] => .ok ()
  | v :: _ => .error v

theorem raise_append (a b : List Violation) :
    raise (a ++ b) = (do raise a; raise b) := by
  cases a with
  | nil => rfl
  | cons v a => rfl

theorem raise_eq_ok_iff {a : List Violation} : raise a = .ok () ↔ a = [] := by
  cases a with
  | nil => exact ⟨fun _ => rfl, fun _ => rfl⟩
  | cons v a => exact ⟨nofun, nofun⟩

end Violations

namespace Validation

open Violations

theorem checkName_eq (role : NameRole) (name : String) :
    checkName role name = raise (ofName role name) := by
  unfold checkName ofName
  split <;> rfl

theorem checkNames_eq (role : NameRole) (names : List String) :
    checkNames role names = raise (names.flatMap (ofName role)) := by
  induction names with
  | nil => rfl
  | cons n names ih => rw [checkNames, List.flatMap_cons, raise_append, checkName_eq, ih]

theorem checkValue_eq (v : Value) : checkValue v = raise (ofValue v) := by
  cases v with
  | literal l => rfl
  | mapping m => exact checkNames_eq .argument m.keys

theorem checkParams_eq (selection : String) (params : Option Value) :
    checkParams selection params = raise (ofParams selection params) := by
  cases params with
  | none => rfl
  | some v =>
    cases v with
    | literal l => rfl
    | mapping m =>
      rw [checkParams, ofParams]
      split
      · rfl
      · exact checkNames_eq .argument m.keys

theorem checkFilters_eq (filters : List Filter) :
    checkFilters filters = raise (filters.flatMap ofFilter) := by
  induction filters with
  | nil => rfl
  | cons f filters ih =>
    rw [checkFilters, List.flatMap_cons, raise_append, ofFilter, raise_append, checkName_eq,
      checkValue_eq, ih, bind_assoc]

mutual

theorem checkProperty_eq (depth : Nat) :
    (p : Property) → checkProperty depth p = raise (ofProperty depth p)
  | .field name => by rw [checkProperty, ofProperty, checkName_eq]
  | .selection header properties => by
    have hbody : (do
        if properties.isEmpty then throw (.noProperties header.name)
        checkProperties (depth + 1) properties) = (do
        raise (ofBody header.name properties)
        raise (ofProperties (depth + 1) properties)) := by
      rw [checkProperties_eq (depth + 1) properties, ofBody]
      split <;> rfl
    rw [checkProperty, ofProperty, checkHeader, checkName_eq, hbody]
    -- One that stands too deep is not looked into any further, by either side.
    by_cases hdeep : maxNesting < depth + 1
    · rw [if_pos hdeep, if_pos hdeep, raise_append, bind_assoc]
      rfl
    · rw [if_neg hdeep, if_neg hdeep, checkParams_eq, checkFilters_eq]
      simp only [raise_append, bind_assoc]

theorem checkProperties_eq (depth : Nat) : (properties : List Property) →
    checkProperties depth properties = raise (ofProperties depth properties)
  | [] => by rw [checkProperties, ofProperties, raise]
  | p :: rest => by
    rw [checkProperties, ofProperties, raise_append, checkProperty_eq depth p,
      checkProperties_eq depth rest]

end

end Validation

/-! ## Names

A document without violations has identifiers for names. -/

def Value.names : Value → List String
  | .literal _ => []
  | .mapping m => m.keys

def Filter.names (f : Filter) : List String := f.name :: f.value.names

def Header.names (h : Header) : List String :=
  h.name :: (h.params.toList.flatMap Value.names ++ h.filters.flatMap Filter.names)

mutual

def Property.names : Property → List String
  | .field name => [name]
  | .selection header properties => header.names ++ Property.listNames properties

def Property.listNames : List Property → List String
  | [] => []
  | p :: rest => p.names ++ Property.listNames rest

end

def Document.names (d : Document) : List String :=
  Property.listNames (d.selections.map Property.ofSelection)

def AreIdentifiers (names : List String) : Prop :=
  ∀ n ∈ names, Identifier.isIdentifier n.toList = true

theorem areIdentifiers_append {s t : List String} :
    AreIdentifiers (s ++ t) ↔ AreIdentifiers s ∧ AreIdentifiers t := List.forall_mem_append

theorem areIdentifiers_cons {n : String} {s : List String} :
    AreIdentifiers (n :: s) ↔ Identifier.isIdentifier n.toList = true ∧ AreIdentifiers s :=
  List.forall_mem_cons

theorem areIdentifiers_flatMap {α : Type} {names : α → List String} {as : List α} :
    AreIdentifiers (as.flatMap names) ↔ ∀ a ∈ as, AreIdentifiers (names a) := by
  simp only [AreIdentifiers, List.mem_flatMap]
  exact ⟨fun h a ha n hn => h n ⟨a, ha, hn⟩, fun h n ⟨a, ha, hn⟩ => h a ha n hn⟩

theorem areIdentifiers_header {h : Header} :
    AreIdentifiers h.names ↔ Identifier.isIdentifier h.name.toList = true ∧
      (∀ v ∈ h.params.toList, AreIdentifiers v.names) ∧
      ∀ f ∈ h.filters, Identifier.isIdentifier f.name.toList = true ∧
        AreIdentifiers f.value.names := by
  rw [Header.names, areIdentifiers_cons, areIdentifiers_append, areIdentifiers_flatMap,
    areIdentifiers_flatMap]
  simp only [Filter.names, areIdentifiers_cons]

namespace Violations

theorem ofName_eq_nil {role : NameRole} {name : String} (h : ofName role name = []) :
    Identifier.isIdentifier name.toList = true := by
  unfold ofName at h
  split at h
  · assumption
  · cases h

theorem areIdentifiers_of_ofValue {v : Value} (h : ofValue v = []) : AreIdentifiers v.names := by
  intro n hn
  cases v with
  | literal l => cases hn
  | mapping m => exact ofName_eq_nil (List.flatMap_eq_nil_iff.1 h n hn)

theorem areIdentifiers_of_ofParams {selection : String} {params : Option Value}
    (h : ofParams selection params = []) : ∀ v ∈ params.toList, AreIdentifiers v.names := by
  intro v hv
  obtain rfl := Option.mem_toList.1 hv
  cases v with
  | literal l => exact areIdentifiers_of_ofValue rfl
  | mapping m =>
    rw [ofParams] at h
    split at h
    · cases h
    · exact areIdentifiers_of_ofValue h

theorem areIdentifiers_of_ofFilter {f : Filter} (h : ofFilter f = []) :
    Identifier.isIdentifier f.name.toList = true ∧ AreIdentifiers f.value.names := by
  obtain ⟨hname, hvalue⟩ := List.append_eq_nil_iff.1 h
  exact ⟨ofName_eq_nil hname, areIdentifiers_of_ofValue hvalue⟩

/-- A selection without violations has properties, and its header has identifiers for names. -/
theorem ofProperty_selection_eq_nil {depth : Nat} {header : Header} {properties : List Property}
    (h : ofProperty depth (.selection header properties) = []) :
    AreIdentifiers header.names ∧ properties ≠ [] ∧ ofProperties (depth + 1) properties = [] := by
  rw [ofProperty] at h
  obtain ⟨hname, h⟩ := List.append_eq_nil_iff.1 h
  split at h
  · cases h
  · obtain ⟨h, hproperties⟩ := List.append_eq_nil_iff.1 h
    obtain ⟨h, hbody⟩ := List.append_eq_nil_iff.1 h
    obtain ⟨hparams, hfilters⟩ := List.append_eq_nil_iff.1 h
    refine ⟨areIdentifiers_header.2 ⟨ofName_eq_nil hname, areIdentifiers_of_ofParams hparams, ?_⟩,
      ?_, hproperties⟩
    · exact fun f hf => areIdentifiers_of_ofFilter (List.flatMap_eq_nil_iff.1 hfilters f hf)
    · rintro rfl
      cases hbody

mutual

theorem areIdentifiers_of_ofProperty (depth : Nat) : (p : Property) → ofProperty depth p = [] →
    AreIdentifiers p.names
  | .field name, h => by
    rw [ofProperty] at h
    exact areIdentifiers_cons.2 ⟨ofName_eq_nil h, fun n hn => by cases hn⟩
  | .selection header properties, h => by
    obtain ⟨hheader, -, hproperties⟩ := ofProperty_selection_eq_nil h
    rw [Property.names, areIdentifiers_append]
    exact ⟨hheader, areIdentifiers_of_ofProperties (depth + 1) properties hproperties⟩

theorem areIdentifiers_of_ofProperties (depth : Nat) : (properties : List Property) →
    ofProperties depth properties = [] → AreIdentifiers (Property.listNames properties)
  | [], _ => fun n hn => by cases hn
  | p :: rest, h => by
    rw [ofProperties] at h
    obtain ⟨hp, hrest⟩ := List.append_eq_nil_iff.1 h
    rw [Property.listNames, areIdentifiers_append]
    exact ⟨areIdentifiers_of_ofProperty depth p hp, areIdentifiers_of_ofProperties depth rest hrest⟩

end

end Violations

/-! ## The first violation -/

namespace Document

theorem validate_eq_raise (d : Document) : d.validate = Violations.raise d.violations := by
  unfold validate violations
  split
  · rfl
  · rw [Validation.checkSelections_eq, Validation.checkProperties_eq]

theorem validate_eq_ok_iff {d : Document} : d.validate = .ok () ↔ d.violations = [] := by
  rw [validate_eq_raise, Violations.raise_eq_ok_iff]

theorem ofProperties_eq_nil {d : Document} (h : d.validate = .ok ()) :
    d.selections ≠ [] ∧
      Violations.ofProperties 0 (d.selections.map Property.ofSelection) = [] := by
  have hnone := validate_eq_ok_iff.1 h
  unfold violations at hnone
  split at hnone
  · cases hnone
  · rename_i hempty
    exact ⟨fun hnil => hempty (List.isEmpty_iff.2 hnil), hnone⟩

theorem areIdentifiers_names {d : Document} (h : d.validate = .ok ()) : AreIdentifiers d.names :=
  Violations.areIdentifiers_of_ofProperties 0 _ (ofProperties_eq_nil h).2

/-- A document without violations passes validation. Of any other the first one is reported, by
validation and by every printer, which then writes nothing. -/
theorem reports_first_violation (d : Document) :
    (d.validate = .ok () ↔ d.violations = []) ∧
      ∀ v later, d.violations = v :: later →
        d.validate = .error v ∧ (∀ o : PrintOptions, d.print o = .error (.violation v)) ∧
          ∀ p : Printer, p.print d = (.error (.violation v), p) := by
  refine ⟨validate_eq_ok_iff, fun v later h => ?_⟩
  have hv : d.validate = .error v := by rw [validate_eq_raise, h, Violations.raise]
  exact ⟨hv, print_of_violation hv, Printer.print_of_violation hv⟩

/-- An infinite double comes first, then a bad field, and deeper and behind it more violations. -/
theorem reports_first_violation_behind_infinity : ∃ d : Document,
    d.literals = [.float (.infinity false), .int 1] ∧
      d.violations = [.badName .field "1", .badName .argument "-", .noProperties "c",
        .emptyParams "d", .noProperties "d"] ∧
      d.validate = .error (.badName .field "1") ∧
      (∀ o : PrintOptions, d.print o = .error (.violation (.badName .field "1"))) ∧
      ∀ p : Printer, p.print d = (.error (.violation (.badName .field "1")), p) := by
  let c : Selection := .withFilter (.named "c") "f" (.mapping (.ofList [("-", .int 1)]))
  let a : Selection := .withParams (.named "a") (.literal (.float (.infinity false)))
  let d : Document :=
    ⟨[(a.withField "1").withSelection c, .withParams (.named "d") (.mapping .empty)]⟩
  have hviolations : d.violations = [.badName .field "1", .badName .argument "-", .noProperties "c",
      .emptyParams "d", .noProperties "d"] := by decide
  exact ⟨d, rfl, hviolations, (reports_first_violation d).2 _ _ hviolations⟩

end Document

end QueryMarkup
