import QueryMarkup.Proofs.Markup.Derivation

/-!
# The size of documents

The properties of a document at all depths, and how many selections, fields and filters they come
to. A root is a selection but no property of another one.

Nesting is how many selections stand inside each other, roots counted as one. The room of a
derivation bounds that number, and any other room that does so is as good.
-/

namespace QueryMarkup

mutual

/-- A property and all that are inside of it, in document order. -/
def Property.preorder : Property → List Property
  | .field name => [.field name]
  | .selection h properties => .selection h properties :: Property.listPreorder properties

def Property.listPreorder : List Property → List Property
  | [] => []
  | p :: rest => p.preorder ++ Property.listPreorder rest

end

/-- The filters of the property itself. -/
def Property.filters : Property → List Filter
  | .field _ => []
  | .selection h _ => h.filters

namespace Document

def properties (d : Document) : List Property :=
  Property.listPreorder (d.selections.map .ofSelection)

def fieldCount (d : Document) : Nat := d.properties.countP Property.isField

def selectionCount (d : Document) : Nat := d.properties.countP fun p => !p.isField

/-- The properties of selections, roots left out. -/
def propertyCount (d : Document) : Nat :=
  (d.selections.flatMap fun s => Property.listPreorder s.properties).length

def filterCount (d : Document) : Nat := (d.properties.flatMap Property.filters).length

end Document

/-! ## Nesting -/

mutual

def Property.nesting : Property → Nat
  | .field _ => 0
  | .selection _ properties => Property.listNesting properties + 1

def Property.listNesting : List Property → Nat
  | [] => 0
  | p :: rest => max p.nesting (Property.listNesting rest)

end

def Document.nesting (d : Document) : Nat :=
  Property.listNesting (d.selections.map Property.ofSelection)

theorem Property.listNesting_le_iff {properties : List Property} {n : Nat} :
    Property.listNesting properties ≤ n ↔ ∀ p ∈ properties, p.nesting ≤ n := by
  induction properties with
  | nil => simp [Property.listNesting]
  | cons p rest ih => simp only [Property.listNesting, Nat.max_le, ih, List.forall_mem_cons]

theorem Document.nesting_le_iff {d : Document} {n : Nat} :
    d.nesting ≤ n ↔ ∀ x ∈ d.selections, (Property.ofSelection x).nesting ≤ n := by
  simp [Document.nesting, Property.listNesting_le_iff]

namespace Grammar

section
variable {α : Type} {Item Item' : List Token → α → Prop} {s : List Token} {as : List α}

/-- The tokens of an item are among those of the list. -/
theorem Separated.exists_of_mem (h : Separated Item s as) {a : α} (ha : a ∈ as) :
    ∃ t, t ⊆ s ∧ Item t a := by
  induction h with
  | single hb =>
    obtain rfl := List.mem_singleton.1 ha
    exact ⟨_, List.Subset.refl _, hb⟩
  | cons hb _ ih =>
    rcases List.mem_cons.1 ha with rfl | ha
    · exact ⟨_, List.subset_append_left _ _, hb⟩
    · obtain ⟨t, ht, hitem⟩ := ih ha
      exact ⟨t, fun x hx => List.mem_append_right _ (List.mem_cons_of_mem _ (ht hx)), hitem⟩

theorem Separated.imp_of_mem (h : Separated Item s as)
    (hi : ∀ t, ∀ a ∈ as, Item t a → Item' t a) : Separated Item' s as := by
  induction h with
  | single hb => exact .single (hi _ _ (List.mem_singleton_self _) hb)
  | cons hb _ ih =>
    exact .cons (hi _ _ (List.mem_cons_self ..) hb)
      (ih fun t a ha => hi t a (List.mem_cons_of_mem _ ha))

theorem Separated.ne_nil (h : Separated Item s as) : as ≠ [] := by
  cases h <;> exact List.cons_ne_nil _ _

/-- The tokens of an item are among those of the repetition. -/
theorem Repeated.exists_of_mem (h : Repeated Item s as) {a : α} (ha : a ∈ as) :
    ∃ t, t ⊆ s ∧ Item t a := by
  induction h with
  | nil => cases ha
  | cons hb _ ih =>
    rcases List.mem_cons.1 ha with rfl | ha
    · exact ⟨_, List.subset_append_left _ _, hb⟩
    · obtain ⟨t, ht, hitem⟩ := ih ha
      exact ⟨t, fun x hx => List.mem_append_right _ (ht hx), hitem⟩

end

section
variable {Means : Lexeme → Literal → Prop}

theorem IsProperty.nesting_le {Nested : List Token → Selection → Prop} {n : Nat}
    (hn : ∀ s x, Nested s x → (Property.ofSelection x).nesting ≤ n) {s : List Token} {p : Property}
    (h : IsProperty Nested s p) : p.nesting ≤ n := by
  cases h with
  | field => exact Nat.zero_le _
  | selection hx => exact hn _ _ hx

theorem IsProperty.imp {Nested Nested' : List Token → Selection → Prop} {s : List Token}
    {p : Property} (h : IsProperty Nested s p)
    (hi : ∀ s x, p = .ofSelection x → Nested s x → Nested' s x) : IsProperty Nested' s p := by
  cases h with
  | field => exact .field
  | selection hx => exact .selection (hi _ _ rfl hx)

theorem IsObject.nesting_le {room : Nat} {s : List Token} {x : Selection}
    (h : IsObject Means room s x) : (Property.ofSelection x).nesting ≤ room := by
  induction room generalizing s x with
  | zero => exact h.elim
  | succ room ih =>
    cases h with
    | intro hheader hproperties =>
      refine Nat.succ_le_succ (Property.listNesting_le_iff.2 fun p hp => ?_)
      obtain ⟨t, -, hproperty⟩ := hproperties.exists_of_mem hp
      exact hproperty.nesting_le fun _ _ => ih

/-- The room of a derivation may be any that the selection needs. -/
theorem IsObject.of_nesting_le {room room' : Nat} {s : List Token} {x : Selection}
    (h : IsObject Means room s x) (hx : (Property.ofSelection x).nesting ≤ room') :
    IsObject Means room' s x := by
  induction room generalizing room' s x with
  | zero => exact h.elim
  | succ room ih =>
    cases h with
    | intro hheader hproperties =>
      cases room' with
      | zero => exact absurd hx (Nat.not_succ_le_zero _)
      | succ room' =>
        have hle := Property.listNesting_le_iff.1 (Nat.le_of_succ_le_succ hx)
        refine .intro hheader (hproperties.imp_of_mem fun t p hp hproperty => ?_)
        exact hproperty.imp fun s y hy hnested => ih hnested (hy ▸ hle p hp)

theorem IsDocument.nesting_le {room : Nat} {s : List Token} {d : Document}
    (h : IsDocument Means room s d) : d.nesting ≤ room := by
  cases h with
  | intro hselections =>
    refine Document.nesting_le_iff.2 fun x hx => ?_
    obtain ⟨t, -, hobject⟩ := hselections.exists_of_mem hx
    exact hobject.nesting_le

theorem IsDocument.of_nesting_le {room room' : Nat} {s : List Token} {d : Document}
    (h : IsDocument Means room s d) (hd : d.nesting ≤ room') : IsDocument Means room' s d := by
  cases h with
  | intro hselections =>
    have hle := Document.nesting_le_iff.1 hd
    exact .intro (hselections.imp_of_mem fun t x hx hobject => hobject.of_nesting_le (hle x hx))

end

end Grammar

end QueryMarkup
