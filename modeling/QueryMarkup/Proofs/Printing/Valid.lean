import QueryMarkup.Proofs.Markup.Size
import QueryMarkup.Proofs.Printing.Layout

/-!
# Derivations are valid

The document that a text is derived for passes validation if it is not nested too deep, and its
doubles are finite. The grammar and validation state the same conditions in different places: names
are tokens, lists have an item, `()` is no parameters but is a filter's empty mapping.
-/

namespace QueryMarkup

/-- All names among the tokens are identifiers. -/
def Named (tokens : List Token) : Prop :=
  ∀ n, .name n ∈ tokens → Identifier.isIdentifier n.toList = true

theorem Named.mono {s t : List Token} (h : Named t) (hs : s ⊆ t) : Named s :=
  fun n hn => h n (hs hn)

theorem Spells.named {text : List Char} {tokens : List Token} (h : Spells text tokens) :
    Named tokens := by
  induction h with
  | done _ =>
    intro n hn
    cases hn
  | next _ hw _ ih =>
    intro n hn
    rcases List.mem_cons.1 hn with rfl | hn
    · cases hw with
      | name hname => exact hname
    · exact ih n hn

namespace Validation

theorem checkName_ok {role : NameRole} {name : String}
    (h : Identifier.isIdentifier name.toList = true) : checkName role name = .ok () := by
  rw [checkName, if_pos h]

theorem checkNames_ok {role : NameRole} {names : List String}
    (h : ∀ name ∈ names, Identifier.isIdentifier name.toList = true) :
    checkNames role names = .ok () := by
  induction names with
  | nil => rfl
  | cons n names ih =>
    rw [checkNames, checkName_ok (h n (List.mem_cons_self ..))]
    exact ih fun name hname => h name (List.mem_cons_of_mem _ hname)

theorem checkFilters_ok {filters : List Filter}
    (h : ∀ f ∈ filters, checkName .filter f.name = .ok () ∧ checkValue f.value = .ok ()) :
    checkFilters filters = .ok () := by
  induction filters with
  | nil => rfl
  | cons f filters ih =>
    obtain ⟨hname, hvalue⟩ := h f (List.mem_cons_self ..)
    rw [checkFilters, hname]
    show (checkValue f.value >>= fun _ => checkFilters filters) = .ok ()
    rw [hvalue]
    exact ih fun g hg => h g (List.mem_cons_of_mem _ hg)

theorem checkHeader_ok {depth : Nat} {h : Header} (hdepth : depth ≤ maxNesting)
    (hname : checkName .selection h.name = .ok ()) (hparams : checkParams h.name h.params = .ok ())
    (hfilters : checkFilters h.filters = .ok ()) : checkHeader depth h = .ok () := by
  rw [checkHeader, hname, hparams, hfilters, if_neg (Nat.not_lt.2 hdepth)]
  rfl

theorem checkProperties_ok {depth : Nat} {properties : List Property}
    (h : ∀ p ∈ properties, checkProperty depth p = .ok ()) :
    checkProperties depth properties = .ok () := by
  induction properties with
  | nil => rfl
  | cons p properties ih =>
    rw [checkProperties, h p (List.mem_cons_self ..)]
    exact ih fun q hq => h q (List.mem_cons_of_mem _ hq)

theorem checkProperty_selection_ok {depth : Nat} {header : Header} {properties : List Property}
    (hheader : checkHeader (depth + 1) header = .ok ()) (hne : properties ≠ [])
    (hproperties : ∀ p ∈ properties, checkProperty (depth + 1) p = .ok ()) :
    checkProperty depth (.selection header properties) = .ok () := by
  rw [checkProperty, hheader, checkProperties_ok hproperties, if_neg (by simpa using hne)]
  rfl

theorem checkSelections_ok {selections : List Selection}
    (h : ∀ x ∈ selections, checkProperty 0 (.ofSelection x) = .ok ()) :
    checkSelections selections = .ok () := by
  induction selections with
  | nil => rfl
  | cons x selections ih =>
    rw [checkSelections, h x (List.mem_cons_self ..)]
    exact ih fun y hy => h y (List.mem_cons_of_mem _ hy)

end Validation

/-! ## Rules -/

theorem Lexeme.Denotes.isWritable {x : Lexeme} {l : Literal} (h : x.Denotes l) : l.IsWritable := by
  intro y hy
  cases h with
  | float _ hfinite => exact Literal.float.inj hy ▸ hfinite
  | _ => cases hy

namespace Grammar

/-- Values that can be printed: their names are identifiers and their doubles finite. -/
def IsPrintable (v : Value) : Prop :=
  Validation.checkValue v = .ok () ∧ ∀ l ∈ v.literals, l.IsWritable

theorem IsArguments.isPrintable {s : List Token} {a : Arguments}
    (h : IsArguments Lexeme.Denotes s a) (hs : Named s) : IsPrintable a.filterValue := by
  cases h with
  | none =>
    refine ⟨rfl, fun l hl => ?_⟩
    cases hl
  | positional hx =>
    refine ⟨rfl, fun l hl => ?_⟩
    obtain rfl := List.mem_singleton.1 hl
    exact hx.isWritable
  | @named t pairs m hpairs hm =>
    have hpair : ∀ e ∈ m.entries, Identifier.isIdentifier e.1.toList = true ∧ e.2.IsWritable := by
      intro e he
      rw [OrderedMap.collects_iff.1 hm] at he
      obtain ⟨u, hu, hitem⟩ := hpairs.exists_of_mem (OrderedMap.mem_of_mem_ofList he)
      cases hitem with
      | intro hx =>
        exact ⟨hs _ (by simp [hu (List.mem_cons_self ..)]), hx.isWritable⟩
    constructor
    · apply Validation.checkNames_ok
      intro name hname
      obtain ⟨e, he, rfl⟩ := List.mem_map.1 hname
      exact (hpair e he).1
    · intro l hl
      obtain ⟨e, he, rfl⟩ := List.mem_map.1 hl
      exact (hpair e he).2

/-- What is derived as parameters is absent or not the empty mapping. -/
theorem IsParams.isPrintable {s : List Token} {p : Option Value}
    (h : IsParams Lexeme.Denotes s p) (hs : Named s) (selection : String) :
    Validation.checkParams selection p = .ok () ∧
      ∀ l ∈ p.toList.flatMap Value.literals, l.IsWritable := by
  cases h with
  | absent => exact ⟨rfl, by simp⟩
  | @present _ a ha =>
    obtain ⟨hnames, hliterals⟩ := ha.isPrintable hs
    cases ha with
    | none => exact ⟨rfl, by simp [Arguments.params?]⟩
    | positional hx =>
      exact ⟨rfl, by simpa [Arguments.params?, Arguments.filterValue] using hliterals⟩
    | named hpairs hm =>
      refine ⟨?_, by simpa [Arguments.params?, Arguments.filterValue] using hliterals⟩
      rw [Arguments.params?, Validation.checkParams, if_neg]
      · exact hnames
      · simpa [OrderedMap.isEmpty] using hm.entries_ne_nil hpairs.ne_nil

theorem IsFilter.isPrintable {s : List Token} {f : Filter} (h : IsFilter Lexeme.Denotes s f)
    (hs : Named s) : Validation.checkName .filter f.name = .ok () ∧ IsPrintable f.value := by
  cases h with
  | intro ha =>
    refine ⟨Validation.checkName_ok (hs _ (by simp)), ha.isPrintable (hs.mono ?_)⟩
    exact fun x hx => List.mem_cons_of_mem _ (List.mem_cons_of_mem _ hx)

theorem IsHeader.isPrintable {s : List Token} {h : Header} (hh : IsHeader Lexeme.Denotes s h)
    (hs : Named s) {depth : Nat} (hdepth : depth ≤ maxNesting) :
    Validation.checkHeader depth h = .ok () ∧ ∀ l ∈ h.literals, l.IsWritable := by
  cases hh with
  | @intro n t u params filters hparams hfilters =>
    have hname : Validation.checkName .selection n = .ok () :=
      Validation.checkName_ok (hs n (List.mem_cons_self ..))
    have ht : Named t := hs.mono fun x hx => List.mem_cons_of_mem _ (List.mem_append_left _ hx)
    have hu : Named u := hs.mono fun x hx => List.mem_cons_of_mem _ (List.mem_append_right _ hx)
    obtain ⟨hpcheck, hpliterals⟩ := hparams.isPrintable ht n
    have hfilter : ∀ f ∈ filters,
        Validation.checkName .filter f.name = .ok () ∧ IsPrintable f.value := by
      intro f hf
      obtain ⟨v, hv, hitem⟩ := hfilters.exists_of_mem hf
      exact hitem.isPrintable (hu.mono hv)
    constructor
    · apply Validation.checkHeader_ok hdepth hname hpcheck
      exact Validation.checkFilters_ok fun f hf => ⟨(hfilter f hf).1, (hfilter f hf).2.1⟩
    · intro l hl
      rcases List.mem_append.1 hl with hl | hl
      · exact hpliterals l hl
      · obtain ⟨f, hf, hl⟩ := List.mem_flatMap.1 hl
        exact (hfilter f hf).2.2 l hl

theorem IsObject.isPrintable {room : Nat} {s : List Token} {x : Selection}
    (h : IsObject Lexeme.Denotes room s x) (hs : Named s) {depth : Nat}
    (hdepth : depth + room ≤ maxNesting) :
    Validation.checkProperty depth (.ofSelection x) = .ok () ∧
      ∀ l ∈ (Property.ofSelection x).literals, l.IsWritable := by
  induction room generalizing s x depth with
  | zero => exact h.elim
  | succ room ih =>
    cases h with
    | @intro t u header properties hheader hproperties =>
      have ht : Named t := hs.mono (List.subset_append_left _ _)
      have hu : Named u := hs.mono fun y hy =>
        List.mem_append_right _ (List.mem_cons_of_mem _ (List.mem_append_left _ hy))
      have hinside : depth + 1 ≤ maxNesting := by omega
      obtain ⟨hcheck, hliterals⟩ := hheader.isPrintable ht hinside
      have hproperty : ∀ p ∈ properties, Validation.checkProperty (depth + 1) p = .ok () ∧
          ∀ l ∈ p.literals, l.IsWritable := by
        intro p hp
        obtain ⟨v, hv, hitem⟩ := hproperties.exists_of_mem hp
        cases hitem with
        | field =>
          exact ⟨Validation.checkName_ok (hu _ (hv (by simp))), by simp [Property.literals]⟩
        | selection hy => exact ih hy (hu.mono hv) (by omega)
      constructor
      · exact Validation.checkProperty_selection_ok hcheck hproperties.ne_nil
          fun p hp => (hproperty p hp).1
      · intro l hl
        rcases List.mem_append.1 hl with hl | hl
        · exact hliterals l hl
        · obtain ⟨p, hp, hl⟩ := Property.mem_listLiterals.1 hl
          exact (hproperty p hp).2 l hl

/-- A document derived with no more room than validation leaves is valid. -/
theorem IsDocument.isPrintable {room : Nat} {s : List Token} {d : Document}
    (h : IsDocument Lexeme.Denotes room s d) (hs : Named s) (hroom : room ≤ maxNesting) :
    d.validate = .ok () ∧ ∀ l ∈ d.literals, l.IsWritable := by
  cases h with
  | @intro t selections hselections =>
    have ht : Named t := hs.mono fun x hx => List.mem_cons_of_mem _ (List.mem_append_left _ hx)
    have hselection : ∀ x ∈ selections, Validation.checkProperty 0 (.ofSelection x) = .ok () ∧
        ∀ l ∈ (Property.ofSelection x).literals, l.IsWritable := by
      intro x hx
      obtain ⟨u, hu, hobject⟩ := hselections.exists_of_mem hx
      exact hobject.isPrintable (ht.mono hu) (by omega)
    constructor
    · rw [Document.validate, if_neg (by simpa [Document.isEmpty] using hselections.ne_nil)]
      exact Validation.checkSelections_ok fun x hx => (hselection x hx).1
    · intro l hl
      obtain ⟨x, hx, hl⟩ := Document.mem_literals.1 hl
      exact (hselection x hx).2 l hl

end Grammar

end QueryMarkup
