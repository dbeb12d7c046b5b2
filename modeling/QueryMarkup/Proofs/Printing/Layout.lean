import QueryMarkup.Printer.Print
import QueryMarkup.Proofs.Printing.Literal

/-!
# Layouts are derivations

The pieces of a document that passes validation, written one behind the other, spell tokens that the
grammar derives for the document. Every rule of the layout is one of the grammar; the blanks between
the pieces make no difference.
-/

namespace QueryMarkup

def Value.literals : Value → List Literal
  | .literal l => [l]
  | .mapping m => m.values

def Header.literals (h : Header) : List Literal :=
  h.params.toList.flatMap Value.literals ++ h.filters.flatMap fun f => f.value.literals

mutual

def Property.literals : Property → List Literal
  | .field _ => []
  | .selection header properties => header.literals ++ Property.listLiterals properties

def Property.listLiterals : List Property → List Literal
  | [] => []
  | p :: rest => p.literals ++ Property.listLiterals rest

end

def Document.literals (d : Document) : List Literal :=
  Property.listLiterals (d.selections.map Property.ofSelection)

theorem Property.mem_listLiterals {l : Literal} {properties : List Property} :
    l ∈ Property.listLiterals properties ↔ ∃ p ∈ properties, l ∈ p.literals := by
  induction properties with
  | nil => simp [Property.listLiterals]
  | cons p properties ih => simp [Property.listLiterals, ih]

theorem Document.mem_literals {l : Literal} {d : Document} :
    l ∈ d.literals ↔ ∃ x ∈ d.selections, l ∈ (Property.ofSelection x).literals := by
  simp [Document.literals, Property.mem_listLiterals]

/-! ## Pieces -/

theorem Piece.write_append {pieces : List Piece} {text : List Char}
    (h : write pieces = (text, none)) (more : List Piece) :
    write (pieces ++ more) = (text ++ (write more).1, (write more).2) := by
  induction pieces generalizing text with
  | nil =>
    obtain rfl : [] = text := congrArg Prod.fst h
    rfl
  | cons p pieces ih =>
    rw [write] at h
    rw [List.cons_append, write]
    cases hp : p.text with
    | error x =>
      rw [hp] at h
      cases congrArg Prod.snd h
    | ok word =>
      simp only [hp] at h ⊢
      obtain ⟨htext, hfault⟩ := Prod.mk.inj h
      rw [ih (Prod.ext rfl hfault), ← htext, List.append_assoc]

/-- The pieces have a text, and it spells the tokens. -/
def Writes (pieces : List Piece) (tokens : List Token) : Prop :=
  ∃ text, Piece.write pieces = (text, none) ∧ Spells text tokens

namespace Writes

theorem nil : Writes [] [] := ⟨[], rfl, .nil⟩

theorem cons {p : Piece} {word : List Char} {pieces : List Piece} {s t : List Token}
    (hp : p.text = .ok word) (hs : Spells word s) (h : Writes pieces t) :
    Writes (p :: pieces) (s ++ t) := by
  obtain ⟨text, hw, ht⟩ := h
  refine ⟨word ++ text, ?_, hs.append ht⟩
  rw [Piece.write, hp, hw]

theorem append {pieces pieces' : List Piece} {s t : List Token} (h : Writes pieces s)
    (h' : Writes pieces' t) : Writes (pieces ++ pieces') (s ++ t) := by
  obtain ⟨text, hw, hs⟩ := h
  obtain ⟨text', hw', ht⟩ := h'
  exact ⟨text ++ text', by rw [Piece.write_append hw, hw'], hs.append ht⟩

theorem sign {c : Char} (hc : c ∈ Token.signs) {pieces : List Piece} {t : List Token}
    (h : Writes pieces t) : Writes (.sign [c] :: pieces) (.sign c :: t) :=
  cons rfl (.single (.sign hc)) h

theorem name {n : String} (hn : Identifier.isIdentifier n.toList = true) {pieces : List Piece}
    {t : List Token} (h : Writes pieces t) : Writes (.name n :: pieces) (.name n :: t) :=
  cons rfl (.single (.name hn)) h

theorem literal {l : Literal} (hl : l.IsWritable) {pieces : List Piece} {t : List Token}
    (h : Writes pieces t) :
    ∃ x : Lexeme, x.Denotes l ∧ Writes (.literal l :: pieces) (.literal x :: t) := by
  obtain ⟨text, x, htext, hs, hd⟩ := Literal.text_of_isWritable hl
  exact ⟨x, hd, cons (p := .literal l) htext (.single (.literal hs)) h⟩

/-- Blanks spell no token. -/
theorem blank {text : List Char} (hb : Blanks text) (indent : Nat) :
    Writes (Layout.blank indent text) [] := by
  unfold Layout.blank
  split
  · exact nil
  · exact cons rfl (.done hb) nil

theorem newline (indent : Nat) : Writes (Layout.newline indent) [] :=
  blank (by intro c hc; rw [List.mem_singleton.1 hc]; rfl) indent

theorem space (indent : Nat) : Writes (Layout.space indent) [] :=
  blank (by intro c hc; rw [List.mem_singleton.1 hc]; rfl) indent

theorem margin (indent depth : Nat) : Writes (Layout.margin indent depth) [] :=
  blank (by intro c hc; rw [List.eq_of_mem_replicate hc]; rfl) indent

/-- Pieces with commas between them spell items with commas between them. -/
theorem separated {α : Type} {Item : List Token → α → Prop} {comma : List Piece}
    (hcomma : Writes comma [.sign ',']) {parts : List (List Piece)} {as : List α}
    (h : List.Forall₂ (fun pieces a => ∃ s, Writes pieces s ∧ Item s a) parts as) (hne : as ≠ []) :
    ∃ s, Writes (comma.intercalate parts) s ∧ Grammar.Separated Item s as := by
  induction h with
  | nil => exact absurd rfl hne
  | @cons pieces a parts as ha hrest ih =>
    obtain ⟨s, hs, ha⟩ := ha
    cases hrest with
    | nil =>
      refine ⟨s, ?_, .single ha⟩
      rwa [List.intercalate_singleton]
    | cons hb hrest =>
      obtain ⟨t, ht, has⟩ := ih (List.cons_ne_nil _ _)
      refine ⟨s ++ .sign ',' :: t, ?_, .cons ha has⟩
      rw [List.intercalate_cons_cons]
      have hw := (hs.append hcomma).append ht
      rwa [List.append_assoc s] at hw

end Writes

namespace Validation

theorem bind_eq_ok {x y : Except Violation Unit} (h : (x >>= fun _ => y) = .ok ()) :
    x = .ok () ∧ y = .ok () := by
  cases x with
  | error v => cases h
  | ok u => exact ⟨rfl, h⟩

theorem checkName_eq_ok {role : NameRole} {name : String} (h : checkName role name = .ok ()) :
    Identifier.isIdentifier name.toList = true := by
  unfold checkName at h
  split at h
  · assumption
  · cases h

theorem checkNames_eq_ok {role : NameRole} {names : List String}
    (h : checkNames role names = .ok ()) :
    ∀ name ∈ names, Identifier.isIdentifier name.toList = true := by
  induction names with
  | nil =>
    intro name hmem
    cases hmem
  | cons n names ih =>
    obtain ⟨hn, h⟩ := bind_eq_ok h
    intro name hmem
    rcases List.mem_cons.1 hmem with rfl | hmem
    · exact checkName_eq_ok hn
    · exact ih h name hmem

end Validation

/-! ## Rules -/

namespace Layout

variable (indent : Nat)

theorem writes_argument {e : String × Literal} (hn : Identifier.isIdentifier e.1.toList = true)
    (hl : e.2.IsWritable) :
    ∃ s, Writes (argument indent e) s ∧ Grammar.IsPair Lexeme.Denotes s e := by
  obtain ⟨x, hd, hx⟩ := Writes.literal hl .nil
  exact ⟨[.name e.1, .sign ':', .literal x],
    .name hn (.sign (by decide) ((Writes.space indent).append hx)), .intro hd⟩

theorem writes_comma : Writes (Piece.sign [','] :: space indent) [.sign ','] :=
  .sign (by decide) (Writes.space indent)

/-- An argument list spells what it amounts to. -/
theorem writes_arguments {v : Value} (hn : Validation.checkValue v = .ok ())
    (hl : ∀ l ∈ v.literals, l.IsWritable) :
    ∃ s a, Writes (arguments indent v) s ∧ Grammar.IsArguments Lexeme.Denotes s a ∧
      a.filterValue = v ∧ (v ≠ .mapping .empty → a.params? = some v) := by
  cases v with
  | literal l =>
    obtain ⟨x, hd, hx⟩ := Writes.literal (hl l (by simp [Value.literals]))
      (.sign (c := ')') (by decide) .nil)
    exact ⟨_, .positional l, .sign (by decide) hx, .positional hd, rfl, fun _ => rfl⟩
  | mapping m =>
    by_cases hm : m.entries = []
    · have hempty : m = .empty := by
        obtain ⟨entries, hnodup⟩ := m
        subst hm
        rfl
      subst hempty
      exact ⟨_, .none, .sign (by decide) (.sign (by decide) .nil), .none, rfl,
        fun h => absurd rfl h⟩
    · have hentries : List.Forall₂ (fun pieces e => ∃ s, Writes pieces s ∧
          Grammar.IsPair Lexeme.Denotes s e) (m.entries.map (argument indent)) m.entries := by
        rw [List.forall₂_map_left_iff, List.forall₂_same]
        intro e he
        refine writes_argument indent ?_ (hl e.2 (List.mem_map_of_mem he))
        exact Validation.checkNames_eq_ok hn e.1 (List.mem_map_of_mem he)
      obtain ⟨s, hs, hpairs⟩ := Writes.separated (writes_comma indent) hentries hm
      exact ⟨_, .named m, .sign (by decide) (hs.append (.sign (c := ')') (by decide) .nil)),
        .named hpairs m.collects_entries, rfl, fun _ => rfl⟩

theorem writes_filter {f : Filter} (hn : Identifier.isIdentifier f.name.toList = true)
    (hv : Validation.checkValue f.value = .ok ()) (hl : ∀ l ∈ f.value.literals, l.IsWritable) :
    ∃ s, Writes (filter indent f) s ∧ Grammar.IsFilter Lexeme.Denotes s f := by
  obtain ⟨s, a, hs, ha, hvalue, -⟩ := writes_arguments indent hv hl
  have hfilter : Grammar.IsFilter Lexeme.Denotes (.sign '.' :: .name f.name :: s)
      ⟨f.name, a.filterValue⟩ := .intro ha
  rw [hvalue] at hfilter
  exact ⟨_, .sign (by decide) (.name hn hs), hfilter⟩

theorem writes_filters {filters : List Filter} (hv : Validation.checkFilters filters = .ok ())
    (hl : ∀ f ∈ filters, ∀ l ∈ f.value.literals, l.IsWritable) :
    ∃ s, Writes (filters.flatMap (filter indent)) s ∧
      Grammar.Repeated (Grammar.IsFilter Lexeme.Denotes) s filters := by
  induction filters with
  | nil => exact ⟨[], .nil, .nil⟩
  | cons f filters ih =>
    obtain ⟨hname, hv⟩ := Validation.bind_eq_ok hv
    obtain ⟨hvalue, hv⟩ := Validation.bind_eq_ok hv
    obtain ⟨s, hs, hf⟩ := writes_filter indent (Validation.checkName_eq_ok hname) hvalue
      (hl f (List.mem_cons_self ..))
    obtain ⟨t, ht, hfilters⟩ := ih hv fun g hg => hl g (List.mem_cons_of_mem _ hg)
    exact ⟨s ++ t, hs.append ht, .cons hf hfilters⟩

theorem writes_params {selection : String} {v : Option Value}
    (hv : Validation.checkParams selection v = .ok ())
    (hl : ∀ l ∈ v.toList.flatMap Value.literals, l.IsWritable) :
    ∃ s, Writes (params indent v) s ∧ Grammar.IsParams Lexeme.Denotes s v := by
  cases v with
  | none => exact ⟨[], .nil, .absent⟩
  | some v =>
    have hvalue : Validation.checkValue v = .ok () ∧ v ≠ .mapping .empty := by
      cases v with
      | literal l => exact ⟨rfl, by simp⟩
      | mapping m =>
        rw [Validation.checkParams] at hv
        split at hv
        · cases hv
        · rename_i hm
          refine ⟨hv, ?_⟩
          rintro ⟨⟩
          exact hm rfl
    obtain ⟨s, a, hs, ha, -, hparams⟩ := writes_arguments indent hvalue.1 (by simpa using hl)
    have hpresent := Grammar.IsParams.present ha
    rw [hparams hvalue.2] at hpresent
    exact ⟨s, hs, hpresent⟩

theorem writes_header {depth : Nat} {h : Header} (hv : Validation.checkHeader depth h = .ok ())
    (hl : ∀ l ∈ h.literals, l.IsWritable) :
    depth ≤ maxNesting ∧ ∃ s, Writes (header indent h) s ∧ Grammar.IsHeader Lexeme.Denotes s h := by
  obtain ⟨hname, hv⟩ := Validation.bind_eq_ok hv
  dsimp only at hv
  split at hv
  · cases hv
  · rename_i hdepth
    obtain ⟨hparams, hfilters⟩ := Validation.bind_eq_ok hv
    obtain ⟨s, hs, hp⟩ := writes_params indent hparams fun l hmem =>
      hl l (List.mem_append_left _ hmem)
    obtain ⟨t, ht, hf⟩ := writes_filters indent hfilters fun f hmem l hl' =>
      hl l (List.mem_append_right _ (List.mem_flatMap.2 ⟨f, hmem, hl'⟩))
    exact ⟨Nat.le_of_not_lt hdepth, _,
      .name (Validation.checkName_eq_ok hname) (hs.append ht), .intro hp hf⟩

theorem writes_block {α : Type} {Item : List Token → α → Prop} (depth : Nat)
    {parts : List (List Piece)} {as : List α}
    (h : List.Forall₂ (fun pieces a => ∃ s, Writes pieces s ∧ Item s a) parts as) (hne : as ≠ []) :
    ∃ s, Writes (block indent depth parts) (.sign '{' :: (s ++ [.sign '}'])) ∧
      Grammar.Separated Item s as := by
  have hcomma : Writes (separator indent) [.sign ','] :=
    .sign (by decide) (Writes.newline indent)
  have hclose : Writes [.sign ['}']] [.sign '}'] := .sign (by decide) .nil
  obtain ⟨s, hs, hitems⟩ := Writes.separated hcomma h hne
  have hinside := ((((Writes.newline indent).append hs).append (Writes.newline indent)).append
    (Writes.margin indent depth)).append hclose
  rw [List.nil_append, List.append_nil, List.append_nil] at hinside
  exact ⟨s, .sign (by decide) hinside, hitems⟩

mutual

theorem writes_property (depth level : Nat) : (p : Property) →
    Validation.checkProperty depth p = .ok () → (∀ l ∈ p.literals, l.IsWritable) →
    ∃ s, Writes (property indent level p) s ∧
      Grammar.IsProperty (Grammar.IsObject Lexeme.Denotes (maxNesting - depth)) s p
  | .field name, hv, _ => by
    rw [Validation.checkProperty] at hv
    refine ⟨[] ++ [.name name], ?_, .field⟩
    rw [property]
    exact (Writes.margin indent level).append (.name (Validation.checkName_eq_ok hv) .nil)
  | .selection header properties, hv, hl => by
    rw [Validation.checkProperty] at hv
    rw [Property.literals] at hl
    obtain ⟨hheader, hv⟩ := Validation.bind_eq_ok hv
    dsimp only at hv
    split at hv
    · cases hv
    · rename_i hne
      obtain ⟨hdepth, s, hs, hh⟩ := writes_header indent hheader fun l hmem =>
        hl l (List.mem_append_left _ hmem)
      have heach := writes_each (depth + 1) (level + 1) properties hv fun l hmem =>
        hl l (List.mem_append_right _ hmem)
      obtain ⟨t, ht, hproperties⟩ := writes_block indent level heach (by simpa using hne)
      have hroom : maxNesting - depth = maxNesting - (depth + 1) + 1 := by omega
      have hwrites := (((Writes.margin indent level).append hs).append (Writes.space indent)).append ht
      rw [List.nil_append, List.append_nil] at hwrites
      have hobject : Grammar.IsObject Lexeme.Denotes (maxNesting - (depth + 1) + 1)
          (s ++ .sign '{' :: (t ++ [.sign '}'])) ⟨header, properties⟩ :=
        Grammar.IsSelection.intro hh hproperties
      rw [hroom, property]
      exact ⟨_, hwrites, .selection hobject⟩

/-- Properties spell what they are, each behind its margin. -/
theorem writes_each (depth level : Nat) : (properties : List Property) →
    Validation.checkProperties depth properties = .ok () →
    (∀ l ∈ Property.listLiterals properties, l.IsWritable) →
    List.Forall₂ (fun pieces p => ∃ s, Writes pieces s ∧
      Grammar.IsProperty (Grammar.IsObject Lexeme.Denotes (maxNesting - depth)) s p)
      (each indent level properties) properties
  | [], _, _ => by
    rw [each]
    exact .nil
  | p :: rest, hv, hl => by
    rw [Validation.checkProperties] at hv
    rw [Property.listLiterals] at hl
    obtain ⟨hp, hrest⟩ := Validation.bind_eq_ok hv
    rw [each]
    exact .cons (writes_property depth level p hp fun l hmem => hl l (List.mem_append_left _ hmem))
      (writes_each depth level rest hrest fun l hmem => hl l (List.mem_append_right _ hmem))

end

theorem writes_selections : (selections : List Selection) →
    Validation.checkSelections selections = .ok () →
    (∀ l ∈ Property.listLiterals (selections.map Property.ofSelection), l.IsWritable) →
    List.Forall₂ (fun pieces x => ∃ s, Writes pieces s ∧
      Grammar.IsObject Lexeme.Denotes maxNesting s x)
      (each indent 1 (selections.map Property.ofSelection)) selections
  | [], _, _ => .nil
  | x :: rest, hv, hl => by
    obtain ⟨hx, hrest⟩ := Validation.bind_eq_ok hv
    obtain ⟨s, hs, hp⟩ := writes_property indent 0 1 (.ofSelection x) hx fun l hmem =>
      hl l (List.mem_append_left _ hmem)
    exact .cons ⟨s, hs, hp.nested⟩
      (writes_selections rest hrest fun l hmem => hl l (List.mem_append_right _ hmem))

/-- A document that passes validation is laid out as a derivation of it. -/
theorem writes_document {d : Document} (hv : d.validate = .ok ())
    (hl : ∀ l ∈ d.literals, l.IsWritable) :
    ∃ s, Writes (document indent d) s ∧ Grammar.IsDocument Lexeme.Denotes maxNesting s d := by
  unfold Document.validate at hv
  split at hv
  · cases hv
  · rename_i hne
    have hne : d.selections ≠ [] := by simpa [Document.isEmpty] using hne
    obtain ⟨s, hs, hitems⟩ := writes_block indent 0 (writes_selections indent _ hv hl) hne
    exact ⟨_, hs, .intro hitems⟩

end Layout

end QueryMarkup
