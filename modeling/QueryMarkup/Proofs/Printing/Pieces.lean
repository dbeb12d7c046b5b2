import QueryMarkup.Proofs.Printing.Layout

/-!
# Literals among the pieces

The literals of a layout are those of the document, in the same order. Only they can lack a text,
so a layout is written up to its first double that is no finite number.
-/

namespace QueryMarkup

namespace Piece

def literal? : Piece → Option Literal
  | .literal l => some l
  | _ => none

def literals (pieces : List Piece) : List Literal := pieces.filterMap literal?

theorem literals_append (pieces pieces' : List Piece) :
    literals (pieces ++ pieces') = literals pieces ++ literals pieces' :=
  List.filterMap_append

theorem mem_literals {l : Literal} {pieces : List Piece} :
    l ∈ literals pieces ↔ .literal l ∈ pieces := by
  simp only [literals, List.mem_filterMap]
  constructor
  · rintro ⟨p, hp, hl⟩
    cases p with
    | literal l' => exact Option.some.inj hl ▸ hp
    | sign _ => cases hl
    | blank _ => cases hl
  · exact fun h => ⟨_, h, rfl⟩

theorem literals_flatMap {α : Type} (pieces : α → List Piece) (as : List α) :
    literals (as.flatMap pieces) = as.flatMap fun a => literals (pieces a) := by
  induction as with
  | nil => rfl
  | cons a as ih => rw [List.flatMap_cons, List.flatMap_cons, literals_append, ih]

theorem literals_intercalate {separator : List Piece} (hs : literals separator = [])
    (parts : List (List Piece)) :
    literals (separator.intercalate parts) = parts.flatMap literals := by
  induction parts with
  | nil => rfl
  | cons part parts ih =>
    cases parts with
    | nil => rw [List.intercalate_singleton, List.flatMap_singleton]
    | cons next parts =>
      rw [List.intercalate_cons_cons, literals_append, literals_append, hs, List.append_nil, ih]
      rfl

end Piece

namespace Layout

open Piece

variable (indent : Nat)

theorem literals_blank (text : List Char) : literals (blank indent text) = [] := by
  unfold blank
  split <;> rfl

theorem literals_separator : literals (separator indent) = [] := literals_blank indent _

theorem literals_argument (e : String × Literal) : literals (argument indent e) = [e.2] := by
  rw [argument, literals_append, literals_append, space, literals_blank]
  rfl

theorem literals_arguments (v : Value) : literals (arguments indent v) = v.literals := by
  cases v with
  | literal l => rfl
  | mapping m =>
    have hcomma : literals (.sign [','] :: space indent) = [] := literals_blank indent _
    show literals (_ ++ [Piece.sign [')']]) = m.values
    rw [literals_append, literals_intercalate hcomma, List.flatMap_map]
    simp only [literals_argument]
    rw [← List.map_eq_flatMap]
    exact List.append_nil _

theorem literals_header (h : Header) : literals (header indent h) = h.literals := by
  show literals (params indent h.params ++ h.filters.flatMap (filter indent)) = _
  have hfilter : ∀ f, literals (filter indent f) = f.value.literals := fun f =>
    literals_arguments indent f.value
  rw [literals_append, literals_flatMap, Header.literals]
  simp only [hfilter]
  cases h.params with
  | none => rfl
  | some v =>
    rw [Option.toList_some, List.flatMap_singleton, params, literals_arguments]

theorem literals_block (depth : Nat) (siblings : List (List Piece)) :
    literals (block indent depth siblings) = siblings.flatMap literals := by
  show literals (_ ++ [Piece.sign ['}']]) = _
  simp only [literals_append, newline, margin, literals_blank,
    literals_intercalate (literals_separator indent), List.nil_append, List.append_nil]
  exact List.append_nil _

mutual

theorem literals_property (depth : Nat) :
    (p : Property) → literals (property indent depth p) = p.literals
  | .field name => by
    rw [property, literals_append, margin, literals_blank]
    rfl
  | .selection h properties => by
    rw [property, literals_append, literals_append, literals_append, margin, space, literals_blank,
      literals_blank, literals_header, literals_block, literals_each (depth + 1) properties,
      List.append_nil]
    rfl

theorem literals_each (depth : Nat) : (properties : List Property) →
    (each indent depth properties).flatMap literals = Property.listLiterals properties
  | [] => rfl
  | p :: rest => by
    rw [each, List.flatMap_cons, literals_property depth p, literals_each depth rest,
      Property.listLiterals]

end

/-- The literals of a document stand in its layout in their order. -/
theorem literals_document (d : Document) : literals (document indent d) = d.literals := by
  rw [document, literals_block, literals_each]
  rfl

end Layout

/-! ## Writing -/

theorem Literal.isWritable_of_text {l : Literal} {text : List Char} (h : l.text = .ok text) :
    l.IsWritable := by
  rintro x rfl
  rw [Literal.text] at h
  split at h
  · assumption
  · cases h

theorem Literal.text_eq_error {l : Literal} {x : Binary64} (h : l.text = .error x) :
    l = .float x ∧ x.isFinite = false := by
  cases l with
  | null => cases h
  | bool b => cases b <;> cases h
  | int i => cases h
  | string s => cases h
  | float y =>
    rw [Literal.text] at h
    split at h
    · cases h
    · rename_i hy
      obtain rfl := Except.error.inj h
      exact ⟨rfl, Bool.eq_false_iff.2 hy⟩

namespace Piece

theorem write_cons_of_ok {p : Piece} {word : List Char} (h : p.text = .ok word)
    (pieces : List Piece) :
    write (p :: pieces) = (word ++ (write pieces).1, (write pieces).2) := by
  rw [write, h]

theorem isWritable_of_text {p : Piece} {word : List Char} (h : p.text = .ok word) :
    ∀ l ∈ literals [p], l.IsWritable := by
  intro l hl
  obtain rfl := List.mem_singleton.1 (mem_literals.1 hl)
  exact Literal.isWritable_of_text h

/-- Pieces are written to the end, or up to the first literal without a text. -/
theorem write_cases (pieces : List Piece) :
    (∃ text, write pieces = (text, none) ∧ ∀ l ∈ literals pieces, l.IsWritable) ∨
      ∃ front x back text, pieces = front ++ .literal (.float x) :: back ∧
        write pieces = (text, some x) ∧ write front = (text, none) ∧ x.isFinite = false ∧
        ∀ l ∈ literals front, l.IsWritable := by
  induction pieces with
  | nil => exact .inl ⟨[], rfl, fun l hl => by cases hl⟩
  | cons p pieces ih =>
    have hsplit : ∀ front, literals (p :: front) = literals [p] ++ literals front := fun front =>
      literals_append [p] front
    cases hp : p.text with
    | error x =>
      obtain ⟨rfl, hx⟩ : p = .literal (.float x) ∧ x.isFinite = false := by
        cases p with
        | literal l => exact (Literal.text_eq_error hp).imp_left (congrArg Piece.literal)
        | sign _ => cases hp
        | blank _ => cases hp
      exact .inr ⟨[], x, pieces, [], rfl, by rw [write, hp], rfl, hx, fun l hl => by cases hl⟩
    | ok word =>
      rw [write_cons_of_ok hp]
      rcases ih with ⟨text, hw, hl⟩ | ⟨front, x, back, text, rfl, hw, hfront, hx, hl⟩
      · refine .inl ⟨word ++ text, by rw [hw], ?_⟩
        rw [hsplit, List.forall_mem_append]
        exact ⟨isWritable_of_text hp, hl⟩
      · refine .inr ⟨p :: front, x, back, word ++ text, rfl, by rw [hw], ?_, hx, ?_⟩
        · rw [write_cons_of_ok hp, hfront]
        · rw [hsplit, List.forall_mem_append]
          exact ⟨isWritable_of_text hp, hl⟩

end Piece

end QueryMarkup
