import QueryMarkup.Proofs.Printing.Violations

/-!
# The compact layout

The compact text of a document is its indented text without the blanks outside of strings. Which
blanks these are is decided by the text alone: `Place` tells where a prefix of it ends, and
`squeeze` drops the blanks outside. Names hold no blanks and no quotes, and a written string ends
exactly where it should, so behind every piece of a layout the text is outside of strings again.
-/

namespace QueryMarkup

/-- Where a text ends, as to strings between double quotes. -/
inductive Place where
  | outside
  | inside
  | behindBackslash
  deriving DecidableEq

namespace Place

def after : Place → Char → Place
  | outside, c => if c = '"' then inside else outside
  | inside, c => if c = '"' then outside else if c = '\\' then behindBackslash else inside
  | behindBackslash, _ => inside

def afterAll (place : Place) (passed : List Char) : Place := passed.foldl after place

end Place

/-- Drops the blanks outside of strings from a text that starts at a place. -/
def squeezeFrom (place : Place) : List Char → List Char
  | [] => []
  | c :: rest =>
    if place = .outside ∧ Parse.isBlank c = true then squeezeFrom place rest
    else c :: squeezeFrom (place.after c) rest

def squeeze (text : String) : String := String.ofList (squeezeFrom .outside text.toList)

theorem after_of_isBlank {c : Char} (h : Parse.isBlank c = true) :
    Place.outside.after c = .outside := by
  refine if_neg ?_
  rintro rfl
  exact absurd h (by decide)

theorem squeezeFrom_append (place : Place) (s t : List Char) :
    squeezeFrom place (s ++ t) = squeezeFrom place s ++ squeezeFrom (place.afterAll s) t := by
  induction s generalizing place with
  | nil => rfl
  | cons c s ih =>
    show squeezeFrom place (c :: (s ++ t)) = _ ++ squeezeFrom ((place.after c).afterAll s) t
    rw [squeezeFrom, squeezeFrom]
    by_cases h : place = .outside ∧ Parse.isBlank c = true
    · obtain ⟨rfl, hc⟩ := h
      rw [if_pos ⟨rfl, hc⟩, if_pos ⟨rfl, hc⟩, ih, after_of_isBlank hc]
    · rw [if_neg h, if_neg h, ih, List.cons_append]

theorem length_squeezeFrom_le (place : Place) (text : List Char) :
    (squeezeFrom place text).length ≤ text.length := by
  induction text generalizing place with
  | nil => exact Nat.le_refl _
  | cons c rest ih =>
    have := ih place
    have := ih (place.after c)
    rw [squeezeFrom]
    split <;> simp only [List.length_cons] <;> omega

/-- A text that squeezing does not change has no blank outside of strings. -/
theorem isBlank_of_squeezeFrom_eq {place : Place} {before behind : List Char} {c : Char}
    (h : squeezeFrom place (before ++ c :: behind) = before ++ c :: behind)
    (hplace : place.afterAll before = .outside) : Parse.isBlank c = false := by
  cases hc : Parse.isBlank c with
  | false => rfl
  | true =>
    -- The blank would be dropped, and nothing makes up for it in the length.
    rw [squeezeFrom_append, hplace, squeezeFrom, if_pos ⟨rfl, hc⟩] at h
    have hlength := congrArg List.length h
    have hbefore := length_squeezeFrom_le place before
    have hbehind := length_squeezeFrom_le .outside behind
    simp only [List.length_append, List.length_cons] at hlength
    omega

/-- Neither a blank nor a quote that starts a string. -/
def IsPlain (c : Char) : Prop := Parse.isBlank c = false ∧ c ≠ '"'

/-- Squeezing the one text gives the other, and leads from outside of strings to outside. -/
def Squeezes (s t : List Char) : Prop :=
  squeezeFrom .outside s = t ∧ Place.outside.afterAll s = .outside

namespace Squeezes

theorem nil : Squeezes [] [] := ⟨rfl, rfl⟩

theorem append {s s' t t' : List Char} (h : Squeezes s t) (k : Squeezes s' t') :
    Squeezes (s ++ s') (t ++ t') := by
  obtain ⟨rfl, hplace⟩ := h
  obtain ⟨rfl, hplace'⟩ := k
  refine ⟨by rw [squeezeFrom_append, hplace], ?_⟩
  rw [Place.afterAll, List.foldl_append]
  exact (congrArg (Place.afterAll · s') hplace).trans hplace'

theorem blanks {s : List Char} (h : Blanks s) : Squeezes s [] := by
  induction s with
  | nil => exact nil
  | cons c s ih =>
    obtain ⟨hc, hs⟩ := List.forall_mem_cons.1 h
    have hone : Squeezes [c] [] := ⟨if_pos ⟨rfl, hc⟩, after_of_isBlank hc⟩
    exact hone.append (ih hs)

/-- Without blanks and quotes nothing is dropped. -/
theorem plain {s : List Char} (h : ∀ c ∈ s, IsPlain c) : Squeezes s s := by
  induction s with
  | nil => exact nil
  | cons c s ih =>
    obtain ⟨⟨hblank, hquote⟩, hs⟩ := List.forall_mem_cons.1 h
    have hone : Squeezes [c] [c] := ⟨if_neg (by simp [hblank]), if_neg hquote⟩
    exact hone.append (ih hs)

/-- Inside of a string nothing is dropped, and a body does not end it. -/
theorem body {s : List Char} (h : Quoted.IsBody '"' s) :
    squeezeFrom .inside s = s ∧ Place.inside.afterAll s = .inside := by
  induction h with
  | nil => exact ⟨rfl, rfl⟩
  | @plain c rest hquote hescape _ _ ih =>
    have hafter : Place.inside.after c = .inside := by
      rw [Place.after, if_neg hquote, if_neg hescape]
    refine ⟨?_, ?_⟩
    · rw [squeezeFrom, if_neg (by simp), hafter, ih.1]
    · show (Place.inside.after c).afterAll rest = .inside
      rw [hafter, ih.2]
  | @escaped c rest _ _ ih =>
    refine ⟨?_, ih.2⟩
    show '\\' :: c :: squeezeFrom .inside rest = _
    rw [ih.1]

theorem quoted {s : List Char} (h : Quoted.IsBody '"' s) :
    Squeezes ('"' :: (s ++ ['"'])) ('"' :: (s ++ ['"'])) := by
  obtain ⟨hsame, hplace⟩ := body h
  refine ⟨?_, ?_⟩
  · show '"' :: squeezeFrom .inside (s ++ ['"']) = _
    rw [squeezeFrom_append, hsame, hplace]
    rfl
  · show Place.inside.afterAll (s ++ ['"']) = .outside
    rw [Place.afterAll, List.foldl_append]
    exact congrArg (Place.afterAll · ['"']) hplace

end Squeezes

theorem Quoted.IsBody.isLineBreak {quote : Char} {s : List Char} (h : IsBody quote s) :
    ∀ c ∈ s, isLineBreak c = false := by
  induction h with
  | nil => exact fun c hc => by cases hc
  | plain _ _ hline _ ih => exact List.forall_mem_cons.2 ⟨hline, ih⟩
  | escaped hline _ ih =>
    exact List.forall_mem_cons.2 ⟨rfl, List.forall_mem_cons.2 ⟨hline, ih⟩⟩

theorem isPlain_of_isPart {c : Char} (h : Identifier.isPart c = true) : IsPlain c := by
  refine ⟨isBlank_of_isPart h, ?_⟩
  rintro rfl
  exact absurd h (by decide)

theorem isPlain_of_isIdentifier {name : List Char} (h : Identifier.isIdentifier name = true) :
    ∀ c ∈ name, IsPlain c :=
  fun c hc => isPlain_of_isPart (Identifier.isPart_of_mem h c hc)

theorem isLineBreak_of_isPlain {c : Char} (h : IsPlain c) : Quoted.isLineBreak c = false := by
  refine Bool.eq_false_iff.2 fun hline => ?_
  have hblank : Parse.isBlank c = true := by
    simp only [Quoted.isLineBreak, Bool.or_eq_true, decide_eq_true_eq] at hline
    rcases hline with rfl | rfl <;> rfl
  rw [h.1] at hblank
  cases hblank

theorem Numeral.IsWritten.isPlain {n : Numeral} (h : n.IsWritten) : ∀ c ∈ n.text, IsPlain c := by
  intro c hc
  rcases h.mem_cases hc with rfl | rfl | hd
  · exact ⟨rfl, by decide⟩
  · exact ⟨rfl, by decide⟩
  · exact isPlain_of_isPart (isPart_of_isDigit hd)

namespace Literal

/-- A written literal is a string between double quotes or holds neither blanks nor quotes. -/
theorem text_cases {l : Literal} {text : List Char} (h : l.text = .ok text) :
    (∀ c ∈ text, IsPlain c) ∨ ∃ body, Quoted.IsBody '"' body ∧ text = '"' :: (body ++ ['"']) := by
  have hword : ∀ word ∈ Lexeme.keywords, ∀ c ∈ word, IsPlain c :=
    fun word hw c hc => isPlain_of_isPart (Lexeme.isPart_of_mem_keywords hw c hc)
  cases l with
  | null => exact .inl (Except.ok.inj h ▸ hword _ (by decide))
  | bool b =>
    cases b
    · exact .inl (Except.ok.inj h ▸ hword _ (by decide))
    · exact .inl (Except.ok.inj h ▸ hword _ (by decide))
  | int i => exact .inl (Except.ok.inj h ▸ (Numeral.isWritten_ofInt i.toInt).isPlain)
  | float x =>
    have hx : x.isFinite = true := isWritable_of_text h x rfl
    rw [Literal.text, if_pos hx] at h
    exact .inl (Except.ok.inj h ▸ (Numeral.isWritten_ofDecimal _ _).isPlain)
  | string s => exact .inr ⟨_, Escaped.isBody_encode s.toList, (Except.ok.inj h).symm⟩

theorem squeezes_text {l : Literal} {text : List Char} (h : l.text = .ok text) :
    Squeezes text text := by
  rcases text_cases h with hplain | ⟨body, hbody, rfl⟩
  · exact .plain hplain
  · exact .quoted hbody

/-- Line breaks are written as escapes. -/
theorem isLineBreak_of_mem_text {l : Literal} {text : List Char} (h : l.text = .ok text) :
    ∀ c ∈ text, Quoted.isLineBreak c = false := by
  rcases text_cases h with hplain | ⟨body, hbody, rfl⟩
  · exact fun c hc => isLineBreak_of_isPlain (hplain c hc)
  · have hquote : Quoted.isLineBreak '"' = false := rfl
    rw [List.forall_mem_cons, List.forall_mem_append, List.forall_mem_singleton]
    exact ⟨hquote, hbody.isLineBreak, hquote⟩

end Literal

/-! ## Pieces -/

theorem forall_mem_intercalate {α : Type} {p : α → Prop} {separator : List α}
    {parts : List (List α)} (hs : ∀ a ∈ separator, p a) (h : ∀ part ∈ parts, ∀ a ∈ part, p a) :
    ∀ a ∈ separator.intercalate parts, p a := by
  induction parts with
  | nil => exact fun a ha => by cases ha
  | cons part parts ih =>
    obtain ⟨hpart, hparts⟩ := List.forall_mem_cons.1 h
    cases parts with
    | nil => rwa [List.intercalate_singleton]
    | cons next parts =>
      rw [List.intercalate_cons_cons, List.forall_mem_append, List.forall_mem_append]
      exact ⟨⟨hpart, hs⟩, ih hparts⟩

namespace Piece

/-- Signs and names are plain, and blanks are blank. -/
def IsTidy : Piece → Prop
  | .sign text => ∀ c ∈ text, IsPlain c
  | .blank text => Blanks text
  | .literal _ => True

def isInk : Piece → Bool
  | .blank _ => false
  | _ => true

/-- The pieces other than blanks. -/
def ink (pieces : List Piece) : List Piece := pieces.filter isInk

theorem ink_append (pieces pieces' : List Piece) :
    ink (pieces ++ pieces') = ink pieces ++ ink pieces' :=
  List.filter_append ..

theorem ink_flatMap {α : Type} (pieces : α → List Piece) (as : List α) :
    ink (as.flatMap pieces) = as.flatMap fun a => ink (pieces a) := by
  induction as with
  | nil => rfl
  | cons a as ih => rw [List.flatMap_cons, List.flatMap_cons, ink_append, ih]

theorem ink_intercalate (separator : List Piece) (parts : List (List Piece)) :
    ink (separator.intercalate parts) = (ink separator).intercalate (parts.map ink) := by
  induction parts with
  | nil => rfl
  | cons part parts ih =>
    cases parts with
    | nil => rw [List.intercalate_singleton, List.map_singleton, List.intercalate_singleton]
    | cons next parts =>
      rw [List.intercalate_cons_cons, ink_append, ink_append, ih]
      exact List.intercalate_cons_cons.symm

/-- Squeezing what is written of tidy pieces leaves what is written of the ink. -/
theorem squeezes_write {pieces : List Piece} (h : ∀ p ∈ pieces, p.IsTidy) :
    Squeezes (write pieces).1 (write (ink pieces)).1 ∧
      (write (ink pieces)).2 = (write pieces).2 := by
  induction pieces with
  | nil => exact ⟨.nil, rfl⟩
  | cons p pieces ih =>
    obtain ⟨hp, hpieces⟩ := List.forall_mem_cons.1 h
    obtain ⟨hsqueezes, hfault⟩ := ih hpieces
    cases p with
    | sign text => exact ⟨.append (.plain hp) hsqueezes, hfault⟩
    | blank text => exact ⟨.append (.blanks hp) hsqueezes, hfault⟩
    | literal l =>
      have hink : ink (.literal l :: pieces) = .literal l :: ink pieces := rfl
      rw [hink]
      cases hl : (Piece.literal l).text with
      | error x =>
        rw [write, write, hl]
        exact ⟨.nil, rfl⟩
      | ok text =>
        rw [write_cons_of_ok hl, write_cons_of_ok hl]
        exact ⟨.append (Literal.squeezes_text hl) hsqueezes, hfault⟩

theorem forall_mem_write {q : Char → Prop} {pieces : List Piece}
    (h : ∀ p ∈ pieces, ∀ text, p.text = .ok text → ∀ c ∈ text, q c) :
    ∀ c ∈ (write pieces).1, q c := by
  induction pieces with
  | nil => exact fun c hc => by cases hc
  | cons p pieces ih =>
    obtain ⟨hp, hpieces⟩ := List.forall_mem_cons.1 h
    cases htext : p.text with
    | error x =>
      rw [write, htext]
      exact fun c hc => by cases hc
    | ok text =>
      rw [write_cons_of_ok htext]
      exact List.forall_mem_append.2 ⟨hp text htext, ih hpieces⟩

/-- Only blanks break lines. -/
theorem isLineBreak_of_mem_ink {p : Piece} (h : p.IsTidy) (hink : p.isInk = true)
    {text : List Char} (htext : p.text = .ok text) : ∀ c ∈ text, Quoted.isLineBreak c = false := by
  cases p with
  | sign word =>
    obtain rfl := Except.ok.inj htext
    exact fun c hc => isLineBreak_of_isPlain (h c hc)
  | blank word => cases hink
  | literal l => exact Literal.isLineBreak_of_mem_text htext

end Piece

namespace Layout

open Piece

variable (indent : Nat)

/-! ## Ink -/

theorem ink_blank (text : List Char) : ink (blank indent text) = blank 0 text := by
  unfold blank
  split <;> rfl

theorem ink_separator : ink (separator indent) = separator 0 :=
  congrArg (Piece.sign [','] :: ·) (ink_blank indent _)

theorem ink_argument (e : String × Literal) : ink (argument indent e) = argument 0 e := by
  rw [argument, ink_append, ink_append, space, ink_blank]
  rfl

theorem ink_arguments (v : Value) : ink (arguments indent v) = arguments 0 v := by
  cases v with
  | literal l => rfl
  | mapping m =>
    have hcomma : ink (Piece.sign [','] :: space indent) = Piece.sign [','] :: space 0 :=
      congrArg (Piece.sign [','] :: ·) (ink_blank indent _)
    have hentries : (m.entries.map (argument indent)).map ink = m.entries.map (argument 0) := by
      rw [List.map_map]
      exact List.map_congr_left fun e _ => ink_argument indent e
    show Piece.sign ['('] :: ink (_ ++ [Piece.sign [')']]) = _
    rw [ink_append, ink_intercalate, hcomma, hentries]
    rfl

theorem params_eq (params : Option Value) :
    Layout.params indent params = params.toList.flatMap (arguments indent) := by
  cases params with
  | none => rfl
  | some v => rw [Option.toList_some, List.flatMap_singleton, Layout.params]

theorem ink_header (h : Header) : ink (header indent h) = header 0 h := by
  have hfilter : ∀ f, ink (filter indent f) = filter 0 f := fun f =>
    congrArg (Piece.sign ['.'] :: Piece.name f.name :: ·) (ink_arguments indent f.value)
  show Piece.name h.name :: ink (params indent h.params ++ h.filters.flatMap (filter indent)) = _
  rw [params_eq, ink_append, ink_flatMap, ink_flatMap, header, params_eq]
  simp only [ink_arguments, hfilter]

theorem ink_block (depth : Nat) (siblings : List (List Piece)) :
    ink (block indent depth siblings) = block 0 depth (siblings.map ink) := by
  show Piece.sign ['\x7b'] :: ink (_ ++ [Piece.sign ['\x7d']]) = _
  simp only [ink_append, newline, margin, ink_blank, ink_intercalate, ink_separator]
  rfl

mutual

theorem ink_property (depth : Nat) :
    (p : Property) → ink (property indent depth p) = property 0 depth p
  | .field name => by
    rw [property, ink_append, margin, ink_blank]
    rfl
  | .selection h properties => by
    rw [property, ink_append, ink_append, ink_append, margin, space, ink_blank, ink_blank,
      ink_header, ink_block, ink_each (depth + 1) properties]
    rfl

theorem ink_each (depth : Nat) : (properties : List Property) →
    (each indent depth properties).map ink = each 0 depth properties
  | [] => rfl
  | p :: rest => by
    rw [each, List.map_cons, ink_property depth p, ink_each depth rest, each]

end

/-- The compact layout is the ink of any. -/
theorem ink_document (d : Document) : ink (document indent d) = document 0 d := by
  rw [document, ink_block, ink_each]
  rfl

/-! ## Tidy texts -/

variable {indent}

theorem isTidy_sign {c : Char} (h : c ∈ Token.signs) : (Piece.sign [c]).IsTidy := by
  refine List.forall_mem_singleton.2 ⟨isBlank_of_mem_signs h, ?_⟩
  rintro rfl
  exact absurd h (by decide)

theorem isTidy_name {n : String} (h : Identifier.isIdentifier n.toList = true) :
    (Piece.name n).IsTidy := isPlain_of_isIdentifier h

theorem isTidy_blank {text : List Char} (h : Blanks text) : ∀ p ∈ blank indent text, p.IsTidy := by
  unfold blank
  split
  · exact fun p hp => by cases hp
  · exact List.forall_mem_singleton.2 h

theorem isTidy_space : ∀ p ∈ space indent, p.IsTidy :=
  isTidy_blank (List.forall_mem_singleton.2 rfl)

theorem isTidy_newline : ∀ p ∈ newline indent, p.IsTidy :=
  isTidy_blank (List.forall_mem_singleton.2 rfl)

theorem isTidy_margin (depth : Nat) : ∀ p ∈ margin indent depth, p.IsTidy :=
  isTidy_blank fun c hc => by
    rw [List.eq_of_mem_replicate hc]
    rfl

theorem isTidy_argument {e : String × Literal} (h : Identifier.isIdentifier e.1.toList = true) :
    ∀ p ∈ argument indent e, p.IsTidy := by
  rw [argument, List.forall_mem_append, List.forall_mem_append, List.forall_mem_cons,
    List.forall_mem_singleton, List.forall_mem_singleton]
  exact ⟨⟨⟨isTidy_name h, isTidy_sign (by decide)⟩, isTidy_space⟩, trivial⟩

theorem isTidy_arguments {v : Value} (h : AreIdentifiers v.names) :
    ∀ p ∈ arguments indent v, p.IsTidy := by
  have hclose : ∀ p ∈ [Piece.sign [')']], p.IsTidy :=
    List.forall_mem_singleton.2 (isTidy_sign (by decide))
  cases v with
  | literal l =>
    exact List.forall_mem_cons.2
      ⟨isTidy_sign (by decide), List.forall_mem_cons.2 ⟨trivial, hclose⟩⟩
  | mapping m =>
    have hcomma : ∀ p ∈ Piece.sign [','] :: space indent, p.IsTidy :=
      List.forall_mem_cons.2 ⟨isTidy_sign (by decide), isTidy_space⟩
    have hentries : ∀ part ∈ m.entries.map (argument indent), ∀ p ∈ part, p.IsTidy :=
      List.forall_mem_map.2 fun e he => isTidy_argument (h e.1 (List.mem_map_of_mem he))
    exact List.forall_mem_cons.2 ⟨isTidy_sign (by decide),
      List.forall_mem_append.2 ⟨forall_mem_intercalate hcomma hentries, hclose⟩⟩

theorem isTidy_header {h : Header} (hn : AreIdentifiers h.names) :
    ∀ p ∈ header indent h, p.IsTidy := by
  obtain ⟨hname, hparams, hfilters⟩ := areIdentifiers_header.1 hn
  rw [header, params_eq, List.forall_mem_cons, List.forall_mem_append, List.forall_mem_flatMap,
    List.forall_mem_flatMap]
  refine ⟨isTidy_name hname, fun v hv => isTidy_arguments (hparams v hv), fun f hf => ?_⟩
  obtain ⟨hfilter, hvalue⟩ := hfilters f hf
  exact List.forall_mem_cons.2 ⟨isTidy_sign (by decide),
    List.forall_mem_cons.2 ⟨isTidy_name hfilter, isTidy_arguments hvalue⟩⟩

theorem isTidy_block (depth : Nat) {siblings : List (List Piece)}
    (h : ∀ part ∈ siblings, ∀ p ∈ part, p.IsTidy) :
    ∀ p ∈ block indent depth siblings, p.IsTidy := by
  have hcomma : ∀ p ∈ separator indent, p.IsTidy :=
    List.forall_mem_cons.2 ⟨isTidy_sign (by decide), isTidy_newline⟩
  simp only [block, List.forall_mem_cons, List.forall_mem_append]
  exact ⟨isTidy_sign (by decide), ⟨⟨⟨isTidy_newline, forall_mem_intercalate hcomma h⟩,
    isTidy_newline⟩, isTidy_margin depth⟩, isTidy_sign (by decide), nofun⟩

mutual

theorem isTidy_property (depth : Nat) : (p : Property) → AreIdentifiers p.names →
    ∀ piece ∈ property indent depth p, piece.IsTidy
  | .field name, h => by
    rw [property, List.forall_mem_append, List.forall_mem_singleton]
    exact ⟨isTidy_margin depth, isTidy_name (h name (List.mem_singleton_self _))⟩
  | .selection header properties, h => by
    rw [Property.names, areIdentifiers_append] at h
    rw [property, List.forall_mem_append, List.forall_mem_append, List.forall_mem_append]
    exact ⟨⟨⟨isTidy_margin depth, isTidy_header h.1⟩, isTidy_space⟩,
      isTidy_block depth (isTidy_each (depth + 1) properties h.2)⟩

theorem isTidy_each (depth : Nat) : (properties : List Property) →
    AreIdentifiers (Property.listNames properties) →
    ∀ part ∈ each indent depth properties, ∀ piece ∈ part, piece.IsTidy
  | [], _ => fun part hpart => by cases hpart
  | p :: rest, h => by
    rw [Property.listNames, areIdentifiers_append] at h
    rw [each, List.forall_mem_cons]
    exact ⟨isTidy_property depth p h.1, isTidy_each depth rest h.2⟩

end

variable (indent)

theorem isTidy_document {d : Document} (hv : d.validate = .ok ()) :
    ∀ p ∈ document indent d, p.IsTidy :=
  isTidy_block 0 (isTidy_each 1 _ (Document.areIdentifiers_names hv))

/-- Squeezing what is written of a layout leaves what is written of the compact one. -/
theorem squeezes_document {d : Document} (hv : d.validate = .ok ()) :
    Squeezes (write (document indent d)).1 (write (document 0 d)).1 ∧
      (write (document 0 d)).2 = (write (document indent d)).2 := by
  have h := squeezes_write (isTidy_document indent hv)
  rwa [ink_document] at h

theorem isLineBreak_of_mem_compact {d : Document} (hv : d.validate = .ok ()) :
    ∀ c ∈ (write (document 0 d)).1, Quoted.isLineBreak c = false := by
  have hink : ∀ p ∈ document 0 d, p.isInk = true := List.filter_eq_self.1 (ink_document 0 d)
  exact forall_mem_write fun p hp _ htext =>
    isLineBreak_of_mem_ink (isTidy_document 0 hv p hp) (hink p hp) htext

end Layout

namespace Document

theorem map_squeeze_print (d : Document) (o : PrintOptions) :
    (d.print o).map squeeze = d.print .compacted := by
  cases hv : d.validate with
  | error v =>
    rw [print_of_violation hv, print_of_violation hv]
    rfl
  | ok u =>
    obtain ⟨⟨hsqueeze, -⟩, hfault⟩ := Layout.squeezes_document o.effectiveIndent hv
    rcases hcompact : Piece.write (Layout.document 0 d) with ⟨compact, fault⟩
    rcases hwrite : Piece.write (Layout.document o.effectiveIndent d) with ⟨text, fault'⟩
    rw [hcompact, hwrite] at hsqueeze hfault
    obtain rfl : fault = fault' := hfault
    cases fault with
    | some x =>
      rw [print_of_nonFinite hv hwrite, print_of_nonFinite (o := .compacted) hv hcompact]
      rfl
    | none =>
      rw [print_eq hv hwrite, print_eq (o := .compacted) hv hcompact]
      show Except.ok (squeeze (String.ofList text)) = _
      rw [squeeze, String.toList_ofList, hsqueeze]

theorem isLineBreak_of_mem_compacted {d : Document} {text : String}
    (h : d.print .compacted = .ok text) : ∀ c ∈ text.toList, Quoted.isLineBreak c = false := by
  obtain ⟨hv, written, rfl, hwrite⟩ := exists_write_of_print h
  have hzero : PrintOptions.compacted.effectiveIndent = 0 := rfl
  have hbreak := Layout.isLineBreak_of_mem_compact hv
  rw [hzero] at hwrite
  rw [hwrite] at hbreak
  rwa [String.toList_ofList]

/-- The compact text is what squeezing leaves of the text in any layout, and there is none if there
is none in that layout, for the same reason. It has no blanks outside of strings and no line breaks
anywhere. -/
theorem print_compacted_eq_squeeze (d : Document) (o : PrintOptions) :
    (d.print o).map squeeze = d.print .compacted ∧
      ∀ text, d.print .compacted = .ok text →
        (∀ before c behind, text.toList = before ++ c :: behind →
          Place.outside.afterAll before = .outside → Parse.isBlank c = false) ∧
        '\n' ∉ text.toList ∧ '\r' ∉ text.toList := by
  refine ⟨map_squeeze_print d o, fun text h => ?_⟩
  have hbreak := isLineBreak_of_mem_compacted h
  refine ⟨fun before c behind htext hplace => ?_, fun hn => ?_, fun hr => ?_⟩
  · have hsame : squeeze text = text := by
      have hmap := map_squeeze_print d .compacted
      rw [h] at hmap
      exact Except.ok.inj hmap
    have hlist := congrArg String.toList hsame
    rw [squeeze, String.toList_ofList, htext] at hlist
    exact isBlank_of_squeezeFrom_eq hlist hplace
  · exact absurd (hbreak _ hn) (by decide)
  · exact absurd (hbreak _ hr) (by decide)

/-- A string with blanks, a quote and a line break in it, and a sign behind it. -/
theorem print_compacted_eq_squeeze_string : ∃ (d : Document) (before behind : String),
    before = "\x7ba(b:\"c: \\\" d\\n\",e:" ∧ behind = "1)\x7bf,g\x7d\x7d" ∧
    d.print {} = .ok "\x7b\n  a(b: \"c: \\\" d\\n\", e: -1) \x7b\n    f,\n    g\n  \x7d\n\x7d" ∧
    d.print .compacted = .ok (before ++ "-" ++ behind) ∧
    (d.print {}).map squeeze = .ok (before ++ "-" ++ behind) ∧
    Place.outside.afterAll before.toList = .outside ∧ Parse.isBlank '-' = false ∧
    '\n' ∉ (before ++ "-" ++ behind).toList ∧ '\r' ∉ (before ++ "-" ++ behind).toList := by
  let a : Selection := .withParams (.named "a")
    (.mapping (.ofList [("b", .string "c: \" d\n"), ("e", .int (-1))]))
  let d : Document := ⟨[(a.withField "f").withField "g"]⟩
  let before : String := "\x7ba(b:\"c: \\\" d\\n\",e:"
  let behind : String := "1)\x7bf,g\x7d\x7d"
  have hcompact : d.print .compacted = .ok (before ++ "-" ++ behind) := by decide +kernel
  have hplace : Place.outside.afterAll before.toList = .outside := by decide
  have hsplit : (before ++ "-" ++ behind).toList = before.toList ++ '-' :: behind.toList := by
    decide
  obtain ⟨hsqueeze, htext⟩ := print_compacted_eq_squeeze d {}
  obtain ⟨hblank, hbreaks⟩ := htext _ hcompact
  exact ⟨d, before, behind, rfl, rfl, by decide +kernel, hcompact, hsqueeze.trans hcompact, hplace,
    hblank _ _ _ hsplit hplace, hbreaks⟩

end Document

end QueryMarkup
