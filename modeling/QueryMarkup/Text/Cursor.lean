/-!
# Places in a text

A position counts bytes from the start and lines and columns from one; a column is a character.
A cursor is a position together with the text behind it. `Cursor.Reaches` says that one cursor
comes from another by passing over characters.
-/

namespace QueryMarkup

/-- The length of a text in its UTF-8 form. -/
def byteSize : List Char → Nat
  | [] => 0
  | c :: rest => c.utf8Size + byteSize rest

theorem byteSize_append (s t : List Char) : byteSize (s ++ t) = byteSize s + byteSize t := by
  induction s with
  | nil => simp [byteSize]
  | cons c s ih => simp only [List.cons_append, byteSize, ih]; omega

structure Position where
  offset : Nat
  line : Nat
  column : Nat
  deriving DecidableEq

namespace Position

def start : Position := ⟨0, 1, 1⟩

/-- The place behind `c`. Only a line feed ends a line. -/
def after (p : Position) (c : Char) : Position :=
  if c = '\n' then ⟨p.offset + c.utf8Size, p.line + 1, 1⟩
  else ⟨p.offset + c.utf8Size, p.line, p.column + 1⟩

theorem offset_after (p : Position) (c : Char) : (p.after c).offset = p.offset + c.utf8Size := by
  unfold after
  split <;> rfl

def afterAll (p : Position) (passed : List Char) : Position := passed.foldl after p

theorem afterAll_append (p : Position) (s t : List Char) :
    p.afterAll (s ++ t) = (p.afterAll s).afterAll t := by
  simp [afterAll]

theorem offset_afterAll (p : Position) (passed : List Char) :
    (p.afterAll passed).offset = p.offset + byteSize passed := by
  induction passed generalizing p with
  | nil => rfl
  | cons c passed ih =>
    show ((p.after c).afterAll passed).offset = _
    rw [ih, byteSize, offset_after, Nat.add_assoc]

end Position

structure Cursor where
  position : Position
  rest : List Char
  deriving DecidableEq

namespace Cursor

def start (text : List Char) : Cursor := ⟨.start, text⟩

/-- The cursor `count` characters further on. -/
def drop (c : Cursor) (count : Nat) : Cursor :=
  ⟨c.position.afterAll (c.rest.take count), c.rest.drop count⟩

@[simp]
theorem drop_zero (c : Cursor) : c.drop 0 = c := by
  simp [drop, Position.afterAll]

/-- The second cursor comes from the first by passing over characters. -/
def Reaches (c d : Cursor) : Prop :=
  ∃ passed, c.rest = passed ++ d.rest ∧ d.position = c.position.afterAll passed

theorem Reaches.refl (c : Cursor) : c.Reaches c := ⟨[], rfl, rfl⟩

theorem Reaches.trans {c d e : Cursor} (h : c.Reaches d) (k : d.Reaches e) : c.Reaches e := by
  obtain ⟨s, hs, hp⟩ := h
  obtain ⟨t, ht, hq⟩ := k
  exact ⟨s ++ t, by rw [hs, ht, List.append_assoc], by rw [hq, hp, Position.afterAll_append]⟩

theorem reaches_drop (c : Cursor) (count : Nat) : c.Reaches (c.drop count) :=
  ⟨c.rest.take count, (List.take_append_drop count c.rest).symm, rfl⟩

theorem Reaches.length_le {c d : Cursor} (h : c.Reaches d) : d.rest.length ≤ c.rest.length := by
  obtain ⟨s, hs, _⟩ := h
  simp [hs]

theorem Reaches.offset_le {c d : Cursor} (h : c.Reaches d) :
    c.position.offset ≤ d.position.offset := by
  obtain ⟨s, _, hp⟩ := h
  rw [hp, Position.offset_afterAll]
  exact Nat.le_add_right _ _

theorem Reaches.offset_lt {c d : Cursor} (h : c.Reaches d)
    (hlt : d.rest.length < c.rest.length) : c.position.offset < d.position.offset := by
  obtain ⟨s, hs, hp⟩ := h
  rw [hp, Position.offset_afterAll]
  cases s with
  | nil =>
    rw [hs] at hlt
    simp at hlt
  | cons x s =>
    have hx := x.utf8Size_pos
    rw [byteSize]
    omega

end Cursor

end QueryMarkup
