import QueryMarkup.Proofs.Reading.Report

/-!
# Slices by byte offset

A slice of a text between two byte offsets exists only if both are boundaries of characters, the
first not behind the second. `slice?_eq_some` says which slice it is, `isSome_slice?` when there is
one, and `slice?_line` that the line around a place is one.
-/

namespace QueryMarkup

theorem length_le_byteSize (text : List Char) : text.length ≤ byteSize text := by
  induction text with
  | nil => exact Nat.le_refl 0
  | cons c text ih =>
    have hc := c.utf8Size_pos
    rw [byteSize, List.length_cons]
    omega

theorem byteSize_eq_zero {text : List Char} (h : byteSize text = 0) : text = [] :=
  List.eq_nil_of_length_eq_zero (Nat.le_zero.1 (h ▸ length_le_byteSize text))

/-- The text in front of a byte offset and the text behind it, if the offset is a boundary. -/
def split? : List Char → (offset : Nat) → Option (List Char × List Char)
  | text, 0 => some ([], text)
  | [], _ + 1 => none
  | c :: rest, offset + 1 =>
    if c.utf8Size ≤ offset + 1 then
      (split? rest (offset + 1 - c.utf8Size)).map fun parts => (c :: parts.1, parts.2)
    else none

theorem split?_append (front back : List Char) :
    split? (front ++ back) (byteSize front) = some (front, back) := by
  induction front with
  | nil => cases back <;> rfl
  | cons c front ih =>
    have hc := c.utf8Size_pos
    obtain ⟨offset, hoffset⟩ := Nat.exists_eq_add_one.2 (show 0 < byteSize (c :: front) by
      rw [byteSize]
      omega)
    have hle : c.utf8Size ≤ offset + 1 := by
      rw [← hoffset, byteSize]
      omega
    have hrest : offset + 1 - c.utf8Size = byteSize front := by
      rw [← hoffset, byteSize, Nat.add_sub_cancel_left]
    rw [hoffset, List.cons_append, split?, if_pos hle, hrest, ih]
    rfl

theorem split?_eq_some {text front back : List Char} {offset : Nat} :
    split? text offset = some (front, back) ↔ text = front ++ back ∧ byteSize front = offset := by
  constructor
  · intro h
    induction text generalizing offset front with
    | nil =>
      cases offset with
      | zero =>
        obtain ⟨rfl, rfl⟩ := Prod.mk.inj (Option.some.inj h)
        exact ⟨rfl, rfl⟩
      | succ offset => cases h
    | cons c rest ih =>
      cases offset with
      | zero =>
        obtain ⟨rfl, rfl⟩ := Prod.mk.inj (Option.some.inj h)
        exact ⟨rfl, rfl⟩
      | succ offset =>
        rw [split?] at h
        split at h
        · obtain ⟨parts, hparts, heq⟩ := Option.map_eq_some_iff.1 h
          obtain ⟨rfl, rfl⟩ := Prod.mk.inj heq
          obtain ⟨hrest, hsize⟩ := ih hparts
          refine ⟨by rw [hrest, List.cons_append], ?_⟩
          rw [byteSize]
          omega
        · cases h
  · rintro ⟨rfl, rfl⟩
    exact split?_append front back

theorem isSome_split? {text : String} {offset : Nat} :
    (split? text.toList offset).isSome = true ↔ (String.Pos.Raw.mk offset).IsValid text := by
  rw [Option.isSome_iff_exists, String.Pos.Raw.isValid_iff_exists_append]
  constructor
  · rintro ⟨⟨front, back⟩, h⟩
    obtain ⟨htext, hsize⟩ := split?_eq_some.1 h
    refine ⟨String.ofList front, String.ofList back, ?_, ?_⟩
    · rw [← String.ofList_append, ← htext, String.ofList_toList]
    · rw [← hsize, byteSize_eq]
      rfl
  · rintro ⟨front, back, rfl, h⟩
    refine ⟨(front.toList, back.toList), split?_eq_some.2 ⟨String.toList_append, ?_⟩⟩
    rw [byteSize_eq, String.ofList_toList]
    exact (congrArg String.Pos.Raw.byteIdx h).symm

/-- The text between two byte offsets, if the first is not behind the second and both are boundaries
of characters. -/
def slice? (text : List Char) (start stop : Nat) : Option (List Char) :=
  if start ≤ stop then
    (split? text start).bind fun parts => (split? parts.2 (stop - start)).map Prod.fst
  else none

theorem slice?_eq_some {text part : List Char} {start stop : Nat} :
    slice? text start stop = some part ↔ ∃ front back, text = front ++ (part ++ back) ∧
      byteSize front = start ∧ start + byteSize part = stop := by
  unfold slice?
  constructor
  · intro h
    split at h
    · obtain ⟨⟨front, behind⟩, hfront, h⟩ := Option.bind_eq_some_iff.1 h
      obtain ⟨⟨middle, back⟩, hpart, hmiddle⟩ := Option.map_eq_some_iff.1 h
      obtain rfl : middle = part := hmiddle
      obtain ⟨rfl, hsize⟩ := split?_eq_some.1 hfront
      obtain ⟨rfl, hstop⟩ := split?_eq_some.1 hpart
      exact ⟨front, back, rfl, hsize, by omega⟩
    · cases h
  · rintro ⟨front, back, rfl, rfl, rfl⟩
    rw [if_pos (Nat.le_add_right _ _), split?_append, Option.bind_some, Nat.add_sub_cancel_left,
      split?_append, Option.map_some]

theorem isSome_slice? {text : String} {start stop : Nat} :
    (slice? text.toList start stop).isSome = true ↔ start ≤ stop ∧
      (String.Pos.Raw.mk start).IsValid text ∧ (String.Pos.Raw.mk stop).IsValid text := by
  simp only [← isSome_split?, Option.isSome_iff_exists]
  constructor
  · rintro ⟨part, h⟩
    obtain ⟨front, back, htext, hstart, hstop⟩ := slice?_eq_some.1 h
    refine ⟨by omega, ⟨_, split?_eq_some.2 ⟨htext, hstart⟩⟩,
      ⟨_, split?_eq_some.2 ⟨htext.trans (List.append_assoc ..).symm, ?_⟩⟩⟩
    rw [byteSize_append]
    omega
  · rintro ⟨hle, ⟨⟨front, behind⟩, hfront⟩, ⟨upTo, back⟩, hback⟩
    obtain ⟨htext, hstart⟩ := split?_eq_some.1 hfront
    obtain ⟨htext', hstop⟩ := split?_eq_some.1 hback
    rcases List.append_eq_append_iff.1 (htext.symm.trans htext') with
      ⟨part, rfl, rfl⟩ | ⟨part, rfl, rfl⟩
    · refine ⟨part, slice?_eq_some.2 ⟨front, back, htext, hstart, ?_⟩⟩
      rw [byteSize_append] at hstop
      omega
    · rw [byteSize_append] at hstart
      obtain rfl := byteSize_eq_zero (show byteSize part = 0 by omega)
      refine ⟨[], slice?_eq_some.2 ⟨upTo, _, htext', ?_, ?_⟩⟩
      · rw [byteSize] at hstart
        omega
      · rw [byteSize]
        omega

/-! ## Lines -/

/-- The byte offset of the first such character. -/
def find? (c : Char) : List Char → Option Nat
  | [] => none
  | x :: rest => if x = c then some 0 else (find? c rest).map (x.utf8Size + ·)

/-- The byte offset of the last such character. -/
def rfind? (c : Char) : List Char → Option Nat
  | [] => none
  | x :: rest =>
    match rfind? c rest with
    | some offset => some (x.utf8Size + offset)
    | none => if x = c then some 0 else none

/-- Where the last line starts. -/
def lineStart (text : List Char) : Nat := (rfind? '\n' text).elim 0 (· + 1)

theorem find?_newline (text : List Char) :
    (find? '\n' text).getD (byteSize text) = byteSize (firstLine text) := by
  induction text with
  | nil => rfl
  | cons x rest ih =>
    by_cases h : x = '\n'
    · simp [find?, firstLine, h, byteSize]
    · have hx : firstLine (x :: rest) = x :: firstLine rest :=
        List.takeWhile_cons_of_pos (by simpa using h)
      rw [find?, if_neg h, hx, byteSize, byteSize, ← ih]
      cases find? '\n' rest <;> rfl

theorem rfind?_append_singleton (c x : Char) (text : List Char) :
    rfind? c (text ++ [x]) = if x = c then some (byteSize text) else rfind? c text := by
  induction text with
  | nil => rfl
  | cons y text ih =>
    rw [List.cons_append, rfind?, ih, rfind?]
    by_cases h : x = c
    · simp [h, byteSize]
    · simp [h]

/-- The last line is the slice from where it starts. -/
theorem exists_eq_append_lastLine (text : List Char) :
    ∃ front, text = front ++ lastLine text ∧ byteSize front = lineStart text := by
  induction text using List.reverseRecOn with
  | nil => exact ⟨[], rfl, rfl⟩
  | append_singleton text x ih =>
    obtain ⟨front, htext, hsize⟩ := ih
    rw [lastLine_append_singleton, lineStart, rfind?_append_singleton]
    by_cases h : x = '\n'
    · rw [if_pos h, if_pos h]
      refine ⟨text ++ [x], (List.append_nil _).symm, ?_⟩
      rw [byteSize_append, h]
      rfl
    · rw [if_neg h, if_neg h]
      exact ⟨front, by rw [← List.append_assoc, ← htext], hsize⟩

theorem slice?_lastLine (text : List Char) :
    slice? text (lineStart text) (byteSize text) = some (lastLine text) := by
  obtain ⟨front, htext, hsize⟩ := exists_eq_append_lastLine text
  refine slice?_eq_some.2 ⟨front, [], by rw [List.append_nil, ← htext], hsize, ?_⟩
  rw [← hsize, ← byteSize_append, ← htext]

/-- From where the last line in front of a place starts to where the first one behind it ends. -/
theorem slice?_line (before behind : List Char) :
    slice? (before ++ behind) (lineStart before)
        (byteSize before + (find? '\n' behind).getD (byteSize behind)) =
      some (lastLine before ++ firstLine behind) := by
  obtain ⟨front, hbefore, hsize⟩ := exists_eq_append_lastLine before
  have hbehind : firstLine behind ++ behind.dropWhile (· ≠ '\n') = behind :=
    List.takeWhile_append_dropWhile
  refine slice?_eq_some.2 ⟨front, behind.dropWhile (· ≠ '\n'), ?_, hsize, ?_⟩
  · rw [List.append_assoc, hbehind, ← List.append_assoc, ← hbefore]
  · rw [find?_newline, ← hsize, byteSize_append, ← Nat.add_assoc, ← byteSize_append, ← hbefore]

end QueryMarkup
