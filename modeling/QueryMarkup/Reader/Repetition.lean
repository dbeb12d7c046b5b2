import QueryMarkup.Reader.Parse

/-!
# Repetition

Lists of items that a sign separates or introduces. Each further item comes behind the sign, so
there are no more of them than characters: `afterEach` reads as many as the text has characters, and
`afterEach_eq` says that it reads on as long as the sign comes next.
-/

namespace QueryMarkup.Parse

variable {α : Type}

/-- Reads an item if `sign` comes next, and then `more` of them. -/
def afterSign (sign : Char) (item : Parse α) (more : Parse (List α)) : Parse (List α) := do
  if ← eat sign then
    let a ← item
    let others ← more
    return a :: others
  else
    return []

/-- What reads more starts further on. -/
theorem run_afterSign_congr {sign : Char} {item : Parse α} {more more' : Parse (List α)}
    {c : Cursor}
    (h : ∀ d : Cursor, d.rest.length < c.rest.length → more.run d = more'.run d) :
    (afterSign sign item more).run c = (afterSign sign item more').run c := by
  simp only [afterSign, run_bind]
  generalize he : (eat sign).run c = o
  obtain ⟨t, f | ⟨again, d⟩⟩ := o
  · rfl
  · cases again with
    | false => rfl
    | true =>
      have hd : d.rest.length < c.rest.length := length_lt_of_eat (by rw [he])
      simp only [Outcome.andThen_ok, if_true, run_bind]
      generalize hi : item.run d = o
      obtain ⟨u, f | ⟨a, e⟩⟩ := o
      · rfl
      · have he : e.rest.length ≤ d.rest.length := item.length_le (by rw [hi])
        simp only [Outcome.andThen_ok, run_bind, h e (by omega)]

theorem run_afterSign_nil {sign : Char} {item : Parse α} {more : Parse (List α)} {c : Cursor}
    (h : c.rest = []) : (afterSign sign item more).run c = ⟨fun _ => [], .ok ([], c)⟩ := by
  have he : (eat sign).run c = ⟨fun _ => [], .ok (false, c)⟩ := by simp [run_eat, h]
  simp [afterSign, he]

/-- Reads an item as often as `sign` comes next, but no more of them than `bound` has characters. -/
def afterEachUpTo (sign : Char) (item : Parse α) : (bound : List Char) → Parse (List α)
  | [] => pure []
  | _ :: bound => do
    if ← eat sign then
      let a ← item
      let others ← afterEachUpTo sign item bound
      return a :: others
    else
      return []

theorem afterEachUpTo_cons (sign : Char) (item : Parse α) (x : Char) (bound : List Char) :
    afterEachUpTo sign item (x :: bound) = afterSign sign item (afterEachUpTo sign item bound) :=
  rfl

/-- Bounds as long as the text make no difference. -/
theorem run_afterEachUpTo_congr {sign : Char} {item : Parse α} {bound bound' : List Char}
    {c : Cursor} (h : c.rest.length ≤ bound.length) (h' : c.rest.length ≤ bound'.length) :
    (afterEachUpTo sign item bound).run c = (afterEachUpTo sign item bound').run c := by
  induction bound generalizing bound' c with
  | nil =>
    cases bound' with
    | nil => rfl
    | cons y bound' =>
      exact (run_afterSign_nil (List.eq_nil_of_length_eq_zero (Nat.le_zero.1 h))).symm
  | cons x bound ih =>
    cases bound' with
    | nil => exact run_afterSign_nil (List.eq_nil_of_length_eq_zero (Nat.le_zero.1 h'))
    | cons y bound' =>
      simp only [List.length_cons] at h h'
      exact run_afterSign_congr fun d hd => ih (by omega) (by omega)

/-- Reads an item as often as `sign` comes next. -/
def afterEach (sign : Char) (item : Parse α) : Parse (List α) where
  run c := (afterEachUpTo sign item c.rest).run c
  forward c := (afterEachUpTo sign item c.rest).forward c

theorem afterEach_eq (sign : Char) (item : Parse α) :
    afterEach sign item = afterSign sign item (afterEach sign item) := by
  ext c
  show (afterEachUpTo sign item c.rest).run c = _
  generalize hr : c.rest = text
  cases text with
  | nil => rw [run_afterSign_nil hr]; rfl
  | cons x text =>
    have hl : c.rest.length = text.length + 1 := by rw [hr, List.length_cons]
    exact run_afterSign_congr fun d hd => run_afterEachUpTo_congr (by omega) (Nat.le_refl _)

/-- Items with commas between them, at least one. -/
def commaSeparated (item : Parse α) : Parse (List α) := do
  let first ← item
  let others ← afterEach ',' item
  return first :: others

end QueryMarkup.Parse
