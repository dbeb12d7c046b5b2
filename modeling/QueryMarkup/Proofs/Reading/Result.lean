import Mathlib.Data.List.TakeWhile
import QueryMarkup.Reader.Grammar

/-!
# Results of composite readings

What a reading returns, apart from its trace, in terms of its parts: the operations that rules are
built from, the scanners of characters, and the loop over items.
-/

namespace QueryMarkup

namespace Cursor

theorem rest_drop_takeWhile (c : Cursor) (p : Char → Bool) :
    (c.drop (c.rest.takeWhile p).length).rest = c.rest.dropWhile p := by
  have h := List.takeWhile_append_dropWhile (p := p) (l := c.rest)
  calc c.rest.drop (c.rest.takeWhile p).length
      = (c.rest.takeWhile p ++ c.rest.dropWhile p).drop (c.rest.takeWhile p).length := by rw [h]
    _ = c.rest.dropWhile p := List.drop_left

/-- Behind a word that comes next. -/
theorem drop_length {c : Cursor} {word behind : List Char} (h : c.rest = word ++ behind) :
    c.drop word.length = ⟨c.position.afterAll word, behind⟩ := by
  rw [drop, h, List.take_left, List.drop_left]

theorem rest_drop_length {c : Cursor} {word behind : List Char} (h : c.rest = word ++ behind) :
    (c.drop word.length).rest = behind := congrArg Cursor.rest (drop_length h)

theorem drop_drop (c : Cursor) (m n : Nat) : (c.drop m).drop n = c.drop (m + n) := by
  simp only [drop, List.drop_drop, ← Position.afterAll_append, List.take_add]

theorem drop_of_nil {c : Cursor} (h : c.rest = []) (count : Nat) : c.drop count = c := by
  obtain ⟨position, rest⟩ := c
  obtain rfl : rest = [] := h
  rw [drop, List.take_nil, List.drop_nil]
  rfl

theorem length_drop_lt {c : Cursor} {count : Nat} (hc : c.rest ≠ []) (hcount : 0 < count) :
    (c.drop count).rest.length < c.rest.length := by
  have hlength := List.length_pos_iff.2 hc
  show (c.rest.drop count).length < _
  rw [List.length_drop]
  omega

/-- The cursor behind the blanks. -/
def bare (c : Cursor) : Cursor := c.drop (c.rest.takeWhile Parse.isBlank).length

theorem rest_bare (c : Cursor) : c.bare.rest = c.rest.dropWhile Parse.isBlank :=
  c.rest_drop_takeWhile _

theorem rest_drop_one {c : Cursor} {x : Char} {t : List Char} (h : c.rest = x :: t) :
    (c.drop 1).rest = t := by
  simp [drop, h]

end Cursor

namespace Parse

variable {α β : Type}

theorem reaches_of_ok {p : Parse α} {c d : Cursor} {a : α} (h : (p.run c).result = .ok (a, d)) :
    c.Reaches d := by
  have hf := p.forward c
  unfold Outcome.Forward at hf
  rw [h] at hf
  exact hf.reaches

theorem reaches_of_error {p : Parse α} {c : Cursor} {f : Failure}
    (h : (p.run c).result = .error f) : c.Reaches f.mark := by
  have hf := p.forward c
  unfold Outcome.Forward at hf
  rw [h] at hf
  exact hf.2.1

theorem reaches_stop {p : Parse α} {c : Cursor} {f : Failure} (h : (p.run c).result = .error f) :
    c.Reaches f.stop := by
  have hf := p.forward c
  unfold Outcome.Forward at hf
  rw [h] at hf
  exact hf.2.1.trans hf.2.2

/-! ## Operations -/

theorem result_bind (p : Parse α) (next : α → Parse β) (c : Cursor) :
    ((p >>= next).run c).result =
      match (p.run c).result with
      | .ok (a, d) => ((next a).run d).result
      | .error f => .error f := by
  rw [run_bind]
  unfold Outcome.andThen
  split <;> rename_i h <;> rw [h]

theorem result_bind_of_ok {p : Parse α} {c d : Cursor} {a : α} (next : α → Parse β)
    (h : (p.run c).result = .ok (a, d)) :
    ((p >>= next).run c).result = ((next a).run d).result := by
  rw [result_bind, h]

theorem result_bind_of_error {p : Parse α} {c : Cursor} {f : Failure} (next : α → Parse β)
    (h : (p.run c).result = .error f) : ((p >>= next).run c).result = .error f := by
  rw [result_bind, h]

theorem result_bind_eq_ok {p : Parse α} {next : α → Parse β} {c e : Cursor} {b : β}
    (h : ((p >>= next).run c).result = .ok (b, e)) :
    ∃ a d, (p.run c).result = .ok (a, d) ∧ ((next a).run d).result = .ok (b, e) := by
  rw [result_bind] at h
  split at h
  · rename_i a d hp
    exact ⟨a, d, hp, h⟩
  · cases h

theorem result_bind_eq_error {p : Parse α} {next : α → Parse β} {c : Cursor} {f : Failure}
    (h : ((p >>= next).run c).result = .error f) :
    (p.run c).result = .error f ∨
      ∃ a d, (p.run c).result = .ok (a, d) ∧ ((next a).run d).result = .error f := by
  rw [result_bind] at h
  split at h
  · rename_i a d hp
    exact .inr ⟨a, d, hp, h⟩
  · rename_i g hp
    obtain rfl := Except.error.inj h
    exact .inl hp

theorem result_traced (rule : Rule) (p : Parse α) (c : Cursor) :
    ((traced rule p).run c).result = (p.run c).result := by
  rw [traced, result_bind_of_ok _ (d := c) (a := ()) (by rw [run_note])]
  cases h : (p.run c).result with
  | error f => exact result_bind_of_error _ h
  | ok r =>
    obtain ⟨a, d⟩ := r
    rw [result_bind_of_ok _ h, result_bind_of_ok _ (d := d) (a := ()) (by rw [run_note]), run_pure]

theorem result_inside (p : Parse α) (c : Cursor) :
    ((inside p).run c).result =
      (p.run c).result.mapError fun f => { f with opened := f.opened + 1 } := rfl

theorem result_inside_eq_ok {p : Parse α} {c d : Cursor} {a : α}
    (h : ((inside p).run c).result = .ok (a, d)) : (p.run c).result = .ok (a, d) := by
  rw [result_inside] at h
  cases ho : (p.run c).result with
  | error f =>
    rw [ho] at h
    cases h
  | ok r =>
    rw [ho] at h
    exact h

theorem result_inside_eq_error {p : Parse α} {c : Cursor} {f : Failure}
    (h : ((inside p).run c).result = .error f) :
    ∃ g, (p.run c).result = .error g ∧ f = { g with opened := g.opened + 1 } := by
  rw [result_inside] at h
  cases ho : (p.run c).result with
  | error g =>
    rw [ho] at h
    exact ⟨g, rfl, (Except.error.inj h).symm⟩
  | ok r =>
    rw [ho] at h
    cases h

theorem result_check (p : Parse α) (meaning : α → Except Cause β) (c : Cursor) :
    ((check p meaning).run c).result =
      match (p.run c).result with
      | .ok (a, d) =>
        match meaning a with
        | .ok b => .ok (b, d)
        | .error cause => .error ⟨cause, c, d, 0⟩
      | .error f => .error f := by
  show ((p.run c).andThen _).result = _
  unfold Outcome.andThen
  cases (p.run c).result with
  | error f => rfl
  | ok r =>
    dsimp only
    cases meaning r.1 <;> rfl

theorem result_blanks (c : Cursor) : (blanks.run c).result = .ok ((), c.bare) := rfl

theorem result_look (c : Cursor) : (look.run c).result = .ok (c.rest.head?, c) := by
  rw [look, run_scan, Cursor.drop_zero]

theorem result_next (c : Cursor) : (next.run c).result = .ok ((), c.drop 1) := rfl

theorem result_takeWhile (p : Char → Bool) (c : Cursor) :
    ((takeWhile p).run c).result =
      .ok (c.rest.takeWhile p, c.drop (c.rest.takeWhile p).length) := rfl

theorem result_expected (what : Expected) (c : Cursor) :
    ((expected what : Parse α).run c).result = .error ⟨.unexpected what c.rest.head?, c, c, 0⟩ := by
  rw [expected, result_bind_of_ok _ (result_look c), run_fail]

theorem result_eat (sign : Char) (c : Cursor) :
    ((eat sign).run c).result =
      if c.bare.rest.head? = some sign then .ok (true, c.bare.drop 1) else .ok (false, c.bare) := by
  rw [run_eat]
  show (if c.bare.rest.head? = some sign then _ else _ : Outcome Bool).result = _
  split <;> rfl

theorem result_expect (sign : Char) (what : Expected) (c : Cursor) :
    ((expect sign what).run c).result =
      if c.bare.rest.head? = some sign then .ok ((), c.bare.drop 1)
      else .error ⟨.unexpected what c.bare.rest.head?, c.bare, c.bare, 0⟩ := by
  rw [expect, result_bind, result_eat]
  by_cases h : c.bare.rest.head? = some sign
  · rw [if_pos h, if_pos h]
    rfl
  · rw [if_neg h, if_neg h]
    exact result_expected what c.bare

theorem result_finish (c : Cursor) :
    (finish.run c).result =
      if c.bare.rest = [] then .ok ((), c.bare)
      else .error ⟨.unexpected .endOfInput c.bare.rest.head?, c.bare, c.bare, 0⟩ := by
  rw [finish, result_bind_of_ok _ (result_blanks c), result_bind_of_ok _ (result_look c.bare)]
  cases hr : c.bare.rest with
  | nil => simp
  | cons x t =>
    simp only [List.head?_cons, Option.isSome_some, if_true, reduceCtorEq, if_false]
    rw [result_expected, hr, List.head?_cons]

theorem result_identifier (c : Cursor) :
    (identifier.run c).result =
      if c.bare.rest.head?.any Identifier.isStart then
        .ok (String.ofList (c.bare.rest.takeWhile Identifier.isPart),
          c.bare.drop (c.bare.rest.takeWhile Identifier.isPart).length)
      else .error ⟨.unexpected .identifier c.bare.rest.head?, c.bare, c.bare, 0⟩ := by
  rw [identifier, result_bind_of_ok _ (result_blanks c), result_bind_of_ok _ (result_look c.bare)]
  cases hr : c.bare.rest with
  | nil =>
    have he := result_expected (α := String) .identifier c.bare
    rw [hr] at he
    simpa using he
  | cons x t =>
    have he := result_expected (α := String) .identifier c.bare
    rw [hr] at he
    by_cases hx : Identifier.isStart x = true
    · simp only [List.head?_cons, Option.any_some, hx, if_true]
      rw [result_bind_of_ok _ (result_takeWhile _ c.bare), run_pure, hr]
    · simpa [hx] using he

theorem result_someArguments (c : Cursor) :
    (someArguments.run c).result =
      if startsPair c.rest = true then
        ((do return .named (.ofList (← commaSeparated pair)) : Parse Arguments).run c).result
      else ((do return .positional (← literal) : Parse Arguments).run c).result := by
  rw [someArguments, result_bind_of_ok (a := startsPair c.rest) (d := c)]
  · split <;> rfl
  · rw [run_scan, Cursor.drop_zero]

theorem result_afterEach (sign : Char) (item : Parse α) (c : Cursor) :
    ((afterEach sign item).run c).result =
      if c.bare.rest.head? = some sign then
        ((do let a ← item; let others ← afterEach sign item; return a :: others : Parse _).run
          (c.bare.drop 1)).result
      else .ok ([], c.bare) := by
  have h := congrArg (fun p : Parse (List α) => (p.run c).result) (afterEach_eq sign item)
  simp only [afterSign, result_bind, result_eat] at h
  rw [h]
  by_cases hs : c.bare.rest.head? = some sign
  · simp only [if_pos hs, if_true, result_bind]
  · simp only [if_neg hs, Bool.false_eq_true, if_false, run_pure]

/-- What holds where no item follows, where an item fails and where an item precedes the others
holds of the loop. -/
theorem afterEach_induction {sign : Char} {item : Parse α}
    {P : Cursor → Except Failure (List α × Cursor) → Prop}
    (done : ∀ c, ¬ c.bare.rest.head? = some sign → P c (.ok ([], c.bare)))
    (failed : ∀ c f, c.bare.rest.head? = some sign →
      (item.run (c.bare.drop 1)).result = .error f → P c (.error f))
    (more : ∀ c a d, c.bare.rest.head? = some sign →
      (item.run (c.bare.drop 1)).result = .ok (a, d) → P d ((afterEach sign item).run d).result →
      P c (((afterEach sign item).run d).result.map fun r => (a :: r.1, r.2)))
    (c : Cursor) : P c ((afterEach sign item).run c).result := by
  induction hn : c.rest.length using Nat.strongRecOn generalizing c with
  | ind n ih =>
    rw [result_afterEach]
    by_cases hs : c.bare.rest.head? = some sign
    · rw [if_pos hs]
      cases hi : (item.run (c.bare.drop 1)).result with
      | error f =>
        rw [result_bind_of_error _ hi]
        exact failed c f hs hi
      | ok r =>
        obtain ⟨a, d⟩ := r
        have hlt : d.rest.length < n := by
          have hd := item.length_le hi
          have he := length_lt_of_eat ((result_eat sign c).trans (if_pos hs))
          omega
        have hm := more c a d hs hi (ih _ hlt d rfl)
        rw [result_bind_of_ok _ hi, result_bind]
        cases ho : ((afterEach sign item).run d).result with
        | error f => simpa [ho, Except.map] using hm
        | ok r => simpa [ho, Except.map] using hm
    · rw [if_neg hs]
      exact done c hs

end Parse

end QueryMarkup
