import Mathlib.Data.List.DropRight
import QueryMarkup.Proofs.Reading.Exact
import QueryMarkup.Proofs.Reading.Sound
import QueryMarkup.Reader.Load

/-!
# Names by the check and by the reader

A name can be checked as a whole, or read off a text as far as it goes. Both have the same names:
what passes the check is read to its end wherever it comes next, and what is read passes the check.
A text is matched as a name exactly if it passes without the blanks around it.
-/

namespace QueryMarkup

/-- The text without blanks at its ends. -/
def stripBlanks (text : List Char) : List Char :=
  (text.dropWhile Parse.isBlank).rdropWhile Parse.isBlank

theorem exists_blanks_stripBlanks (text : List Char) :
    ∃ before after, Blanks before ∧ Blanks after ∧
      text = before ++ (stripBlanks text ++ after) := by
  refine ⟨text.takeWhile Parse.isBlank, (text.dropWhile Parse.isBlank).rtakeWhile Parse.isBlank,
    blanks_takeWhile text, fun _ hc => List.mem_rtakeWhile_imp hc, ?_⟩
  rw [stripBlanks, List.rdropWhile_append_rtakeWhile, List.takeWhile_append_dropWhile]

/-- Blanks at the ends are all that is stripped from a word that has none itself. -/
theorem stripBlanks_of_blanks {before word after : List Char} (hbefore : Blanks before)
    (hafter : Blanks after) (hword : ∀ c ∈ word, Parse.isBlank c = false) :
    stripBlanks (before ++ (word ++ after)) = word := by
  have hreversed : ∀ c ∈ word.reverse.head?, Parse.isBlank c = false := fun c hc =>
    hword c (List.mem_reverse.1 (List.mem_of_mem_head? hc))
  cases word with
  | nil =>
    have hall : Blanks (before ++ after) := hbefore.append hafter
    rw [List.nil_append, stripBlanks, hall.dropWhile, List.rdropWhile_nil]
  | cons x rest =>
    have hx : ∀ c ∈ (x :: rest ++ after).head?, Parse.isBlank c = false := by
      rintro _ ⟨⟩
      exact hword x List.mem_cons_self
    have hafter' : ∀ c ∈ after.reverse, Parse.isBlank c = true := fun c hc =>
      hafter c (List.mem_reverse.1 hc)
    rw [stripBlanks, dropWhile_append_of_head hbefore hx, List.rdropWhile, List.reverse_append,
      dropWhile_append_of_head hafter' hreversed, List.reverse_reverse]

namespace Identifier

theorem isBlank_of_mem {name : List Char} (h : isIdentifier name = true) :
    ∀ c ∈ name, Parse.isBlank c = false :=
  fun c hc => isBlank_of_isPart (isPart_of_mem h c hc)

end Identifier

/-- A name is read as it is in front of a character that is part of none. -/
theorem Parse.passes_name {name : String} {behind : List Char}
    (hname : Identifier.isIdentifier name.toList = true)
    (hbehind : ∀ x ∈ behind.head?, Identifier.isPart x = false) :
    Passes identifier name.toList name behind := by
  show Passes identifier ([] ++ name.toList) name behind
  exact passes_identifier (List.forall_mem_nil _) hname hbehind

/-- Whatever name is read passes the check, and a name that passes is read as it is. -/
theorem Identifier.isIdentifier_iff_reads {s : String} {behind : List Char}
    (hbehind : ∀ x ∈ behind.head?, isPart x = false) {c : Cursor}
    (hc : c.rest = s.toList ++ behind) :
    isIdentifier s.toList = true ↔
      (Parse.identifier.run c).result = .ok (s, c.drop s.toList.length) :=
  ⟨fun hs => Parse.passes_name hs hbehind c hc, fun h => (Parse.identifier_sound h).1⟩

theorem Blanks.isPart_head? {text : List Char} (h : Blanks text) :
    ∀ x ∈ text.head?, Identifier.isPart x = false :=
  fun x hx => (isPart_of_isBlank (h x (List.mem_of_mem_head? hx))).1

/-- A text matches a rule if the whole of it is read by that rule. -/
theorem recognize_eq_ok_iff_reads {rule : Rule} {text : String} :
    recognize rule text = .ok () ↔ ∃ d, ((Parse.whole maxNesting maxNesting rule).run
      (.start text.toList)).result = .ok ((), d) := by
  rw [recognize]
  split
  · rename_i r hr
    exact ⟨fun _ => ⟨r.2, hr⟩, fun _ => rfl⟩
  · rename_i f hf
    rw [hf]
    simp

/-- A text is matched as a name exactly if it is one with blanks around. -/
theorem recognize_identifier_iff {t : String} :
    recognize .identifier t = .ok () ↔ ∃ before name after, Blanks before ∧ Blanks after ∧
      Identifier.isIdentifier name = true ∧ t.toList = before ++ (name ++ after) := by
  rw [recognize_eq_ok_iff_reads]
  constructor
  · rintro ⟨e, h⟩
    obtain ⟨name, d, hname, h⟩ := Parse.result_bind_eq_ok h
    obtain ⟨hcheck, hc⟩ := Parse.identifier_sound hname
    have hafter : Blanks d.rest := by
      rw [Parse.result_finish] at h
      split at h
      · rename_i hend
        rw [Cursor.rest_bare, List.dropWhile_eq_nil_iff] at hend
        exact hend
      · cases h
    refine ⟨_, name.toList, d.rest, blanks_takeWhile t.toList, hafter, hcheck, ?_⟩
    rw [← List.append_assoc]
    exact hc
  · rintro ⟨before, name, after, hbefore, hafter, hcheck, ht⟩
    obtain ⟨name, rfl⟩ : ∃ s : String, name = s.toList := ⟨_, String.toList_ofList.symm⟩
    rw [← List.append_assoc] at ht
    have hname := Parse.passes_identifier hbefore hcheck hafter.isPart_head? (.start t.toList) ht
    have hend := Cursor.rest_drop_length (c := .start t.toList) ht
    refine ⟨_, (Parse.result_bind_of_ok _ hname).trans ((Parse.result_finish _).trans (if_pos ?_))⟩
    rw [Cursor.rest_bare, hend, hafter.dropWhile]

/-- A text matches as a name exactly if it passes the check without its blanks. -/
theorem recognize_identifier_iff_stripBlanks {t : String} :
    recognize .identifier t = .ok () ↔ Identifier.isIdentifier (stripBlanks t.toList) = true := by
  rw [recognize_identifier_iff]
  constructor
  · rintro ⟨before, name, after, hbefore, hafter, hcheck, ht⟩
    rwa [ht, stripBlanks_of_blanks hbefore hafter (Identifier.isBlank_of_mem hcheck)]
  · intro hcheck
    obtain ⟨before, after, hbefore, hafter, ht⟩ := exists_blanks_stripBlanks t.toList
    exact ⟨before, _, after, hbefore, hafter, hcheck, ht⟩

/-- The check and the reader have the same names. In front of a character that is part of no name a
string passes the check exactly if it starts with no blank and is read as it is, up to its end. A
text matches as a name exactly if it passes the check without the blanks around it. -/
theorem Identifier.check_agrees_with_reading :
    (∀ (s : String) (behind : List Char), (∀ x ∈ behind.head?, isPart x = false) →
      ∀ c : Cursor, c.rest = s.toList ++ behind →
        (isIdentifier s.toList = true ↔
          (∀ x ∈ s.toList.head?, Parse.isBlank x = false) ∧
          (Parse.identifier.run c).result = .ok (s, ⟨c.position.afterAll s.toList, behind⟩))) ∧
    ∀ t : String, recognize .identifier t = .ok () ↔
      isIdentifier (stripBlanks t.toList) = true := by
  refine ⟨fun s behind hbehind c hc => ?_, fun t => recognize_identifier_iff_stripBlanks⟩
  rw [← Cursor.drop_length hc, ← isIdentifier_iff_reads hbehind hc]
  exact ⟨fun hs => ⟨fun x hx => isBlank_of_mem hs x (List.mem_of_mem_head? hx), hs⟩, And.right⟩

/-- A vertical tab ends a name but is no blank. -/
theorem Identifier.check_agrees_with_reading_at_tab :
    (∀ x ∈ ['\x0b'].head?, isPart x = false) ∧ isIdentifier "a/2".toList = true ∧
    (Parse.identifier.run (.start "a/2\x0b".toList)).result =
      .ok ("a/2", ⟨⟨3, 1, 4⟩, ['\x0b']⟩) ∧
    recognize .identifier " a/2\t" = .ok () ∧ recognize .identifier " a/2\x0b" ≠ .ok () := by
  obtain ⟨hreads, htexts⟩ := check_agrees_with_reading
  have hbehind : ∀ x ∈ ['\x0b'].head?, isPart x = false := by
    rintro _ ⟨⟩
    decide
  have hcheck : isIdentifier "a/2".toList = true := by decide
  obtain ⟨-, hread⟩ := (hreads "a/2" ['\x0b'] hbehind (.start "a/2\x0b".toList) rfl).1 hcheck
  exact ⟨hbehind, hcheck, hread, (htexts _).2 (by decide),
    fun h => absurd ((htexts _).1 h) (by decide)⟩

end QueryMarkup
