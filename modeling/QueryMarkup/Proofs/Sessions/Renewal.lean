import QueryMarkup.Proofs.Reading.Report
import QueryMarkup.Proofs.Reading.Room
import QueryMarkup.Proofs.Sessions.Depth

/-!
# Sessions begun anew

A session that keeps a depth reads as one begun anew at its place, unless it refuses a selection for
its depth. Then it reports the refusal, and the new session, for which there is more room, has got
beyond that place: so the two results differ.
-/

namespace QueryMarkup

namespace Session

/-- The session begun anew where it is. -/
def renewed (s : Session) : Session := { s with depth := 0 }

/-- The session refuses a selection for its depth. -/
def Refuses (s : Session) : Prop :=
  ∃ r, s.result = .error r ∧ r.message = (Cause.tooDeep s.limit).message

theorem refuses_iff {s : Session} :
    s.Refuses ↔ ∃ f, s.outcome.result = .error f ∧ f.IsRefusal := by
  constructor
  · rintro ⟨r, hr, hmessage⟩
    obtain ⟨f, hf, rfl⟩ := result_eq_error hr
    exact ⟨f, hf, Cause.exists_tooDeep_of_message hmessage⟩
  · rintro ⟨f, hf, hrefusal⟩
    refine ⟨f.report s.text, by rw [result, hf], ?_⟩
    exact congrArg Cause.message (Parse.cause_of_isRefusal hf hrefusal)

/-- Another reading of the text that got beyond a refusal has another result. -/
theorem result_ne_of_beyond {s t : Session} {f : Failure}
    (hf : s.outcome.result = .error f) (hrefusal : f.IsRefusal)
    (hbeyond : Beyond f.mark t.outcome.result) : s.result ≠ t.result := by
  intro hsame
  have hs : s.result = .error (f.report s.text) := by rw [result, hf]
  rw [hs] at hsame
  obtain ⟨g, hg, hreport⟩ := result_eq_error hsame.symm
  rw [hg] at hbeyond
  obtain ⟨hreaches, hbehind⟩ := hbeyond
  have hmessage : g.cause.message = f.cause.message := (congrArg Report.message hreport).symm
  rw [Parse.cause_of_isRefusal hf hrefusal] at hmessage
  have hlt := hreaches.offset_lt (hbehind (Cause.exists_tooDeep_of_message hmessage))
  have hoffset : f.mark.position.offset = g.mark.position.offset :=
    congrArg Report.offset hreport
  omega

theorem result_eq_renewed_iff_not_refuses {s : Session} :
    s.result = s.renewed.result ↔ s.depth = 0 ∨ s.limit = 0 ∨ ¬ s.Refuses := by
  by_cases hroom : s.depth = 0 ∨ s.limit = 0
  · have houtcome : s.outcome = s.renewed.outcome := by
      show (Parse.document s.limit (s.limit - s.depth)).run s.cursor =
        (Parse.document s.limit (s.limit - 0)).run s.cursor
      rw [show s.limit - s.depth = s.limit - 0 by omega]
    have hresult : s.result = s.renewed.result := by
      rw [result, result, houtcome]
      rfl
    exact iff_of_true hresult (or_assoc.1 (.inl hroom))
  · obtain ⟨hdepth, hlimit⟩ := not_or.1 hroom
    have hwidens : s.outcome.Widens s.renewed.outcome :=
      Parse.widens_document (by show s.limit - s.depth < s.limit - 0; omega) s.cursor
    rcases hwidens with ⟨hsame, hnot⟩ | ⟨f, hf, hrefusal, hbeyond⟩
    · have hresult : s.result = s.renewed.result := by
        rw [result, result, hsame]
        rfl
      refine iff_of_true hresult (.inr (.inr fun hrefuses => ?_))
      obtain ⟨f, hf, hrefusal⟩ := refuses_iff.1 hrefuses
      exact hnot f hf hrefusal
    · refine iff_of_false (result_ne_of_beyond hf hrefusal hbeyond) ?_
      rintro (h | h | h)
      · exact hdepth h
      · exact hlimit h
      · exact h (refuses_iff.2 ⟨f, hf, hrefusal⟩)

/-- Only the cursor moves where no selection is left open. -/
theorem advance_eq_iff {s : Session} : s.advance = { s with cursor := s.advance.cursor } ↔
    ∃ left, openRules [] (s.outcome.trace ()) = some left ∧ .object ∉ left := by
  cases hr : s.outcome.result with
  | ok r =>
    obtain ⟨d, c⟩ := r
    have hb := Parse.isBracketed_document s.limit (s.limit - s.depth) s.cursor []
    have hok : ((Parse.document s.limit (s.limit - s.depth)).run s.cursor).result = .ok (d, c) := hr
    rw [hok] at hb
    refine iff_of_true ?_ ⟨[], hb, List.not_mem_nil⟩
    rw [advance_of_ok hr]
  | error f =>
    obtain ⟨left, hleft, hcount⟩ := exists_openRules hr
    rw [advance_of_error hr, hleft]
    constructor
    · intro h
      have hdepth : s.depth + f.opened = s.depth := congrArg Session.depth h
      exact ⟨left, rfl, List.count_eq_zero.1 (by omega)⟩
    · rintro ⟨_, ⟨⟩, hmem⟩
      have hzero : f.opened = 0 := by rw [← hcount, List.count_eq_zero.2 hmem]
      rw [hzero, Nat.add_zero]

/-- After any number of readings the next one is that of a session begun anew at the same place,
exactly if no depth is kept, the limit is zero or no selection is refused for its depth; and it
changes only the cursor exactly if it leaves no selection open. -/
theorem result_eq_renewed_iff (text : String) (limit calls : Nat) :
    let s := advance^[calls] (start text.toList limit)
    (s.result = s.renewed.result ↔ s.depth = 0 ∨ limit = 0 ∨ ¬ s.Refuses) ∧
    (s.advance = { s with cursor := s.advance.cursor } ↔
      ∃ left, openRules [] (s.outcome.trace ()) = some left ∧ .object ∉ left) := by
  intro s
  have hlimit : s.limit = limit := limit_iterate _ _
  refine ⟨?_, advance_eq_iff⟩
  rw [← hlimit]
  exact result_eq_renewed_iff_not_refuses

/-- A failure inside a selection leaves it open, and a document that follows is then refused though it
stands at the root. -/
theorem not_renewed_behind_failure :
    let s := advance^[1] (start "\x7ba\x7b\x7bb\x7bx\x7d\x7d".toList 1)
    (start "\x7ba\x7b\x7bb\x7bx\x7d\x7d".toList 1).advance = ⟨s.text, 1, s.cursor, 1⟩ ∧
    (∃ r, s.result = .error r ∧ r.message = "selections nested deeper than 1") ∧
    s.renewed.result = .ok ⟨[⟨⟨"b", none, []⟩, [.field "x"]⟩]⟩ :=
  ⟨rfl, ⟨_, rfl, rfl⟩, rfl⟩

end Session

end QueryMarkup
