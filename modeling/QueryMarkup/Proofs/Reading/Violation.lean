import QueryMarkup.Proofs.Reading.Complete
import QueryMarkup.Proofs.Reading.Language
import QueryMarkup.Proofs.Reading.Local
import QueryMarkup.Proofs.Reading.Report
import QueryMarkup.Proofs.Reading.Viable

/-!
# Failures point at the first violation

A text that is not loaded goes on, up to where the report points, to a text of the right shape; what
the failure says to be expected there is a way to go on; and no text of the right shape goes on with
the character that it names, or that it refuses for the depth of the nesting.
-/

namespace QueryMarkup

/-- The texts that the grammar derives when literals only have to have the shape of one, whatever
their range or escapes. -/
def Grammar.IsShaped (room : Nat) (text : List Char) : Prop :=
  ∃ d, Grammar.Derives Lexeme.Admits room text d

namespace Failure

/-- The character that the failure says should not be there. -/
def Refuses (f : Failure) (c : Char) : Prop :=
  (∃ what, f.cause = .unexpected what (some c)) ∨
    (∃ limit, f.cause = .tooDeep limit) ∧ f.mark.rest.head? = some c

/-- The failure lies behind `before`: up to there the text is one of the right shape cut short, and
what the failure says about going on is true. -/
structure IsFirstViolation (f : Failure) (room : Nat) (before : List Char) : Prop where
  viable : ∃ rest, Grammar.IsShaped room (before ++ rest)
  ended : ∀ found, f.cause = .unexpected .endOfInput found → Grammar.IsShaped room before
  hint : ∀ what found, f.cause = .unexpected what found → what ≠ .endOfInput →
    (∃ w, what.IsWord w) ∧
      ∀ w, what.IsWord w → ∃ rest, Grammar.IsShaped room (before ++ w ++ rest)
  refusal : ∀ c, f.Refuses c → ∀ rest, ¬ Grammar.IsShaped room (before ++ c :: rest)

theorem Refuses.isPointed {f : Failure} {c : Char} (h : f.Refuses c) : f.cause.IsPointed := by
  rcases h with ⟨what, h⟩ | ⟨⟨limit, h⟩, -⟩ <;> rw [h] <;> trivial

theorem Refuses.head? {f : Failure} {c : Char} (h : f.Refuses c) (hf : f.IsTruthful) :
    f.mark.rest.head? = some c := by
  rcases h with ⟨what, h⟩ | ⟨-, h⟩
  · unfold IsTruthful at hf
    rw [h] at hf
    exact hf.symm
  · exact h

end Failure

theorem Cause.IsPointed.not_isMeaning {cause : Cause} (h : cause.IsPointed) :
    ¬ cause.IsMeaning := by
  cases cause <;> first | exact id | exact h.elim

theorem completes_isShaped {room : Nat} {text : List Char}
    (h : Completes (Grammar.IsDocument Lexeme.Admits room) text) :
    ∃ rest, Grammar.IsShaped room (text ++ rest) := by
  obtain ⟨rest, tokens, d, hs, hd⟩ := h
  exact ⟨rest, d, tokens, hs, hd⟩

/-- On a text of the right shape a document is read, unless a literal has no meaning. -/
theorem Grammar.IsShaped.not_isPointed {room limit : Nat} {text : List Char}
    (h : Grammar.IsShaped room text) {f : Failure}
    (hf : ((Parse.document limit room).run (.start text)).result = .error f) :
    ¬ f.cause.IsPointed := by
  obtain ⟨d, tokens, hs, hd⟩ := h
  have hreads : Parse.Reads Cause.IsMeaning (.document limit room) tokens d [] :=
    Parse.reads_document Parse.readAs_admits hd
  have hy := hreads (.start text) (by rw [List.append_nil]; exact hs)
  unfold Outcome.Yields at hy
  rw [hf] at hy
  exact fun hp => hp.not_isMeaning hy

/-- The same failure is met on every text that goes on with the character refused. -/
theorem Failure.Refuses.not_isShaped {limit room : Nat} {before : List Char} {f : Failure}
    {c : Char} (hf : ((Parse.document limit room).run (.start (before ++ f.mark.rest))).result =
      .error f) (h : f.Refuses c) (rest : List Char) :
    ¬ Grammar.IsShaped room (before ++ c :: rest) := by
  intro hshape
  obtain ⟨t, ht⟩ := List.head?_eq_some_iff.1 (h.head? (Parse.truthful_document _ _ _ _ hf))
  have halike : Alike c t rest (.start (before ++ f.mark.rest)) (.start (before ++ c :: rest)) :=
    ⟨before, by rw [← ht]; rfl, rfl⟩
  have hsimilar := Parse.localAt_document limit room _ _ _ _ _ halike
  rw [hf] at hsimilar
  have hbehind : t.length < f.mark.rest.length := by
    rw [ht, List.length_cons]
    omega
  obtain ⟨f', hr, hcause⟩ := (hsimilar ⟨hbehind, h.isPointed⟩).of_error
  exact hshape.not_isPointed hr (hcause ▸ h.isPointed)

/-- A document fails at the first violation of the grammar. -/
theorem Parse.document_isFirstViolation {limit room : Nat} {text : List Char} {f : Failure}
    (hf : ((document limit (room + 1)).run (.start text)).result = .error f) :
    ∃ before, text = before ++ f.mark.rest ∧ f.mark.position.offset = byteSize before ∧
      f.IsFirstViolation (room + 1) before := by
  have hreaches := (document limit (room + 1)).forward (.start text)
  unfold Outcome.Forward at hreaches
  rw [hf] at hreaches
  obtain ⟨before, htext, hposition⟩ := hreaches.2.1
  have htext : text = before ++ f.mark.rest := htext
  have hoffset : f.mark.position.offset = byteSize before := by
    rw [hposition]
    exact congrArg Position.offset (afterAll_start before)
  have hsame : ∀ passed, text = passed ++ f.mark.rest → passed = before :=
    fun passed h => List.append_cancel_right (h.symm.trans htext)
  refine ⟨before, htext, hoffset, ?_⟩
  have hrefusal := fun c h => Failure.Refuses.not_isShaped (c := c) (htext ▸ hf) h
  rcases viable_document hf with ⟨passed, h, hallows⟩ | ⟨⟨found, hcause⟩, passed, d, h, hd⟩
  · obtain rfl := hsame passed h
    refine ⟨?_, ?_, ?_, hrefusal⟩
    · obtain ⟨w, hw⟩ := hallows.exists_word
      obtain ⟨rest, hrest⟩ := completes_isShaped hw
      exact ⟨w ++ rest, by rwa [← List.append_assoc]⟩
    · intro found hcause
      rw [hcause] at hallows
      exact absurd rfl hallows.1
    · intro what found hcause hne
      rw [hcause] at hallows
      exact ⟨Expected.exists_isWord hne, fun w hw => completes_isShaped (hallows.2 w hw)⟩
  · obtain rfl := hsame passed h
    refine ⟨⟨[], d, by rwa [List.append_nil]⟩, fun _ _ => ⟨d, hd⟩, ?_, hrefusal⟩
    intro what found' h hne
    rw [hcause] at h
    cases h
    exact absurd rfl hne

/-- A text that is not loaded is reported at its first violation of the grammar. -/
theorem Document.loadWith_points_at_first_violation {options : LoadOptions} {text : String}
    {e : Error} (hdepth : 1 ≤ options.maxDepth) (h : Document.loadWith options text = .error e) :
    ∃ f before, (Session.start text.toList options.maxDepth).outcome.result = .error f ∧
      e = .malformed (f.report text.toList) ∧ text.toList = before ++ f.mark.rest ∧
      (f.report text.toList).offset = byteSize before ∧
      f.IsFirstViolation options.maxDepth before := by
  obtain ⟨room, hroom⟩ := Nat.exists_eq_add_of_le' hdepth
  rw [Document.loadWith_eq] at h
  split at h
  · cases h
  · rename_i f hf
    obtain rfl := Except.error.inj h
    have hdocument := hf
    rw [Session.outcome_start, hroom] at hdocument
    obtain ⟨before, htext, hoffset, hviolation⟩ := Parse.document_isFirstViolation hdocument
    exact ⟨f, before, hf, rfl, htext, hoffset, hroom ▸ hviolation⟩

theorem Document.loadWith_points_at_missing_colon : ∃ (options : LoadOptions) (e : Error),
    1 ≤ options.maxDepth ∧ Document.loadWith options "\x7ba(b: null, c" = .error e ∧
    ∃ f before,
      (Session.start "\x7ba(b: null, c".toList options.maxDepth).outcome.result = .error f ∧
      e = .malformed (f.report "\x7ba(b: null, c".toList) ∧
      "\x7ba(b: null, c".toList = before ++ f.mark.rest ∧
      (f.report "\x7ba(b: null, c".toList).offset = byteSize before ∧
      f.IsFirstViolation options.maxDepth before := by
  have hdepth : 1 ≤ LoadOptions.maxDepth {} := by decide
  obtain ⟨e, he⟩ : ∃ e, Document.loadWith {} "\x7ba(b: null, c" = .error e := ⟨_, rfl⟩
  exact ⟨{}, e, hdepth, he, Document.loadWith_points_at_first_violation hdepth he⟩

end QueryMarkup
