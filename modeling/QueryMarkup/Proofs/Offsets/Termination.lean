import QueryMarkup.Proofs.Offsets.Progress
import QueryMarkup.Proofs.Offsets.Safety
import QueryMarkup.Proofs.Reading.Active

/-!
# Reading ends within bounds

Each byte that is passed is passed once. So a loop goes round no more often than there are bytes,
and since a name stands in front of each selection, no more selections are inside each other than
bytes or than the limit, but for one that is refused. Cut off at these bounds, the machine still
does what reading does.
-/

namespace QueryMarkup.Checked

variable {text : List Char} {limit : Nat}

/-- A failure leaves no more selections open than there are bytes. -/
theorem opened_le_byteSize {f : Failure}
    (hf : ((Parse.document limit limit).run (.start text)).result = .error f) :
    f.opened ≤ byteSize text := by
  have hagrees : Agrees text 0 (Run.document text limit) (Parse.document limit (limit - 0))
      (.start text) := agrees_document limit (Nat.zero_le _)
  obtain ⟨m, -, hat⟩ := hagrees.error (.refl _) (isAt_start text) hf
  have hdepth := m.depth_le
  rw [hat.depth, hat.position, Nat.zero_add] at hdepth
  have hstop := byteSize_eq_offset_add (Parse.reaches_stop hf)
  omega

/-- With room for as many selections in each other as there are bytes none is refused. -/
theorem not_isRefusal {f : Failure}
    (hf : ((Parse.document limit (byteSize text)).run (.start text)).result = .error f) :
    ¬f.IsRefusal := by
  intro hrefusal
  have hopened := Parse.opened_of_isRefusal hf hrefusal
  rw [Parse.quoting_document limit (byteSize text), Outcome.quoting] at hf
  cases hg : ((Parse.document (byteSize text) (byteSize text)).run (.start text)).result with
  | ok r =>
    rw [hg] at hf
    cases hf
  | error g =>
    rw [hg] at hf
    obtain rfl := Except.error.inj hf
    have hle : g.opened ≤ byteSize text := opened_le_byteSize hg
    have hsame : g.opened = byteSize text + 1 := hopened
    omega

theorem nests_start (text : List Char) (limit : Nat) :
    Nests (min limit (byteSize text) + 1) ((Session.start text limit).outcome.trace ()) := by
  show Nests _ (((Parse.document limit limit).run (.start text)).trace ())
  rcases Nat.lt_or_ge (byteSize text) limit with hlt | hle
  · rw [Nat.min_eq_right (Nat.le_of_lt hlt)]
    have hwidens : ((Parse.document limit (byteSize text)).run (.start text)).Widens
        ((Parse.document limit limit).run (.start text)) := Parse.widens_document hlt _
    rcases hwidens with ⟨hsame, -⟩ | ⟨f, hf, hrefusal, -⟩
    · rw [hsame]
      exact Parse.nests_document limit (byteSize text) _
    · exact (not_isRefusal hf hrefusal).elim
  · rw [Nat.min_eq_left hle]
    exact Parse.nests_document limit limit _

/-- Reading the text as a document ends within bounds. -/
structure Terminates (text : List Char) (limit : Nat) : Prop where
  /-- At no time are more selections active than the limit or the bytes admit, and one more. -/
  active : ∀ before, before <+: (Session.start text limit).outcome.trace () →
    ∃ opened, openRules [] before = some opened ∧
      opened.count .object ≤ min limit (byteSize text) + 1
  blanks : Run.MovesOn text (.skipWhile text Parse.isBlank) (Run.skipStep text Parse.isBlank) ()
  name : Run.MovesOn text (.skipWhile text Identifier.isPart)
    (Run.skipStep text Identifier.isPart) ()
  digits : Run.MovesOn text (.skipWhile text Char.isDigit) (Run.skipStep text Char.isDigit) ()
  string : ∀ quote, Run.MovesOn text (.stringBody text quote) (Run.stringStep text quote) ()
  pairs : ∀ before, Run.MovesOn text (.eachAfter text ',' (.pair text) before)
    (Run.eachStep text ',' (.pair text)) before
  filters : ∀ before, Run.MovesOn text (.eachAfter text '.' (.filter text) before)
    (Run.eachStep text '.' (.filter text)) before
  properties : ∀ calls before,
    Run.MovesOn text
      (.eachAfter text ',' (.property text (.selectionAfter text limit calls)) before)
      (Run.eachStep text ',' (.property text (.selectionAfter text limit calls))) before
  objects : ∀ before, Run.MovesOn text (.eachAfter text ',' (.object text limit) before)
    (Run.eachStep text ',' (.object text limit)) before
  object : (Run.object text limit).Advances
  property : ∀ calls, (Run.property text (.selectionAfter text limit calls)).Advances
  filter : (Run.filter text).Advances
  arguments : (Run.arguments text).Advances
  literal : (Run.literal text).Advances
  document : (Run.document text limit).Forward
  /-- The places in the trace lie in order up to the one where reading stops. -/
  places : Visits (.start text) ((Session.start text limit).outcome.trace ())
    (Session.start text limit).advance.cursor
  /-- With as many calls and rounds as there are at most, the machine comes to the same. -/
  cutOff : ∃ m, Run.document text limit .start = some ((Session.start text limit).result, m) ∧
    m.position = (Session.start text limit).advance.cursor.position

theorem visits_advance (s : Session) :
    Visits s.cursor (s.outcome.trace ()) s.advance.cursor := by
  have hforward : s.outcome.Forward s.cursor := Parse.forward _ _
  unfold Outcome.Forward at hforward
  cases hr : s.outcome.result with
  | ok r =>
    rw [hr] at hforward
    rw [Session.advance_of_ok hr]
    exact hforward
  | error f =>
    rw [hr] at hforward
    rw [Session.advance_of_error hr]
    exact hforward.1

theorem reading_terminates (text : String) (limit : Nat) : Terminates text.toList limit := by
  obtain ⟨m, hm, hat⟩ := document_eq (Session.isAt_start text limit) (isAt_start text.toList)
  have hproperty : ∀ calls,
      (Run.property text.toList (.selectionAfter text.toList limit calls)).Advances := fun calls =>
    Run.advances_property _ (Run.forward_selectionAfter _ limit calls)
  exact {
    active := fun before h => by simpa using nests_start text.toList limit [] before h
    blanks := Run.skipWhile_movesOn _ _
    name := Run.skipWhile_movesOn _ _
    digits := Run.skipWhile_movesOn _ _
    string := Run.stringBody_movesOn _
    pairs := Run.eachAfter_movesOn _ _ (Run.advances_pair _).forward
    filters := Run.eachAfter_movesOn _ _ (Run.advances_filter _).forward
    properties := fun calls => Run.eachAfter_movesOn _ _ (hproperty calls).forward
    objects := Run.eachAfter_movesOn _ _ (Run.advances_object _ limit).forward
    object := Run.advances_object _ limit
    property := hproperty
    filter := Run.advances_filter _
    arguments := Run.advances_arguments _
    literal := Run.advances_literal _
    document := (Run.advances_document _ limit).forward
    places := visits_advance (.start text.toList limit)
    cutOff := ⟨m, hm, hat.position⟩ }

end QueryMarkup.Checked
