import QueryMarkup.Proofs.Reading.Complete
import QueryMarkup.Proofs.Reading.Sound
import QueryMarkup.Reader.Load

/-!
# The language that is read

Loading accepts the texts that the grammar derives, and returns the document that a text is derived
for.

A text can also be matched as a whole against any rule of the grammar. It matches exactly if its
tokens are derived by that rule, those that a rule starts with included: the parenthesis of an
argument list, the dot of a filter, the name of a header.
-/

namespace QueryMarkup

theorem Document.loadWith_eq (options : LoadOptions) (text : String) :
    Document.loadWith options text =
      match (Session.start text.toList options.maxDepth).outcome.result with
      | .ok (d, _) => .ok d
      | .error f => .error (.malformed (f.report text.toList)) := by
  show (Session.start text.toList options.maxDepth).result.mapError Error.malformed = _
  rw [Session.result]
  cases (Session.start text.toList options.maxDepth).outcome.result <;> rfl

theorem Session.outcome_start (text : List Char) (limit : Nat) :
    (Session.start text limit).outcome = (Parse.document limit limit).run (.start text) := rfl

/-- A document is read only off a text that is derived for it. -/
theorem Document.derives_of_loadWith {options : LoadOptions} {text : String} {d : Document}
    (h : Document.loadWith options text = .ok d) :
    Grammar.Derives Lexeme.Denotes options.maxDepth text.toList d := by
  rw [Document.loadWith_eq, Session.outcome_start] at h
  split at h
  · rename_i d' e hr
    obtain rfl := Except.ok.inj h
    obtain ⟨passed, tokens, hc, hs, hd⟩ := Parse.finds_document (fun h => h) _ _ _ _ _ hr
    have ht : text.toList = passed := by
      rw [Parse.rest_of_document hr, List.append_nil] at hc
      exact hc
    exact ⟨tokens, ht ▸ hs, hd⟩
  · cases h

/-- A text that is derived for a document is read as it. -/
theorem Document.loadWith_of_derives {options : LoadOptions} {text : String} {d : Document}
    (h : Grammar.Derives Lexeme.Denotes options.maxDepth text.toList d) :
    Document.loadWith options text = .ok d := by
  obtain ⟨tokens, hs, hd⟩ := h
  have hreads : Parse.Reads (fun _ => False) (.document options.maxDepth options.maxDepth) tokens
      d [] := Parse.reads_document Parse.readAs_denotes hd
  have hy := hreads (.start text.toList) (by rw [List.append_nil]; exact hs)
  rw [Document.loadWith_eq, Session.outcome_start]
  unfold Outcome.Yields at hy
  split at hy
  · rename_i d' e hr
    rw [hr, hy.1]
  · exact hy.elim

/-- A text is loaded as a document exactly if the grammar derives it for that document. -/
theorem Document.loadWith_eq_ok_iff (options : LoadOptions) (text : String) (d : Document) :
    Document.loadWith options text = .ok d ↔
      Grammar.Derives Lexeme.Denotes options.maxDepth text.toList d :=
  ⟨Document.derives_of_loadWith, Document.loadWith_of_derives⟩

/-- The tokens are derived by the rule, selections nested at most `room` deep. -/
def Grammar.Matches (Means : Lexeme → Literal → Prop) (room : Nat) : Rule → List Token → Prop
  | .literal, s => ∃ x l, s = [.literal x] ∧ Means x l
  | .identifier, s => ∃ n, s = [.name n]
  | .argumentList, s => ∃ a, IsArguments Means s a
  | .filter, s => ∃ f, IsFilter Means s f
  | .header, s => ∃ h, IsHeader Means s h
  | .property, s => ∃ p, IsProperty (IsObject Means room) s p
  | .object, s => ∃ x, IsObject Means room s x
  | .document, s => ∃ d, IsDocument Means room s d

namespace Parse

variable {α : Type}

/-! ## Texts that match a rule -/

theorem finds_ended {p : Parse α} {S : List Token → α → Prop} {T : List Token → Prop}
    (hp : Finds p S) (h : ∀ s a, S s a → T s) : Finds (do let _ ← p; finish) fun s _ => T s := by
  refine hp.bind fun s a hs => finds_finish.mono fun t _ ht => ?_
  rw [ht, List.append_nil]
  exact h s a hs

theorem finds_behindSign {p : Parse α} {S : List Token → α → Prop} {sign : Char}
    (hs : sign ∈ Token.signs) (what : Expected) (hp : Finds p S) :
    Finds (do expect sign what; let _ ← p; finish)
      fun s _ => ∃ t a, s = .sign sign :: t ∧ S t a := by
  refine (finds_expect hs what).bind fun s _ hs => ?_
  subst hs
  exact finds_ended hp fun t a ht => ⟨t, a, rfl, ht⟩

/-- What matches a rule is derived by it. -/
theorem finds_whole {Means : Lexeme → Literal → Prop} (hM : ∀ {x l}, x.Denotes l → Means x l)
    (limit room : Nat) (rule : Rule) :
    Finds (whole limit room rule) fun s _ => Grammar.Matches Means room rule s := by
  cases rule with
  | literal => exact finds_ended finds_literal fun s l ⟨x, hs, hx⟩ => ⟨x, l, hs, hM hx⟩
  | identifier => exact finds_ended finds_identifier fun s n hs => ⟨n, hs⟩
  | argumentList =>
    refine (finds_behindSign (by decide) _ (finds_arguments hM)).mono ?_
    rintro s - ⟨t, a, rfl, ha⟩
    exact ⟨a, ha⟩
  | filter =>
    refine (finds_behindSign (by decide) _ (finds_filter hM)).mono ?_
    rintro s - ⟨t, f, rfl, hf⟩
    exact ⟨f, hf⟩
  | header =>
    refine finds_identifier.bind fun s n hs => ?_
    subst hs
    exact finds_ended (finds_headerAfter hM n) fun t header ht => ⟨header, ht⟩
  | property =>
    exact finds_ended (finds_property (finds_selectionAfter hM limit room)) fun s p hs => ⟨p, hs⟩
  | object => exact finds_ended (finds_object hM limit room) fun s x hs => ⟨x, hs⟩
  | document =>
    refine (finds_document hM limit room).bind fun s d hs => .pure ?_
    rw [List.append_nil]
    exact ⟨d, hs⟩

theorem rest_of_ended {p : Parse α} {c e : Cursor}
    (h : ((p >>= fun _ => finish).run c).result = .ok ((), e)) : e.rest = [] := by
  obtain ⟨_, _, -, h⟩ := result_bind_eq_ok h
  exact rest_of_finish h

theorem rest_of_whole {limit room : Nat} {rule : Rule} {c e : Cursor}
    (h : ((whole limit room rule).run c).result = .ok ((), e)) : e.rest = [] := by
  cases rule with
  | literal => exact rest_of_ended h
  | identifier => exact rest_of_ended h
  | property => exact rest_of_ended h
  | object => exact rest_of_ended h
  | document =>
    obtain ⟨_, _, hd, h⟩ := result_bind_eq_ok h
    obtain ⟨-, rfl⟩ := Prod.mk.inj (Except.ok.inj h)
    exact rest_of_document hd
  | argumentList | filter | header =>
    obtain ⟨_, _, -, h⟩ := result_bind_eq_ok h
    exact rest_of_ended h

theorem endsLiteral_nil : EndsLiteral [] := fun _ h => by cases h

/-- Behind the name of a header stands nothing or a sign. -/
theorem endsWord_behindName {Means : Lexeme → Literal → Prop} {n : String} {s : List Token}
    {header : Header} (h : Grammar.IsHeader Means (.name n :: s) header) : EndsWord s := by
  generalize ht : Token.name n :: s = t at h
  cases h with
  | intro hp hf =>
    obtain rfl := (List.cons.inj ht).2
    cases hp with
    | present ha =>
      obtain ⟨u, rfl⟩ := ha.exists_cons
      exact endsWord_sign '(' _
    | absent =>
      cases hf with
      | nil => exact endsLiteral_nil.endsWord
      | cons hf _ =>
        obtain ⟨u, rfl⟩ := hf.exists_cons
        exact endsWord_sign '.' _

section
variable {excused : Cause → Prop}

theorem Reads.ended {p : Parse α} {s : List Token} {a : α} (h : Reads excused p s a []) :
    Reads excused (do let _ ← p; finish) s () [] := by
  rw [← List.append_nil s]
  exact h.bind reads_finish

variable {Means : Lexeme → Literal → Prop} (hM : ReadAs Means excused)
include hM

/-- What is derived by a rule matches it. -/
theorem reads_whole {limit room : Nat} {rule : Rule} {s : List Token}
    (h : Grammar.Matches Means room rule s) : Reads excused (whole limit room rule) s () [] := by
  cases rule with
  | literal =>
    obtain ⟨x, l, rfl, hl⟩ := h
    exact (reads_literal hM hl endsLiteral_nil).ended
  | identifier =>
    obtain ⟨n, rfl⟩ := h
    exact (reads_identifier endsLiteral_nil.endsWord).ended
  | argumentList =>
    obtain ⟨a, ha⟩ := h
    obtain ⟨t, rfl⟩ := ha.exists_cons
    exact (reads_expect _).cons (reads_arguments hM ha).ended
  | filter =>
    obtain ⟨f, hf⟩ := h
    obtain ⟨t, rfl⟩ := hf.exists_cons
    exact (reads_expect _).cons (reads_filter hM hf).ended
  | header =>
    obtain ⟨header, hh⟩ := h
    obtain ⟨n, t, rfl⟩ : ∃ n t, s = .name n :: t := by
      cases hh
      exact ⟨_, _, rfl⟩
    have hend : EndsWord (t ++ []) := by
      rw [List.append_nil]
      exact endsWord_behindName hh
    exact (reads_identifier hend).cons (reads_headerAfter hM hh (by simp) (by simp)).ended
  | property =>
    obtain ⟨p, hp⟩ := h
    exact (reads_property (readsNested_object hM limit room) hp endsLiteral_nil.endsWord rfl).ended
  | object =>
    obtain ⟨x, hx⟩ := h
    exact (reads_object hM hx []).ended
  | document =>
    obtain ⟨d, hd⟩ := h
    exact (reads_document hM hd).map fun _ => ()

end

end Parse

/-- A whole text matches a rule exactly if it spells tokens, blanks between and around them, that
the rule derives. -/
theorem recognize_eq_ok_iff (rule : Rule) (text : String) :
    recognize rule text = .ok () ↔ ∃ tokens, Spells text.toList tokens ∧
      Grammar.Matches Lexeme.Denotes maxNesting rule tokens := by
  constructor
  · intro h
    rw [recognize] at h
    split at h
    · rename_i r hr
      obtain ⟨⟨⟩, e⟩ := r
      obtain ⟨passed, tokens, hc, hs, hm⟩ := Parse.finds_whole (fun h => h) _ _ _ _ _ _ hr
      have ht : text.toList = passed := by
        rw [Parse.rest_of_whole hr, List.append_nil] at hc
        exact hc
      exact ⟨tokens, ht ▸ hs, hm⟩
    · cases h
  · rintro ⟨tokens, hs, hm⟩
    have hreads : Parse.Reads (fun _ => False) (.whole maxNesting maxNesting rule) tokens () [] :=
      Parse.reads_whole Parse.readAs_denotes hm
    have hy := hreads (.start text.toList) (by rw [List.append_nil]; exact hs)
    unfold Outcome.Yields at hy
    rw [recognize]
    split at hy
    · rename_i hr
      rw [hr]
    · exact hy.elim

end QueryMarkup
