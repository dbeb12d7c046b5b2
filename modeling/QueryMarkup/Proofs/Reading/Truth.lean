import QueryMarkup.Proofs.Reading.Lexeme
import QueryMarkup.Reader.Load

/-!
# Failures name what is there

A failure that names the character or the word that was found instead of the expected one names
what stands at its mark. This holds of every rule, and of the rules used for whole texts.
-/

namespace QueryMarkup

variable {α β : Type}

/-- What the cause names as found stands behind the mark. -/
def Failure.IsTruthful (f : Failure) : Prop :=
  match f.cause with
  | .unexpected _ found => found = f.mark.rest.head?
  | .unknownWord word =>
    word ≠ [] ∧ (∀ c ∈ word, Identifier.isPart c = true) ∧ word <+: f.mark.rest
  | _ => True

namespace Parse

def Truthful (p : Parse α) : Prop :=
  ∀ c f, (p.run c).result = .error f → f.IsTruthful

theorem Truthful.bind {p : Parse α} {next : α → Parse β} (hp : Truthful p)
    (hn : ∀ a, Truthful (next a)) : Truthful (p >>= next) := by
  intro c f hr
  rcases result_bind_eq_error hr with hf | ⟨a, d, -, hf⟩
  · exact hp c f hf
  · exact hn a d f hf

theorem Truthful.congr {p q : Parse α} (hq : Truthful q)
    (h : ∀ c, (p.run c).result = (q.run c).result) : Truthful p :=
  fun c f hr => hq c f (h c ▸ hr)

theorem Truthful.traced {p : Parse α} (rule : Rule) (h : Truthful p) :
    Truthful (traced rule p) :=
  h.congr (result_traced rule p)

theorem Truthful.inside {p : Parse α} (h : Truthful p) : Truthful (inside p) := by
  intro c f hr
  obtain ⟨g, hg, rfl⟩ := result_inside_eq_error hr
  exact h c g hg

theorem truthful_pure (a : α) : Truthful (pure a) := by
  intro c f hr
  cases hr

theorem truthful_scan (look : List Char → α × Nat) : Truthful (scan look) := by
  intro c f hr
  cases hr

theorem truthful_expected (what : Expected) : Truthful (expected what : Parse α) := by
  intro c f hr
  rw [result_expected] at hr
  obtain rfl := Except.error.inj hr
  rfl

theorem truthful_fail_tooDeep (limit : Nat) : Truthful (fail (.tooDeep limit) : Parse α) := by
  intro c f hr
  obtain rfl := Except.error.inj hr
  trivial

theorem Truthful.ite {b : Prop} [Decidable b] {p q : Parse α} (hp : Truthful p)
    (hq : Truthful q) : Truthful (if b then p else q) := by
  split
  · exact hp
  · exact hq

theorem truthful_blanks : Truthful blanks :=
  .bind (truthful_scan _) fun _ => truthful_pure _

theorem truthful_eat (sign : Char) : Truthful (eat sign) :=
  truthful_blanks.bind fun _ => (truthful_scan _).bind fun _ =>
    .ite ((truthful_scan _).bind fun _ => truthful_pure _) (truthful_pure _)

theorem truthful_expect (sign : Char) (what : Expected) : Truthful (expect sign what) :=
  (truthful_eat sign).bind fun _ => .ite (truthful_pure _) (truthful_expected what)

theorem truthful_finish : Truthful finish :=
  truthful_blanks.bind fun _ => (truthful_scan _).bind fun _ =>
    .ite (truthful_expected _) (truthful_pure _)

theorem truthful_identifier : Truthful identifier := by
  refine truthful_blanks.bind fun _ => (truthful_scan _).bind fun next => ?_
  cases next with
  | none => exact truthful_expected _
  | some x => exact .ite ((truthful_scan _).bind fun _ => truthful_pure _) (truthful_expected _)

theorem truthful_digits : Truthful digits :=
  (truthful_scan _).bind fun _ => .ite (truthful_expected _) (truthful_pure _)

theorem truthful_unsigned (negative : Bool) : Truthful (unsigned negative) :=
  truthful_digits.bind fun _ => (truthful_scan _).bind fun _ =>
    .ite ((truthful_scan _).bind fun _ => truthful_digits.bind fun _ => truthful_pure _)
      (truthful_pure _)

theorem truthful_numeral : Truthful numeral :=
  (truthful_scan _).bind fun _ =>
    .ite ((truthful_scan _).bind fun _ => truthful_unsigned _) (truthful_unsigned _)

theorem truthful_lexeme : Truthful lexeme := by
  refine (truthful_scan _).bind fun next => ?_
  cases next with
  | none => exact truthful_expected _
  | some x =>
    refine .ite ((truthful_scan _).bind fun _ => (truthful_scan _).bind fun _ => truthful_pure _)
      (.ite (truthful_numeral.bind fun _ => truthful_pure _) (.ite ?_ (truthful_expected _)))
    exact (truthful_scan _).bind fun _ => truthful_pure _

theorem word_of_lexeme {c d : Cursor} {word : List Char}
    (h : (lexeme.run c).result = .ok (.word word, d)) :
    word ≠ [] ∧ (∀ x ∈ word, Identifier.isPart x = true) ∧ word <+: c.rest := by
  cases hc : c.rest with
  | nil =>
    rw [lexeme, result_bind_of_ok _ (result_look c), hc, List.head?_nil, result_expected] at h
    cases h
  | cons y t =>
    rw [result_lexeme hc] at h
    split at h
    · cases h
    · split at h
      · rw [map_eq_pure_bind] at h
        obtain ⟨n, e, -, h⟩ := result_bind_eq_ok h
        cases h
      · split at h
        · rename_i hy
          obtain ⟨hw, -⟩ := Prod.mk.inj (Except.ok.inj h)
          obtain rfl := Lexeme.word.inj hw
          refine ⟨?_, fun x hx => List.mem_takeWhile_imp hx, hc ▸ List.takeWhile_prefix _⟩
          rw [hc, List.takeWhile_cons_of_pos (Identifier.isPart_of_isStart hy)]
          exact List.cons_ne_nil _ _
        · cases h

theorem truthful_literal : Truthful literal := by
  refine truthful_blanks.bind fun _ c f hr => ?_
  rw [result_check] at hr
  split at hr
  · rename_i x d hx
    split at hr
    · cases hr
    · rename_i cause hm
      obtain rfl := Except.error.inj hr
      rcases Lexeme.meaning_eq_error hm with hc | ⟨word, rfl, rfl⟩ | ⟨quote, rfl, rfl⟩
      · cases cause <;> trivial
      · exact word_of_lexeme hx
      · trivial
  · rename_i g hx
    obtain rfl := Except.error.inj hr
    exact truthful_lexeme c g hx

/-! ## Rules -/

theorem truthful_afterEach {sign : Char} {item : Parse α} (hi : Truthful item) :
    Truthful (afterEach sign item) := by
  intro c
  refine afterEach_induction (P := fun _ r => ∀ f, r = .error f → f.IsTruthful) ?_ ?_ ?_ c
  · rintro c - f ⟨⟩
  · rintro c f - hf _ ⟨⟩
    exact hi _ _ hf
  · rintro c a d - - ih f hf
    refine ih f ?_
    cases ho : ((afterEach sign item).run d).result with
    | error g => rw [ho] at hf; exact hf
    | ok r => rw [ho] at hf; cases hf

theorem truthful_commaSeparated {item : Parse α} (hi : Truthful item) :
    Truthful (commaSeparated item) :=
  hi.bind fun _ => (truthful_afterEach hi).bind fun _ => truthful_pure _

theorem truthful_pair : Truthful pair :=
  truthful_identifier.bind fun _ => (truthful_expect _ _).bind fun _ =>
    truthful_literal.bind fun _ => truthful_pure _

theorem truthful_someArguments : Truthful someArguments :=
  (truthful_scan _).bind fun _ =>
    .ite ((truthful_commaSeparated truthful_pair).bind fun _ => truthful_pure _)
      (truthful_literal.bind fun _ => truthful_pure _)

theorem truthful_arguments : Truthful arguments :=
  .traced _ ((truthful_eat _).bind fun _ => .ite (truthful_pure _)
    (truthful_someArguments.bind fun _ => (truthful_expect _ _).bind fun _ => truthful_pure _))

theorem truthful_filter : Truthful filter :=
  .traced _ (truthful_identifier.bind fun _ => (truthful_expect _ _).bind fun _ =>
    truthful_arguments.bind fun _ => truthful_pure _)

theorem truthful_params : Truthful params :=
  (truthful_eat _).bind fun _ =>
    .ite (truthful_arguments.bind fun _ => truthful_pure _) (truthful_pure _)

theorem truthful_headerAfter (name : String) : Truthful (headerAfter name) :=
  .traced _ (truthful_params.bind fun _ => (truthful_afterEach truthful_filter).bind fun _ =>
    truthful_pure _)

theorem truthful_property {after : String → Parse Selection} (h : ∀ n, Truthful (after n)) :
    Truthful (property after) :=
  .traced _ (truthful_identifier.bind fun n => truthful_blanks.bind fun _ =>
    (truthful_scan _).bind fun _ => .ite ((h n).bind fun _ => truthful_pure _) (truthful_pure _))

theorem truthful_selectionAfter (limit : Nat) :
    (room : Nat) → (name : String) → Truthful (selectionAfter limit room name)
  | 0, _ => .traced _ (.inside (truthful_fail_tooDeep limit))
  | room + 1, name =>
    .traced _ (.inside ((truthful_headerAfter name).bind fun _ => (truthful_expect _ _).bind fun _ =>
      (truthful_commaSeparated (truthful_property (truthful_selectionAfter limit room))).bind
        fun _ => (truthful_expect _ _).bind fun _ => truthful_pure _))

theorem truthful_object (limit room : Nat) : Truthful (object limit room) :=
  truthful_identifier.bind fun name => truthful_selectionAfter limit room name

theorem truthful_document (limit room : Nat) : Truthful (document limit room) :=
  .traced _ ((truthful_expect _ _).bind fun _ =>
    (truthful_commaSeparated (truthful_object limit room)).bind fun _ =>
      (truthful_expect _ _).bind fun _ => truthful_finish.bind fun _ => truthful_pure _)

theorem truthful_whole (limit : Nat) {room : Nat} (rule : Rule) :
    Truthful (whole limit room rule) := by
  cases rule with
  | literal => exact truthful_literal.bind fun _ => truthful_finish
  | identifier => exact truthful_identifier.bind fun _ => truthful_finish
  | argumentList =>
    exact (truthful_expect _ _).bind fun _ => truthful_arguments.bind fun _ => truthful_finish
  | filter => exact (truthful_expect _ _).bind fun _ => truthful_filter.bind fun _ => truthful_finish
  | header =>
    exact truthful_identifier.bind fun n => (truthful_headerAfter n).bind fun _ => truthful_finish
  | property =>
    exact (truthful_property (truthful_selectionAfter limit room)).bind fun _ => truthful_finish
  | object => exact (truthful_object limit room).bind fun _ => truthful_finish
  | document => exact (truthful_document limit room).bind fun _ => truthful_pure _

end Parse

end QueryMarkup
