import QueryMarkup.Proofs.Reading.Lexeme

/-!
# Relations that the rules keep

Two readings by the same rules that differ in how they take to the depth of selections can be
compared rule by rule. `Congruence R` says that a relation between outcomes is kept by the
operations that rules are built from; then it holds between all rules of the grammar as soon as it
holds between the selections they are made of. A property of single readings is a relation that
ignores one of its sides.
-/

namespace QueryMarkup

variable {α β : Type}

/-- The failure refuses a selection for its depth. -/
def Failure.IsRefusal (f : Failure) : Prop := ∃ limit, f.cause = .tooDeep limit

namespace Parse

/-- The reading leaves no trace, and enters no selection that it could leave open or refuse. -/
structure IsFlat (p : Parse α) : Prop where
  trace : ∀ c, (p.run c).trace () = []
  failure : ∀ c f, (p.run c).result = .error f → f.opened = 0 ∧ ¬ f.IsRefusal

theorem IsFlat.bind {p : Parse α} {next : α → Parse β} (hp : IsFlat p)
    (hn : ∀ a, IsFlat (next a)) : IsFlat (p >>= next) := by
  constructor
  · intro c
    have ht := hp.trace c
    rw [run_bind]
    unfold Outcome.andThen
    split
    · exact ht
    · rename_i a d _
      show (p.run c).trace () ++ ((next a).run d).trace () = []
      rw [ht, (hn a).trace d]
      rfl
  · intro c f hr
    rcases result_bind_eq_error hr with hf | ⟨a, d, -, hf⟩
    · exact hp.failure c f hf
    · exact (hn a).failure d f hf

theorem isFlat_pure (a : α) : IsFlat (pure a) :=
  ⟨fun _ => rfl, fun _ _ hr => by cases hr⟩

theorem isFlat_scan (look : List Char → α × Nat) : IsFlat (scan look) :=
  ⟨fun _ => rfl, fun _ _ hr => by cases hr⟩

theorem isFlat_expected (what : Expected) : IsFlat (expected what : Parse α) := by
  refine ⟨fun _ => rfl, fun c f hr => ?_⟩
  rw [result_expected] at hr
  obtain rfl := Except.error.inj hr
  refine ⟨rfl, ?_⟩
  rintro ⟨limit, h⟩
  cases h

theorem IsFlat.ite {b : Prop} [Decidable b] {p q : Parse α} (hp : IsFlat p) (hq : IsFlat q) :
    IsFlat (if b then p else q) := by
  split
  · exact hp
  · exact hq

theorem IsFlat.check {p : Parse α} {meaning : α → Except Cause β} (hp : IsFlat p)
    (hm : ∀ a cause, meaning a = .error cause → ∀ limit, cause ≠ .tooDeep limit) :
    IsFlat (check p meaning) := by
  constructor
  · intro c
    have ht := hp.trace c
    show ((p.run c).andThen _).trace () = []
    unfold Outcome.andThen
    split
    · exact ht
    · rename_i a d _
      simp only [ht, List.nil_append]
      cases meaning a <;> rfl
  · intro c f hr
    rw [result_check] at hr
    split at hr
    · split at hr
      · cases hr
      · rename_i cause he
        obtain rfl := Except.error.inj hr
        refine ⟨rfl, ?_⟩
        rintro ⟨limit, h⟩
        exact hm _ _ he limit h
    · rename_i g hg
      obtain rfl := Except.error.inj hr
      exact hp.failure c g hg

theorem isFlat_blanks : IsFlat blanks :=
  (isFlat_scan _).bind fun _ => isFlat_pure _

theorem isFlat_eat (sign : Char) : IsFlat (eat sign) :=
  isFlat_blanks.bind fun _ => (isFlat_scan _).bind fun _ =>
    .ite ((isFlat_scan _).bind fun _ => isFlat_pure _) (isFlat_pure _)

theorem isFlat_expect (sign : Char) (what : Expected) : IsFlat (expect sign what) :=
  (isFlat_eat sign).bind fun _ => .ite (isFlat_pure _) (isFlat_expected what)

theorem isFlat_finish : IsFlat finish :=
  isFlat_blanks.bind fun _ => (isFlat_scan _).bind fun _ =>
    .ite (isFlat_expected _) (isFlat_pure _)

theorem isFlat_identifier : IsFlat identifier := by
  refine isFlat_blanks.bind fun _ => (isFlat_scan _).bind fun next => ?_
  cases next with
  | none => exact isFlat_expected _
  | some x => exact .ite ((isFlat_scan _).bind fun _ => isFlat_pure _) (isFlat_expected _)

theorem isFlat_digits : IsFlat digits :=
  (isFlat_scan _).bind fun _ => .ite (isFlat_expected _) (isFlat_pure _)

theorem isFlat_unsigned (negative : Bool) : IsFlat (unsigned negative) :=
  isFlat_digits.bind fun _ => (isFlat_scan _).bind fun _ =>
    .ite ((isFlat_scan _).bind fun _ => isFlat_digits.bind fun _ => isFlat_pure _) (isFlat_pure _)

theorem isFlat_numeral : IsFlat numeral :=
  (isFlat_scan _).bind fun _ =>
    .ite ((isFlat_scan _).bind fun _ => isFlat_unsigned _) (isFlat_unsigned _)

theorem isFlat_lexeme : IsFlat lexeme := by
  refine (isFlat_scan _).bind fun next => ?_
  cases next with
  | none => exact isFlat_expected _
  | some x =>
    refine .ite ((isFlat_scan _).bind fun _ => (isFlat_scan _).bind fun _ => isFlat_pure _)
      (.ite (isFlat_numeral.bind fun _ => isFlat_pure _) (.ite ?_ (isFlat_expected _)))
    exact (isFlat_scan _).bind fun _ => isFlat_pure _

theorem isFlat_literal : IsFlat literal := by
  refine isFlat_blanks.bind fun _ => isFlat_lexeme.check fun x cause h limit => ?_
  rintro rfl
  rcases Lexeme.meaning_eq_error h with hm | ⟨_, -, hm⟩ | ⟨_, -, hm⟩
  · exact hm
  · cases hm
  · cases hm

section
variable (R : ∀ {α : Type}, Outcome α → Outcome α → Prop)

/-- The two readings have related outcomes wherever they start. -/
def Related (p p' : Parse α) : Prop := ∀ c, R (p.run c) (p'.run c)

/-- The relation holds between a reading inside rules and itself, and the operations keep it. -/
structure Congruence : Prop where
  flat : ∀ {α : Type} {p : Parse α}, IsFlat p → Related R p p
  bind : ∀ {α β : Type} {p p' : Parse α} {next next' : α → Parse β}, Related R p p' →
    (∀ a, Related R (next a) (next' a)) → Related R (p >>= next) (p' >>= next')
  traced : ∀ {α : Type} {p p' : Parse α} {rule : Rule}, rule ≠ .object → Related R p p' →
    Related R (traced rule p) (traced rule p')

end

namespace Congruence

variable {R : ∀ {α : Type}, Outcome α → Outcome α → Prop} (hR : Congruence R)
include hR

theorem pure (a : α) : Related R (pure a : Parse α) (pure a) := hR.flat (isFlat_pure a)

theorem afterEach {sign : Char} {item item' : Parse α} (hi : Related R item item') :
    Related R (afterEach sign item) (afterEach sign item') := by
  have hbound : ∀ bound, Related R (afterEachUpTo sign item bound)
      (afterEachUpTo sign item' bound) := by
    intro bound
    induction bound with
    | nil => exact hR.pure []
    | cons _ bound ih =>
      refine hR.bind (hR.flat (isFlat_eat sign)) fun more => ?_
      cases more with
      | false => exact hR.pure []
      | true => exact hR.bind hi fun _ => hR.bind ih fun _ => hR.pure _
  exact fun c => hbound c.rest c

theorem commaSeparated {item item' : Parse α} (hi : Related R item item') :
    Related R (commaSeparated item) (commaSeparated item') :=
  hR.bind hi fun _ => hR.bind (hR.afterEach hi) fun _ => hR.pure _

/-! ## Rules -/

theorem pair : Related R pair pair :=
  hR.flat (isFlat_identifier.bind fun _ => (isFlat_expect _ _).bind fun _ =>
    isFlat_literal.bind fun _ => isFlat_pure _)

theorem someArguments : Related R someArguments someArguments := by
  refine hR.bind (hR.flat (isFlat_scan _)) fun named => ?_
  cases named with
  | false => exact hR.flat (isFlat_literal.bind fun _ => isFlat_pure _)
  | true => exact hR.bind (hR.commaSeparated hR.pair) fun _ => hR.pure _

theorem arguments : Related R arguments arguments := by
  refine hR.traced (by decide) (hR.bind (hR.flat (isFlat_eat _)) fun closed => ?_)
  cases closed with
  | true => exact hR.pure _
  | false =>
    exact hR.bind hR.someArguments fun _ => hR.flat ((isFlat_expect _ _).bind fun _ => isFlat_pure _)

theorem filter : Related R filter filter :=
  hR.traced (by decide) (hR.bind (hR.flat isFlat_identifier) fun _ =>
    hR.bind (hR.flat (isFlat_expect _ _)) fun _ => hR.bind hR.arguments fun _ => hR.pure _)

theorem params : Related R params params := by
  refine hR.bind (hR.flat (isFlat_eat _)) fun opened => ?_
  cases opened with
  | true => exact hR.bind hR.arguments fun _ => hR.pure _
  | false => exact hR.pure _

theorem headerAfter (name : String) : Related R (headerAfter name) (headerAfter name) :=
  hR.traced (by decide) (hR.bind hR.params fun _ => hR.bind (hR.afterEach hR.filter) fun _ =>
    hR.pure _)

section
variable {after after' : String → Parse Selection} (ha : ∀ name, Related R (after name) (after' name))
include ha

theorem property : Related R (property after) (property after') := by
  refine hR.traced (by decide) (hR.bind (hR.flat isFlat_identifier) fun name =>
    hR.bind (hR.flat isFlat_blanks) fun _ => hR.bind (hR.flat (isFlat_scan _)) fun next => ?_)
  split
  · exact hR.bind (ha name) fun _ => hR.pure _
  · exact hR.pure _

/-- What stands behind the name of a selection, if it is not refused. -/
theorem body (name : String) :
    Related R
      (do
        let header ← Parse.headerAfter name
        expect '{' .openBrace
        let properties ← Parse.commaSeparated (Parse.property after)
        expect '}' .commaOrCloseBrace
        return ⟨header, properties⟩ : Parse Selection)
      (do
        let header ← Parse.headerAfter name
        expect '{' .openBrace
        let properties ← Parse.commaSeparated (Parse.property after')
        expect '}' .commaOrCloseBrace
        return ⟨header, properties⟩) :=
  hR.bind (hR.headerAfter name) fun _ => hR.bind (hR.flat (isFlat_expect _ _)) fun _ =>
    hR.bind (hR.commaSeparated (hR.property ha)) fun _ =>
      hR.flat ((isFlat_expect _ _).bind fun _ => isFlat_pure _)

end

variable {limit limit' room room' : Nat}
  (ha : ∀ name, Related R (selectionAfter limit room name) (selectionAfter limit' room' name))
include ha

/-- With room on both sides, selections are related if entering one keeps the relation. -/
theorem selectionAfter_succ
    (hs : ∀ {p p' : Parse Selection}, Related R p p' →
      Related R (Parse.traced .object (inside p)) (Parse.traced .object (inside p')))
    (name : String) :
    Related R (selectionAfter limit (room + 1) name) (selectionAfter limit' (room' + 1) name) :=
  hs (hR.body ha name)

/-- A document apart from its trace. -/
theorem roots :
    Related R
      (do
        expect '{' .openBrace
        let selections ← Parse.commaSeparated (object limit room)
        expect '}' .commaOrCloseBrace
        finish
        return ⟨selections⟩ : Parse Document)
      (do
        expect '{' .openBrace
        let selections ← Parse.commaSeparated (object limit' room')
        expect '}' .commaOrCloseBrace
        finish
        return ⟨selections⟩) :=
  hR.bind (hR.flat (isFlat_expect _ _)) fun _ =>
    hR.bind (hR.commaSeparated (hR.bind (hR.flat isFlat_identifier) ha)) fun _ =>
      hR.flat ((isFlat_expect _ _).bind fun _ => isFlat_finish.bind fun _ => isFlat_pure _)

theorem document : Related R (document limit room) (document limit' room') :=
  hR.traced (by decide) (hR.roots ha)

end Congruence

end Parse

end QueryMarkup
