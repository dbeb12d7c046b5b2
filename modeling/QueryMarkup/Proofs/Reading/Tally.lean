import Mathlib.Algebra.Ring.Nat
import QueryMarkup.Proofs.Markup.Opening
import QueryMarkup.Proofs.Markup.Size
import QueryMarkup.Proofs.Reading.Sound
import QueryMarkup.Proofs.Reading.Trace

/-!
# How often rules are entered

The trace of a reading that succeeds enters each rule as often as what was read holds something of
its kind; argument lists, which an empty one leaves no trace of in a document, as often as a
parenthesis opens in the text. `Tallies` keeps both accounts at once: the parentheses that were
passed and belong to no list entered yet are carried along as a debt.
-/

namespace QueryMarkup

/-- How often the rule is entered. -/
def timesEntered (rule : Rule) (trace : List TraceRecord) : Nat :=
  trace.countP fun r => r.event = .entered && r.rule = rule

theorem timesEntered_append (rule : Rule) (s t : List TraceRecord) :
    timesEntered rule (s ++ t) = timesEntered rule s + timesEntered rule t :=
  List.countP_append

/-- How often opening parentheses let the rule be entered. -/
def owed (rule : Rule) (parentheses : Nat) : Nat := if rule = .argumentList then parentheses else 0

theorem owed_zero (rule : Rule) : owed rule 0 = 0 := ite_self 0

theorem owed_add (rule : Rule) (m n : Nat) : owed rule (m + n) = owed rule m + owed rule n := by
  unfold owed
  split <;> rfl

/-- What entering one rule adds for another. -/
def mark (rule entered : Rule) : Nat := if entered = rule then 1 else 0

/-- What a header says of how often the rule is entered, for the object it belongs to as well. -/
def Header.tally (rule : Rule) (h : Header) : Nat :=
  mark rule .object + mark rule .header + h.filters.length * mark rule .filter

/-- What a property by itself says of how often the rule is entered. -/
def Property.tally (rule : Rule) : Property → Nat
  | .field _ => mark rule .property
  | .selection h _ => mark rule .property + h.tally rule

/-- What properties at all depths say. -/
def Property.listTally (rule : Rule) (properties : List Property) : Nat :=
  ((listPreorder properties).map (tally rule)).sum

def Selection.tally (rule : Rule) (s : Selection) : Nat :=
  s.toHeader.tally rule + Property.listTally rule s.properties

theorem Property.listTally_cons (rule : Rule) (p : Property) (rest : List Property) :
    listTally rule (p :: rest) = (p.preorder.map (tally rule)).sum + listTally rule rest := by
  rw [listTally, listPreorder, List.map_append, List.sum_append]
  rfl

theorem Property.sum_preorder (rule : Rule) (properties : List Property) :
    (properties.map fun p => (p.preorder.map (tally rule)).sum).sum =
      listTally rule properties := by
  induction properties with
  | nil => rfl
  | cons p rest ih => rw [List.map_cons, List.sum_cons, ih, listTally_cons]

theorem Property.sum_preorder_ofSelection (rule : Rule) (s : Selection) :
    ((ofSelection s).preorder.map (tally rule)).sum =
      mark rule .property + s.tally rule := by
  rw [ofSelection, preorder, List.map_cons, List.sum_cons, tally, Nat.add_assoc]
  rfl

namespace Parse

variable {α β : Type} {rule : Rule}

/-! ## Operations -/

/-- With a debt of `before`, a reading that succeeds brings the account to `total`. -/
def Tallies (rule : Rule) (before : Int) (p : Parse α) (total : α → Int) : Prop :=
  ∀ c a d, (p.run c).result = .ok (a, d) →
    before + timesEntered rule ((p.run c).trace ()) + owed rule (openings d.rest) =
      total a + owed rule (openings c.rest)

theorem Tallies.pure {before : Int} {a : α} {total : α → Int} (h : total a = before) :
    Tallies rule before (pure a) total := by
  rintro c _ _ ⟨⟩
  rw [h, run_pure]
  exact congrArg (· + _) (Int.add_zero before)

theorem Tallies.congr {before : Int} {p : Parse α} {total total' : α → Int}
    (h : Tallies rule before p total) (ht : ∀ a, total a = total' a) :
    Tallies rule before p total' := by
  intro c a d hr
  rw [h c a d hr, ht a]

theorem Tallies.bind {before : Int} {p : Parse α} {next : α → Parse β} {between : α → Int}
    {total : β → Int} (hp : Tallies rule before p between)
    (hn : ∀ a, Tallies rule (between a) (next a) total) :
    Tallies rule before (p >>= next) total := by
  intro c b e hr
  obtain ⟨a, d, ha, hb⟩ := result_bind_eq_ok hr
  have hfirst := hp c a d ha
  have hsecond := hn a d b e hb
  rw [trace_bind_of_ok next ha, timesEntered_append]
  omega

theorem Tallies.traced {before : Int} {p : Parse α} {total : α → Int} (entered : Rule)
    (h : Tallies rule (before + mark rule entered) p total) :
    Tallies rule before (traced entered p) total := by
  intro c a d hr
  rw [result_traced] at hr
  have hp := h c a d hr
  have htrace : timesEntered rule (((Parse.traced entered p).run c).trace ()) =
      mark rule entered + timesEntered rule ((p.run c).trace ()) := by
    rw [trace_traced_of_ok entered hr, timesEntered, timesEntered, mark, List.countP_cons,
      List.countP_append, List.countP_singleton]
    simp [Nat.add_comm]
  rw [htrace]
  omega

theorem Tallies.inside {before : Int} {p : Parse α} {total : α → Int}
    (h : Tallies rule before p total) : Tallies rule before (inside p) total :=
  fun c a d hr => h c a d (result_inside_eq_ok hr)

/-- A reading inside of rules only passes tokens, and opening parentheses among them are owed. -/
theorem Tallies.of_finds {p : Parse α} {Stands : List Token → α → Prop} {opened : α → Nat}
    (before : Int) (hflat : IsFlat p) (hfinds : Finds p Stands)
    (hopened : ∀ s a, Stands s a → s.count (.sign '(') = opened a) :
    Tallies rule before p fun a => before - owed rule (opened a) := by
  intro c a d hr
  obtain ⟨passed, tokens, hc, hs, hstands⟩ := hfinds c d a hr
  have hopens := hs.opens d.rest
  rw [← hc, hopened _ _ hstands] at hopens
  rw [hflat.trace c, hopens, owed_add, timesEntered, List.countP_nil]
  dsimp only
  omega

/-- A reading inside of rules that passes no opening parenthesis leaves the account as it is. -/
theorem Tallies.of_finds_none {p : Parse α} {Stands : List Token → α → Prop} (before : Int)
    (hflat : IsFlat p) (hfinds : Finds p Stands)
    (hnone : ∀ s a, Stands s a → .sign '(' ∉ s) : Tallies rule before p fun _ => before := by
  have h : Tallies rule before p fun _ => before - owed rule 0 :=
    .of_finds before hflat hfinds fun s a hs => List.count_eq_zero.2 (hnone s a hs)
  exact h.congr fun a => by simp [owed_zero]

/-! ## Rules -/

theorem tallies_eat {sign : Char} (hs : sign ∈ Token.signs) (hne : sign ≠ '(') (before : Int) :
    Tallies rule before (eat sign) fun _ => before :=
  .of_finds_none before (isFlat_eat sign) (finds_eat hs) fun s b h => by
    cases b <;> simp [h, hne.symm]

theorem tallies_expect {sign : Char} (hs : sign ∈ Token.signs) (hne : sign ≠ '(')
    (what : Expected) (before : Int) : Tallies rule before (expect sign what) fun _ => before :=
  .of_finds_none before (isFlat_expect sign what) (finds_expect hs what) fun s _ h => by
    simp [h, hne.symm]

theorem tallies_identifier (before : Int) : Tallies rule before identifier fun _ => before :=
  .of_finds_none before isFlat_identifier finds_identifier fun s _ h => by simp [h]

theorem tallies_literal (before : Int) : Tallies rule before literal fun _ => before :=
  .of_finds_none before isFlat_literal finds_literal fun s _ ⟨x, h, _⟩ => by simp [h]

/-- Looking ahead passes nothing. -/
theorem tallies_ahead (ahead : List Char → α) (before : Int) :
    Tallies rule before (scan fun text => (ahead text, 0)) fun _ => before := by
  rintro c _ _ ⟨⟩
  rw [run_scan, Cursor.drop_zero]
  exact congrArg (· + _) (Int.add_zero before)

theorem tallies_blanks (before : Int) : Tallies rule before blanks fun _ => before :=
  .of_finds_none before isFlat_blanks finds_blanks fun s _ h => by simp [h]

theorem tallies_finish (before : Int) : Tallies rule before finish fun _ => before :=
  .of_finds_none before isFlat_finish finds_finish fun s _ h => by simp [h]

theorem tallies_afterEach {sign : Char} (hs : sign ∈ Token.signs) (hne : sign ≠ '(')
    {item : Parse α} {weight : α → Nat}
    (hi : ∀ before, Tallies rule before item fun a => before + weight a) (before : Int) :
    Tallies rule before (afterEach sign item) fun as => before + (as.map weight).sum := by
  have hbound : ∀ bound before, Tallies rule before (afterEachUpTo sign item bound)
      fun as => before + (as.map weight).sum := by
    intro bound
    induction bound with
    | nil => exact fun before => .pure (by simp)
    | cons _ bound ih =>
      refine fun before => (tallies_eat hs hne before).bind fun more => ?_
      cases more with
      | false => exact .pure (by simp)
      | true =>
        refine (hi before).bind fun a => (ih _).bind fun others => .pure ?_
        rw [List.map_cons, List.sum_cons]
        omega
  exact fun c as d hr => hbound c.rest before c as d hr

theorem tallies_commaSeparated {item : Parse α} {weight : α → Nat}
    (hi : ∀ before, Tallies rule before item fun a => before + weight a) (before : Int) :
    Tallies rule before (commaSeparated item) fun as => before + (as.map weight).sum := by
  refine (hi before).bind fun a =>
    (tallies_afterEach (by decide) (by decide) hi _).bind fun others => .pure ?_
  rw [List.map_cons, List.sum_cons]
  omega

theorem tallies_pair (before : Int) : Tallies rule before pair fun _ => before :=
  (tallies_identifier before).bind fun _ => (tallies_expect (by decide) (by decide) _ before).bind
    fun _ => (tallies_literal before).bind fun _ => .pure rfl

theorem tallies_someArguments (before : Int) :
    Tallies rule before someArguments fun _ => before := by
  refine (tallies_ahead startsPair before).bind fun named => ?_
  cases named with
  | false => exact (tallies_literal before).bind fun _ => .pure rfl
  | true =>
    have hpair : ∀ before, Tallies rule before pair fun _ => before + (0 : Nat) :=
      fun before => (tallies_pair before).congr fun _ => (Int.add_zero before).symm
    refine (tallies_commaSeparated hpair before).bind fun pairs => .pure ?_
    rw [List.map_const', List.sum_replicate_nat, Nat.mul_zero]
    exact (Int.add_zero before).symm

/-- The parenthesis of the list is owed where it begins. -/
theorem tallies_arguments (before : Int) :
    Tallies rule (before - owed rule 1) arguments fun _ => before := by
  have hpaid : before - owed rule 1 + mark rule .argumentList = before := by
    unfold owed mark
    by_cases h : rule = .argumentList
    · simp [h]
    · simp [h, Ne.symm h]
  refine .traced _ ?_
  rw [hpaid]
  refine (tallies_eat (by decide) (by decide) before).bind fun closed => ?_
  cases closed with
  | true => exact .pure rfl
  | false =>
    exact (tallies_someArguments before).bind fun _ =>
      (tallies_expect (by decide) (by decide) _ before).bind fun _ => .pure rfl

theorem tallies_open (before : Int) :
    Tallies rule before (eat '(') fun opened => before - owed rule (if opened then 1 else 0) :=
  .of_finds before (isFlat_eat '(') (finds_eat (by decide)) fun s b h => by cases b <;> simp [h]

theorem tallies_filter (before : Int) :
    Tallies rule before filter fun _ => before + mark rule .filter := by
  have hopen : ∀ before, Tallies rule before (expect '(' .openParenthesis)
      fun _ => before - owed rule 1 := fun before =>
    .of_finds before (isFlat_expect _ _) (finds_expect (by decide) _) fun s _ h => by simp [h]
  exact .traced _ ((tallies_identifier _).bind fun _ => (hopen _).bind fun _ =>
    (tallies_arguments _).bind fun _ => .pure rfl)

theorem tallies_params (before : Int) : Tallies rule before params fun _ => before := by
  refine (tallies_open before).bind fun opened => ?_
  cases opened with
  | true => exact (tallies_arguments before).bind fun _ => .pure rfl
  | false => exact .pure (by simp [owed_zero])

/-- A header tells of its selection as well, which was entered in front of it. -/
theorem tallies_headerAfter (name : String) (before : Int) :
    Tallies rule (before + mark rule .object) (headerAfter name)
      fun h => before + h.tally rule := by
  refine .traced _ ((tallies_params _).bind fun params =>
    (tallies_afterEach (by decide) (by decide) tallies_filter _).bind fun filters => .pure ?_)
  rw [List.map_const', List.sum_replicate_nat, Header.tally]
  dsimp only
  omega

theorem tallies_property {after : String → Parse Selection}
    (ha : ∀ name before, Tallies rule before (after name) fun s => before + s.tally rule)
    (before : Int) :
    Tallies rule before (property after)
      fun p => before + (p.preorder.map (Property.tally rule)).sum := by
  refine .traced _ ((tallies_identifier _).bind fun name => ?_)
  refine (tallies_blanks _).bind fun _ => (tallies_ahead List.head? _).bind fun next => ?_
  split
  · refine (ha name _).bind fun s => .pure ?_
    rw [Property.sum_preorder_ofSelection]
    omega
  · refine .pure ?_
    simp [Property.preorder, Property.tally]

theorem tallies_selectionAfter (limit : Nat) : (room : Nat) → (name : String) → (before : Int) →
    Tallies rule before (selectionAfter limit room name) fun s => before + s.tally rule
  | 0, _, _ => by
    intro c s d hr
    rw [selectionAfter, result_traced] at hr
    cases result_inside_eq_ok hr
  | room + 1, name, before => by
    have hproperty := tallies_property (tallies_selectionAfter limit room)
    refine .traced _ (.inside ((tallies_headerAfter name before).bind fun header => ?_))
    refine (tallies_expect (by decide) (by decide) _ _).bind fun _ =>
      (tallies_commaSeparated hproperty _).bind fun properties =>
        (tallies_expect (by decide) (by decide) _ _).bind fun _ => .pure ?_
    rw [Property.sum_preorder, Selection.tally]
    dsimp only
    omega

theorem tallies_document (limit room : Nat) :
    Tallies rule 0 (document limit room)
      fun d => mark rule .document + ((d.selections.map (Selection.tally rule)).sum : Nat) := by
  have hobject : ∀ before, Tallies rule before (object limit room)
      fun s => before + s.tally rule := fun before =>
    (tallies_identifier before).bind fun name => tallies_selectionAfter limit room name before
  refine .traced _ ((tallies_expect (by decide) (by decide) _ _).bind fun _ =>
    (tallies_commaSeparated hobject _).bind fun selections =>
      (tallies_expect (by decide) (by decide) _ _).bind fun _ =>
        (tallies_finish _).bind fun _ => .pure ?_)
  rw [Int.zero_add]

/-- A document that is read enters each rule as often as it says, and argument lists as often as the
text does. -/
theorem timesEntered_document {limit room : Nat} {c e : Cursor} {d : Document} (rule : Rule)
    (h : ((document limit room).run c).result = .ok (d, e)) :
    timesEntered rule (((document limit room).run c).trace ()) =
      mark rule .document + (d.selections.map (Selection.tally rule)).sum +
        owed rule (openings c.rest) := by
  have htally : (0 : Int) + timesEntered rule _ + owed rule (openings e.rest) = _ :=
    tallies_document limit room c d e h
  have hend : openings e.rest = 0 := by
    rw [rest_of_document h]
    rfl
  rw [hend, owed_zero] at htally
  dsimp only at htally
  omega

end Parse

/-! ## Counts -/

theorem Property.tally_object (p : Property) : p.tally .object = if !p.isField then 1 else 0 := by
  cases p <;> simp [tally, Header.tally, mark, isField]

theorem Property.tally_header (p : Property) : p.tally .header = if !p.isField then 1 else 0 := by
  cases p <;> simp [tally, Header.tally, mark, isField]

theorem Property.tally_property (p : Property) : p.tally .property = 1 := by
  cases p <;> simp [tally, Header.tally, mark]

theorem Property.tally_filter (p : Property) : p.tally .filter = p.filters.length := by
  cases p <;> simp [tally, Header.tally, mark, filters]

theorem Property.tally_argumentList (p : Property) : p.tally .argumentList = 0 := by
  cases p <;> simp [tally, Header.tally, mark]

theorem sum_map_ite {α : Type} (p : α → Bool) (as : List α) :
    (as.map fun a => if p a then 1 else 0).sum = as.countP p := by
  induction as with
  | nil => rfl
  | cons a as ih => rw [List.map_cons, List.sum_cons, ih, List.countP_cons, Nat.add_comm]

theorem Property.listTally_ofSelection (rule : Rule) (selections : List Selection) :
    listTally rule (selections.map .ofSelection) =
      (selections.map (Selection.tally rule)).sum + selections.length * mark rule .property := by
  induction selections with
  | nil => simp [listTally, listPreorder]
  | cons s rest ih =>
    rw [List.map_cons, listTally_cons, sum_preorder_ofSelection, ih, List.map_cons, List.sum_cons,
      List.length_cons, Nat.succ_mul]
    omega

namespace Document

variable (d : Document)

/-- For rules other than that of properties it makes no difference that roots are none. -/
theorem sum_tally {rule : Rule} (h : rule ≠ .property) :
    (d.selections.map (Selection.tally rule)).sum =
      (d.properties.map (Property.tally rule)).sum := by
  have hroots := Property.listTally_ofSelection rule d.selections
  rw [show mark rule .property = 0 from if_neg h.symm, Nat.mul_zero, Nat.add_zero] at hroots
  exact hroots.symm

theorem sum_tally_object : (d.selections.map (Selection.tally .object)).sum = d.selectionCount := by
  rw [sum_tally d (by decide), funext Property.tally_object]
  exact sum_map_ite _ _

theorem sum_tally_header : (d.selections.map (Selection.tally .header)).sum = d.selectionCount := by
  rw [sum_tally d (by decide), funext Property.tally_header]
  exact sum_map_ite _ _

theorem sum_tally_filter : (d.selections.map (Selection.tally .filter)).sum = d.filterCount := by
  rw [sum_tally d (by decide), funext Property.tally_filter, filterCount, List.length_flatMap]

theorem sum_tally_property :
    (d.selections.map (Selection.tally .property)).sum = d.propertyCount := by
  have hlist : ∀ properties, Property.listTally .property properties =
      (Property.listPreorder properties).length := fun properties => by
    rw [Property.listTally, funext Property.tally_property, List.map_const', List.sum_replicate_nat,
      Nat.mul_one]
  have hselection : ∀ s : Selection,
      s.tally .property = (Property.listPreorder s.properties).length := fun s => by
    simp [Selection.tally, Header.tally, mark, hlist]
  rw [funext hselection, propertyCount, List.length_flatMap]

/-- A document does not tell how many argument lists there are in the text. -/
theorem sum_tally_argumentList : (d.selections.map (Selection.tally .argumentList)).sum = 0 := by
  rw [sum_tally d (by decide), funext Property.tally_argumentList, List.map_const',
    List.sum_replicate_nat, Nat.mul_zero]

end Document

end QueryMarkup
