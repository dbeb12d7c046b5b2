import QueryMarkup.Json.Read
import QueryMarkup.Proofs.Interchange.Decoding.Document
import QueryMarkup.Proofs.Interchange.Scanning
import QueryMarkup.Proofs.Reading.Language

/-!
# Integers in markup and in JSON

An integer that fits in sixty-four bits with a sign is the same literal in markup and in JSON, but
for minus zero. Markup has no meaning for any other integer. In JSON one is refused if it fits in
sixty-four bits without a sign or is too large for a double, and otherwise it is read as a double, of
as many of its leading digits as fit in sixty-four bits; so is minus zero.
-/

namespace QueryMarkup

/-- A selection with the value as its parameters, and a field. -/
def Selection.given (v : Value) : Selection := ((named "a").withParams v).withField "x"

theorem Selection.given_inj {v w : Value} : given v = given w ↔ v = w := by
  constructor
  · intro h
    exact Option.some.inj (congrArg (fun s : Selection => s.params) h)
  · rintro rfl
    rfl

namespace Document

/-- The text of a document with one literal, which is written like this. -/
def givenText (word : List Char) : String :=
  String.ofList ('\x7b' :: 'a' :: '(' :: (word ++ ")\x7bx\x7d\x7d".toList))

def givenTokens (x : Lexeme) : List Token :=
  [.sign '{', .name "a", .sign '(', .literal x, .sign ')', .sign '{', .name "x", .sign '}',
    .sign '}']

theorem spells_givenText {x : Lexeme} {word : List Char} (h : x.Spelled word) :
    Spells (givenText word).toList (givenTokens x) := by
  have ha : Token.Spelled (.name "a") ['a'] := .name (by decide)
  have hx : Token.Spelled (.name "x") ['x'] := .name (by decide)
  have hend : Spells ")\x7bx\x7d\x7d".toList
      [.sign ')', .sign '{', .name "x", .sign '}', .sign '}'] := by
    refine .sign (by decide) (.sign (by decide) ?_)
    exact .cons hx (.sign (by decide) (.sign (by decide) .nil))
  rw [givenText, String.toList_ofList]
  refine .sign (by decide) ?_
  exact .cons ha (.sign (by decide) (.cons (.literal h) hend))

theorem isDocument_given {Means : Lexeme → Literal → Prop} {x : Lexeme} {l : Literal}
    (h : Means x l) (room : Nat) :
    Grammar.IsDocument Means (room + 1) (givenTokens x) ⟨[.given (.literal l)]⟩ := by
  have hheader : Grammar.IsHeader Means [.name "a", .sign '(', .literal x, .sign ')']
      ⟨"a", some (.literal l), []⟩ :=
    .intro (.present (.positional h)) .nil
  have hobject : Grammar.IsObject Means (room + 1)
      [.name "a", .sign '(', .literal x, .sign ')', .sign '{', .name "x", .sign '}']
      (.given (.literal l)) :=
    Grammar.IsSelection.intro hheader (.single .field)
  exact .intro (.single hobject)

/-- A literal without a meaning may be taken for any, and then the document that is read would have
to have all of them. -/
theorem load_givenText_ne_ok {x : Lexeme} {word : List Char} (h : x.Spelled word)
    (hx : ∀ l, ¬ x.Denotes l) (d : Document) : load (givenText word) ≠ .ok d := by
  have hmeans : Parse.ReadAs (fun y _ => y = x) fun _ => True := by
    rintro y _ l - rfl
    cases hm : y.meaning with
    | ok l => exact absurd (Lexeme.meaning_eq_ok_iff.1 hm) (hx l)
    | error cause => exact .inr ⟨cause, rfl, trivial⟩
  have hreads : ∀ l, Parse.Reads (fun _ => True) (.document maxNesting maxNesting) (givenTokens x)
      ⟨[.given (.literal l)]⟩ [] :=
    fun l => Parse.reads_document hmeans (isDocument_given rfl _)
  intro hd
  rw [load, loadWith_eq, Session.outcome_start] at hd
  split at hd
  · rename_i d' e hr
    have heq : ∀ l, d' = ⟨[.given (.literal l)]⟩ := by
      intro l
      have hy := hreads l (.start (givenText word).toList)
        (by rw [List.append_nil]; exact spells_givenText h)
      unfold Outcome.Yields at hy
      rw [hr] at hy
      exact hy.1
    cases (heq .null).symm.trans (heq (.bool true))
  · cases hd

/-- A literal is loaded as what it means, and the text is refused if it means nothing. -/
theorem load_givenText_eq_ok_iff {x : Lexeme} {word : List Char} (h : x.Spelled word)
    {d : Document} : load (givenText word) = .ok d ↔
      ∃ l, x.Denotes l ∧ d = ⟨[.given (.literal l)]⟩ := by
  have hload : ∀ l, x.Denotes l → load (givenText word) = .ok ⟨[.given (.literal l)]⟩ :=
    fun l hl => loadWith_of_derives ⟨_, spells_givenText h, isDocument_given hl _⟩
  constructor
  · intro hd
    by_cases hx : ∃ l, x.Denotes l
    · obtain ⟨l, hl⟩ := hx
      exact ⟨l, hl, Except.ok.inj (hd.symm.trans (hload l hl))⟩
    · exact absurd hd (load_givenText_ne_ok h (not_exists.1 hx) d)
  · rintro ⟨l, hl, rfl⟩
    exact hload l hl

end Document

/-! ## JSON -/

namespace Selection

def givenJson (j : Json) : Json :=
  .object [("name", .string "a"), ("params", j),
    ("properties", .array [.object [("name", .string "x")]])]

/-- The JSON text of such a selection, in which the parameters are written like this. -/
def givenJsonText (word : List Char) : String :=
  let field (name : String) := Escaped.quote name.toList
  String.ofList ('{' :: (field "name" ++ ':' :: (field "a" ++ ',' :: (field "params" ++ ':' ::
    (word ++ ',' :: (field "properties" ++ ':' :: '[' :: '{' :: (field "name" ++ ':' ::
      (field "x" ++ ['}', ']', '}']))))))))

/-- The selection of a JSON text, or why the text is none; a text that is no JSON has neither. -/
def ofJsonText? (text : String) : Option (Except DecodeError Selection) :=
  (Json.read? text).map (Decode.deliver Decode.selection .streamed)

theorem read?_givenJsonText (negative : Bool) (magnitude : Nat) :
    Json.read? (givenJsonText (Numeral.ofMagnitude negative magnitude).text) =
      some (givenJson (Json.ofInteger negative (Nat.toDigits 10 magnitude))) := by
  have hend : Json.tokens ['}', ']', '}'] = some [.sign '}', .sign ']', .sign '}'] := rfl
  have hinner := Json.tokens_quote "name".toList
    (Json.tokens_sign (c := ':') rfl (Json.tokens_quote "x".toList hend))
  have hlist := Json.tokens_sign (c := '[') rfl (Json.tokens_sign (c := '{') rfl hinner)
  have hproperties := Json.tokens_sign (c := ',') rfl
    (Json.tokens_quote "properties".toList (Json.tokens_sign (c := ':') rfl hlist))
  have hnumeral := Json.tokens_numeral negative magnitude (by rintro _ ⟨⟩; rfl) hproperties
  have hparams := Json.tokens_quote "params".toList (Json.tokens_sign (c := ':') rfl hnumeral)
  have hname := Json.tokens_quote "name".toList (Json.tokens_sign (c := ':') rfl
    (Json.tokens_quote "a".toList (Json.tokens_sign (c := ',') rfl hparams)))
  have hall := Json.tokens_sign (c := '{') rfl hname
  simp only [String.ofList_toList] at hall
  rw [Json.read?, givenJsonText, String.toList_ofList, hall]
  rfl

section
open Interchange
variable {j : Json} {s : Selection} {v : Value}

theorem isProperty_givenJson (h : IsValue j v) :
    IsProperty (givenJson j) (.ofSelection (.given v)) := by
  have hone : ([(JsonField.name, Json.string "x")].map Prod.fst).Nodup := List.nodup_singleton _
  have hname : IsWritten (.object [("name", .string "x")]) [(.name, .string "x")] := .object hone
  have hfield : IsProperty (.object [("name", .string "x")]) (.field "x") :=
    .field hname ⟨rfl, .none, .null⟩ rfl
  let entries : List (JsonField × Json) := [(.name, .string "a"), (.params, j),
    (.properties, .array [.object [("name", .string "x")]])]
  have hnodup : (entries.map Prod.fst).Nodup :=
    show [JsonField.name, .params, .properties].Nodup by decide
  exact .selection (.object hnodup) ⟨rfl, .some h, .null⟩ rfl (.cons hfield .nil)

theorem exists_isValue_of_isProperty (h : IsProperty (givenJson j) (.ofSelection s)) :
    ∃ v, IsValue j v := by
  obtain ⟨entries, header, hwritten, hheader⟩ := h.exists_header
  generalize ht : givenJson j = t at hwritten
  cases hwritten with
  | array _ => cases ht
  | object hn =>
    have hmem : (JsonField.params.key, j) ∈ JsonField.members entries := by
      rw [← Json.object.inj ht]
      exact .tail _ (.head _)
    have hparams := hheader.params
    rw [(JsonField.lookup_eq_some_iff hn).2 (JsonField.mem_members.1 hmem)] at hparams
    generalize header.params = p at hparams
    cases hparams with
    | some hv => exact ⟨_, hv⟩

/-- The selection is decoded from what its parameters are decoded from. -/
theorem deliver_givenJson_eq_ok_iff (hj : j.nesting = 0) :
    Decode.deliver Decode.selection .streamed (givenJson j) = .ok s ↔
      ∃ v, IsValue j v ∧ s = .given v := by
  have hnesting : (givenJson j).nesting ≤ Decode.maxOpen := by
    simp only [givenJson, Json.nesting, Json.membersNesting, Json.itemsNesting, hj]
    decide
  have hdecode : ∀ v, IsValue j v →
      Decode.deliver Decode.selection .streamed (givenJson j) = .ok (.given v) :=
    fun v hv => Decode.selection_eq_ok_iff.2 ⟨hnesting, isProperty_givenJson hv⟩
  constructor
  · intro hs
    obtain ⟨v, hv⟩ := exists_isValue_of_isProperty (Decode.selection_eq_ok_iff.1 hs).2
    exact ⟨v, hv, Except.ok.inj (hs.symm.trans (hdecode v hv))⟩
  · rintro ⟨v, hv, rfl⟩
    exact hdecode v hv

end

end Selection

/-! ## Integers -/

namespace Numeral

/-- What is loaded where the numeral is a parameter in markup. -/
def inMarkup (n : Numeral) : Except Error Document := Document.load (Document.givenText n.text)

/-- What is decoded where the numeral is a parameter in JSON. -/
def inJson (n : Numeral) : Option (Except DecodeError Selection) :=
  Selection.ofJsonText? (Selection.givenJsonText n.text)

/-- The double of the numeral in JSON, where it is no integer there. -/
def doubleInJson (n : Numeral) : Binary64 := Json.ofDigits n.negative n.whole [] 0

/-- The numeral is not that of minus zero, and the integer fits in sixty-four bits with a sign or
without one. -/
structure FitsWord (negative : Bool) (magnitude : Nat) : Prop where
  ne_zero : negative = true → magnitude ≠ 0
  le_toInt : -2 ^ 63 ≤ (ofMagnitude negative magnitude).toInt
  toInt_lt : (ofMagnitude negative magnitude).toInt < 2 ^ 64

section
variable {negative : Bool} {magnitude : Nat}

theorem fitsWord_iff : FitsWord negative magnitude ↔
    ¬ (Json.maxWord < magnitude ∨
      negative = true ∧ (magnitude = 0 ∨ 0x8000000000000000 < magnitude)) := by
  have hword : Json.maxWord = 2 ^ 64 - 1 := rfl
  have hvalue := toInt_ofMagnitude negative magnitude
  cases negative with
  | true =>
    rw [if_pos rfl] at hvalue
    simp only [true_and]
    constructor
    · rintro ⟨hzero, hle, -⟩
      have hne := hzero rfl
      omega
    · intro h
      exact ⟨fun _ => by omega, by omega, by omega⟩
  | false =>
    rw [if_neg Bool.false_ne_true] at hvalue
    simp only [reduceCtorEq, false_and, or_false]
    constructor
    · rintro ⟨-, -, hlt⟩
      omega
    · intro h
      exact ⟨nofun, by omega, by omega⟩

theorem ofInteger_of_fitsWord (h : FitsWord negative magnitude) :
    Json.ofInteger negative (Nat.toDigits 10 magnitude) =
      .integer (ofMagnitude negative magnitude).toInt := by
  rw [Json.ofInteger_toDigits, if_neg (fitsWord_iff.1 h), toInt_ofMagnitude]

theorem ofInteger_of_not_fitsWord (h : ¬ FitsWord negative magnitude) :
    Json.ofInteger negative (Nat.toDigits 10 magnitude) =
      .double (ofMagnitude negative magnitude).doubleInJson := by
  rw [Json.ofInteger_toDigits, if_pos (not_not.1 (mt fitsWord_iff.2 h))]
  rfl

/-- Of the integers that fit with a sign, minus zero alone does not fit here, and it is finite. -/
theorem isFinite_of_not_fitsWord {i : Int64} (h : ¬ FitsWord negative magnitude)
    (hi : (ofMagnitude negative magnitude).toInt = i.toInt) :
    (ofMagnitude negative magnitude).doubleInJson.isFinite = true := by
  have hle := Int64.le_toInt i
  have hlt := Int64.toInt_lt i
  rw [← hi] at hle hlt
  have hzero : negative = true ∧ magnitude = 0 := by
    by_contra hne
    exact h ⟨fun hn hm => hne ⟨hn, hm⟩, hle, by omega⟩
  rw [hzero.1, hzero.2]
  decide +kernel

end

section
variable (negative : Bool) (magnitude : Nat)

theorem inMarkup_eq_ok_iff {d : Document} :
    (ofMagnitude negative magnitude).inMarkup = .ok d ↔
      ∃ i : Int64, (ofMagnitude negative magnitude).toInt = i.toInt ∧
        d = ⟨[.given (.literal (.int i))]⟩ := by
  rw [inMarkup, Document.load_givenText_eq_ok_iff (.numeral (isWritten_ofMagnitude negative magnitude))]
  constructor
  · rintro ⟨l, hl, rfl⟩
    cases hl with
    | integer _ hi => exact ⟨_, hi, rfl⟩
    | float hf _ => cases hf
  · rintro ⟨i, hi, rfl⟩
    exact ⟨_, .integer rfl hi, rfl⟩

theorem inJson_eq_ok_iff {s : Selection} :
    (ofMagnitude negative magnitude).inJson = some (.ok s) ↔
      (FitsWord negative magnitude ∧ ∃ i : Int64,
        (ofMagnitude negative magnitude).toInt = i.toInt ∧ s = .given (.literal (.int i))) ∨
      (¬ FitsWord negative magnitude ∧ (ofMagnitude negative magnitude).doubleInJson.isFinite = true ∧
        s = .given (.literal (.float (ofMagnitude negative magnitude).doubleInJson))) := by
  rw [inJson, Selection.ofJsonText?, Selection.read?_givenJsonText, Option.map_some,
    Option.some_inj]
  by_cases h : FitsWord negative magnitude
  · rw [ofInteger_of_fitsWord h, Selection.deliver_givenJson_eq_ok_iff rfl]
    simp only [h, not_true, true_and, false_and, or_false]
    constructor
    · rintro ⟨v, hv, rfl⟩
      cases hv with
      | literal hl =>
        generalize (ofMagnitude negative magnitude).toInt = n at hl
        cases hl with
        | integer => exact ⟨_, rfl, rfl⟩
    · rintro ⟨i, hi, rfl⟩
      exact ⟨_, .literal (hi ▸ .integer), rfl⟩
  · rw [ofInteger_of_not_fitsWord h, Selection.deliver_givenJson_eq_ok_iff rfl]
    simp only [h, not_false_eq_true, true_and, false_and, false_or]
    constructor
    · rintro ⟨v, hv, rfl⟩
      cases hv with
      | literal hl =>
        cases hl with
        | double hf => exact ⟨hf, rfl⟩
    · rintro ⟨hf, rfl⟩
      exact ⟨_, .literal (.double hf), rfl⟩

/-- Markup and JSON agree on the integers that fit in sixty-four bits, minus zero left out, and on
those beyond all doubles. -/
theorem readings_agree_iff :
    (∀ v, (ofMagnitude negative magnitude).inMarkup = .ok ⟨[.given v]⟩ ↔
        (ofMagnitude negative magnitude).inJson = some (.ok (.given v))) ↔
      FitsWord negative magnitude ∨
        (ofMagnitude negative magnitude).doubleInJson.isFinite = false := by
  simp only [inMarkup_eq_ok_iff, inJson_eq_ok_iff, Document.mk.injEq, List.singleton_inj,
    Selection.given_inj]
  by_cases h : FitsWord negative magnitude
  · simp [h]
  · simp only [h, false_and, not_false_eq_true, true_and, false_or]
    constructor
    · intro hagree
      by_contra hf
      obtain ⟨i, -, hv⟩ := (hagree (.literal (.float _))).2 ⟨by simpa using hf, rfl⟩
      cases hv
    · intro hf v
      constructor
      · rintro ⟨i, hi, rfl⟩
        rw [isFinite_of_not_fitsWord h hi] at hf
        cases hf
      · rintro ⟨hfinite, -⟩
        rw [hfinite] at hf
        cases hf

/-- What the numeral of an integer is as a parameter. In markup it is the integer if that fits in
sixty-four bits with a sign, and otherwise refused. In JSON this goes for what fits in sixty-four bits
at all; anything else, minus zero included, is a double, and refused only if that is not finite. The
double is made of the leading digits that fit in sixty-four bits. -/
theorem readings_of_integer :
    (∀ d, (ofMagnitude negative magnitude).inMarkup = .ok d ↔ ∃ i : Int64,
      (ofMagnitude negative magnitude).toInt = i.toInt ∧ d = ⟨[.given (.literal (.int i))]⟩) ∧
    (∀ s, (ofMagnitude negative magnitude).inJson = some (.ok s) ↔
      (FitsWord negative magnitude ∧ ∃ i : Int64,
        (ofMagnitude negative magnitude).toInt = i.toInt ∧ s = .given (.literal (.int i))) ∨
      (¬ FitsWord negative magnitude ∧
        (ofMagnitude negative magnitude).doubleInJson.isFinite = true ∧
        s = .given (.literal (.float (ofMagnitude negative magnitude).doubleInJson)))) ∧
    ((∀ v, (ofMagnitude negative magnitude).inMarkup = .ok ⟨[.given v]⟩ ↔
        (ofMagnitude negative magnitude).inJson = some (.ok (.given v))) ↔
      FitsWord negative magnitude ∨
        (ofMagnitude negative magnitude).doubleInJson.isFinite = false) ∧
    ∃ skipped, Json.LeavesOut magnitude skipped ∧
      (ofMagnitude negative magnitude).doubleInJson =
        Json.scaled negative (magnitude / 10 ^ skipped) skipped :=
  ⟨fun _ => inMarkup_eq_ok_iff negative magnitude,
    fun _ => inJson_eq_ok_iff negative magnitude,
    readings_agree_iff negative magnitude,
    Json.exists_leavesOut_ofDigits negative magnitude⟩

end

/-- The first integer beyond sixty-four bits is refused in markup and a double in JSON, although the
one before it is refused in both; so is the first one below them; and minus zero is an integer in
markup and a double in JSON. -/
theorem readings_of_integer_differ :
    (∀ d, (ofMagnitude false (2 ^ 64)).inMarkup ≠ .ok d) ∧
    (ofMagnitude false (2 ^ 64)).inJson =
      some (.ok (.given (.literal (.float ⟨0x43F0000000000000⟩)))) ∧
    (∀ s, (ofMagnitude false (2 ^ 64 - 1)).inJson ≠ some (.ok s)) ∧
    (∀ d, (ofMagnitude true (2 ^ 63 + 1)).inMarkup ≠ .ok d) ∧
    (ofMagnitude true (2 ^ 63 + 1)).inJson =
      some (.ok (.given (.literal (.float ⟨0xC3E0000000000000⟩)))) ∧
    (ofMagnitude true 0).inMarkup = .ok ⟨[.given (.literal (.int 0))]⟩ ∧
    (ofMagnitude true 0).inJson = some (.ok (.given (.literal (.float (.zero true))))) := by
  have hbeyond : ∀ d negative n, (∀ i : Int64, (ofMagnitude negative n).toInt ≠ i.toInt) →
      (ofMagnitude negative n).inMarkup ≠ .ok d := by
    intro d negative n hn hd
    obtain ⟨i, hi, -⟩ := (inMarkup_eq_ok_iff _ _).1 hd
    exact hn i hi
  have habove : ∀ n, 2 ^ 63 ≤ n → ∀ i : Int64, (ofMagnitude false n).toInt ≠ i.toInt := by
    intro n hn i h
    have hlt := Int64.toInt_lt i
    rw [← h, toInt_ofMagnitude, if_neg Bool.false_ne_true] at hlt
    omega
  have hbelow : ∀ i : Int64, (ofMagnitude true (2 ^ 63 + 1)).toInt ≠ i.toInt := by
    intro i h
    have hle := Int64.le_toInt i
    rw [← h, toInt_ofMagnitude, if_pos rfl] at hle
    omega
  have hdouble : ∀ negative n x, ¬ FitsWord negative n → x.isFinite = true →
      (ofMagnitude negative n).doubleInJson = x →
      (ofMagnitude negative n).inJson = some (.ok (.given (.literal (.float x)))) := by
    rintro negative n x hn hx rfl
    exact (inJson_eq_ok_iff _ _).2 (.inr ⟨hn, hx, rfl⟩)
  refine ⟨fun d => hbeyond d _ _ (habove _ (by decide)), ?_, fun s hs => ?_,
    fun d => hbeyond d _ _ hbelow, ?_, ?_, ?_⟩
  · exact hdouble _ _ _ (fun h => absurd h.toInt_lt (by decide)) (by decide) (by decide +kernel)
  · have hfits : FitsWord false (2 ^ 64 - 1) := ⟨nofun, by decide, by decide⟩
    rcases (inJson_eq_ok_iff _ _).1 hs with ⟨-, i, hi, -⟩ | ⟨h, -⟩
    · exact habove _ (by decide) i hi
    · exact h hfits
  · exact hdouble _ _ _ (fun h => absurd h.le_toInt (by decide)) (by decide) (by decide +kernel)
  · exact (inMarkup_eq_ok_iff _ _).2 ⟨0, by decide, rfl⟩
  · exact hdouble _ _ _ (fun h => h.ne_zero rfl rfl) (by decide) (by decide +kernel)

end Numeral

end QueryMarkup
