import QueryMarkup.Proofs.Markup.Escape
import QueryMarkup.Proofs.Markup.Token
import QueryMarkup.Proofs.OrderedMap
import QueryMarkup.Reader.Grammar

/-!
# The grammar of query markup

```text
document  := '{' object (',' object)* '}'
object    := header '{' property (',' property)* '}'
header    := identifier arguments? filter*
filter    := '.' identifier arguments
arguments := '(' ( literal | pair (',' pair)* )? ')'
pair      := identifier ':' literal
property  := object | identifier
```

Each rule is a relation between tokens and what they stand for. What a literal may stand for is a
parameter: `Lexeme.Denotes` is the language of the documents, and `Lexeme.Admits` the wider one in
which a literal only has to have the shape of one. `Grammar.Derives` is a whole text.
-/

namespace QueryMarkup

/-- The literal that a lexeme stands for. An integer out of range, a number that rounds to no finite
double and a string with a bad escape stand for none. -/
inductive Lexeme.Denotes : Lexeme → Literal → Prop where
  | null : Denotes (.word "null".toList) .null
  | true : Denotes (.word "true".toList) (.bool true)
  | false : Denotes (.word "false".toList) (.bool false)
  | integer {n : Numeral} {i : Int64} : n.fraction = none → n.toInt = i.toInt →
      Denotes (.numeral n) (.int i)
  | float {n : Numeral} : n.fraction.isSome = true → n.toBinary64.isFinite = true →
      Denotes (.numeral n) (.float n.toBinary64)
  | string {quote : Char} {body text : List Char} : Quoted.Denotes body text →
      Denotes (.quoted quote (some body)) (.string (String.ofList text))

/-- What a lexeme stands for, if anything; one without meaning may be taken for any literal. -/
def Lexeme.Admits (x : Lexeme) (l : Literal) : Prop := ∀ l', x.Denotes l' → l = l'

namespace Grammar

section
variable {α : Type} (Item : List Token → α → Prop)

/-- One or more items with commas between them. -/
inductive Separated : List Token → List α → Prop where
  | single {s : List Token} {a : α} : Item s a → Separated s [a]
  | cons {s t : List Token} {a : α} {as : List α} : Item s a → Separated t as →
      Separated (s ++ .sign ',' :: t) (a :: as)

/-- Any number of items one behind the other. -/
inductive Repeated : List Token → List α → Prop where
  | nil : Repeated [] []
  | cons {s t : List Token} {a : α} {as : List α} : Item s a → Repeated t as →
      Repeated (s ++ t) (a :: as)

end

/-! ## Rules and derivations -/

section
variable (Means : Lexeme → Literal → Prop)

inductive IsPair : List Token → String × Literal → Prop where
  | intro {n : String} {x : Lexeme} {l : Literal} : Means x l →
      IsPair [.name n, .sign ':', .literal x] (n, l)

inductive IsArguments : List Token → Arguments → Prop where
  | none : IsArguments [.sign '(', .sign ')'] .none
  | positional {x : Lexeme} {l : Literal} : Means x l →
      IsArguments [.sign '(', .literal x, .sign ')'] (.positional l)
  | named {s : List Token} {pairs : List (String × Literal)} {m : ArgMap} :
      Separated (IsPair Means) s pairs → m.Collects pairs →
      IsArguments (.sign '(' :: (s ++ [.sign ')'])) (.named m)

inductive IsFilter : List Token → Filter → Prop where
  | intro {n : String} {s : List Token} {a : Arguments} : IsArguments Means s a →
      IsFilter (.sign '.' :: .name n :: s) ⟨n, a.filterValue⟩

/-- The parameters of a selection, which may be left out. -/
inductive IsParams : List Token → Option Value → Prop where
  | absent : IsParams [] none
  | present {s : List Token} {a : Arguments} : IsArguments Means s a → IsParams s a.params?

inductive IsHeader : List Token → Header → Prop where
  | intro {n : String} {s t : List Token} {params : Option Value} {filters : List Filter} :
      IsParams Means s params → Repeated (IsFilter Means) t filters →
      IsHeader (.name n :: (s ++ t)) ⟨n, params, filters⟩

/-- A field, or a selection that `Nested` allows. -/
inductive IsProperty (Nested : List Token → Selection → Prop) : List Token → Property → Prop where
  | field {n : String} : IsProperty Nested [.name n] (.field n)
  | selection {s : List Token} {x : Selection} : Nested s x →
      IsProperty Nested s (.ofSelection x)

inductive IsSelection (Nested : List Token → Selection → Prop) : List Token → Selection → Prop where
  | intro {s t : List Token} {header : Header} {properties : List Property} :
      IsHeader Means s header → Separated (IsProperty Nested) t properties →
      IsSelection Nested (s ++ .sign '{' :: (t ++ [.sign '}'])) ⟨header, properties⟩

/-- Selections nested at most `room` deep. -/
def IsObject : (room : Nat) → List Token → Selection → Prop
  | 0 => fun _ _ => False
  | room + 1 => IsSelection Means (IsObject room)

inductive IsDocument (room : Nat) : List Token → Document → Prop where
  | intro {s : List Token} {selections : List Selection} :
      Separated (IsObject Means room) s selections →
      IsDocument room (.sign '{' :: (s ++ [.sign '}'])) ⟨selections⟩

/-- The text is that of the document, selections nested at most `room` deep. -/
def Derives (room : Nat) (text : List Char) (d : Document) : Prop :=
  ∃ tokens, Spells text tokens ∧ IsDocument Means room tokens d

variable {Means}

theorem Separated.first {α : Type} {Item : List Token → α → Prop} {s : List Token}
    {as : List α} (h : Separated Item s as) :
    ∃ u a t, Item u a ∧ s = u ++ t := by
  cases h with
  | single ha => exact ⟨_, _, [], ha, (List.append_nil _).symm⟩
  | cons ha _ => exact ⟨_, _, _, ha, rfl⟩

theorem Repeated.imp {α : Type} {Item Item' : List Token → α → Prop} {s : List Token}
    {as : List α} (h : Repeated Item s as) (hi : ∀ s a, Item s a → Item' s a) :
    Repeated Item' s as := by
  induction h with
  | nil => exact .nil
  | cons ha _ ih => exact .cons (hi _ _ ha) ih

theorem IsArguments.exists_cons {s : List Token} {a : Arguments} (h : IsArguments Means s a) :
    ∃ t, s = .sign '(' :: t := by
  cases h <;> exact ⟨_, rfl⟩

theorem IsFilter.exists_cons {s : List Token} {f : Filter} (h : IsFilter Means s f) :
    ∃ t, s = .sign '.' :: t := by
  cases h
  exact ⟨_, rfl⟩

theorem IsProperty.nested {Nested : List Token → Selection → Prop} {s : List Token} {x : Selection}
    (h : IsProperty Nested s (.ofSelection x)) : Nested s x := by
  generalize hp : Property.ofSelection x = p at h
  cases h with
  | field => cases hp
  | @selection _ y hy =>
    obtain ⟨hheader, hproperties⟩ := Property.selection.inj hp
    obtain ⟨header, properties⟩ := x
    obtain ⟨header', properties'⟩ := y
    obtain rfl : header = header' := hheader
    obtain rfl : properties = properties' := hproperties
    exact hy

end

end Grammar

end QueryMarkup
