import QueryMarkup.Text.Cursor

/-!
# Escaped text

The inside of a quoted string: characters stand for themselves or are written as escapes, those
beyond sixteen bits as two escapes in a row. `encode` escapes what has to be, `decode` reads any
escape. A failure tells how many bytes of the quoted string, its quotes included, were read.
-/

namespace QueryMarkup.Escaped

def hexDigit (n : Nat) : Char := Nat.digitChar n

def encodeChar (c : Char) : List Char :=
  if c = '"' then ['\\', '"']
  else if c = '\\' then ['\\', '\\']
  else if c = '\x08' then ['\\', 'b']
  else if c = '\x0c' then ['\\', 'f']
  else if c = '\n' then ['\\', 'n']
  else if c = '\r' then ['\\', 'r']
  else if c = '\t' then ['\\', 't']
  else if c.toNat < 0x20 then
    ['\\', 'u', '0', '0', hexDigit (c.toNat / 16), hexDigit (c.toNat % 16)]
  else [c]

def encode (text : List Char) : List Char := text.flatMap encodeChar

/-- The text between double quotes. -/
def quote (text : List Char) : List Char := '"' :: (encode text ++ ['"'])

/-! ## Reading -/

inductive Problem where
  | invalidEscape
  | endOfString
  | unpairedSurrogate
  | secondHalfMissing
  | controlCharacter
  deriving DecidableEq

def Problem.message : Problem → String
  | .invalidEscape => "invalid escape"
  | .endOfString => "EOF while parsing a string"
  | .unpairedSurrogate => "lone leading surrogate in hex escape"
  | .secondHalfMissing => "unexpected end of hex escape"
  | .controlCharacter => "control character (\\u0000-\\u001F) found while parsing a string"

/-- A problem and the bytes still unread, the closing quote counting as one. -/
structure Fault where
  problem : Problem
  unread : Nat
  deriving DecidableEq

/-- The bytes unread when `rest` and the closing quote are. -/
def unread (rest : List Char) : Nat := byteSize rest + 1

def hexValue? (c : Char) : Option Nat :=
  if '0' ≤ c ∧ c ≤ '9' then some (c.toNat - '0'.toNat)
  else if 'a' ≤ c ∧ c ≤ 'f' then some (c.toNat - 'a'.toNat + 10)
  else if 'A' ≤ c ∧ c ≤ 'F' then some (c.toNat - 'A'.toNat + 10)
  else none

/-- Why four hexadecimal digits cannot be read: there are not even four bytes, or they are other
characters, all four of which are then read. -/
def hexFault (rest : List Char) : Fault :=
  if unread rest < 4 then ⟨.endOfString, 0⟩ else ⟨.invalidEscape, unread rest - 4⟩

/-- The value of the four hexadecimal digits that come next. -/
def hexFour : List Char → Except Fault Nat
  | a :: b :: c :: d :: rest =>
    match hexValue? a, hexValue? b, hexValue? c, hexValue? d with
    | some a', some b', some c', some d' => .ok (((a' * 16 + b') * 16 + c') * 16 + d')
    | _, _, _, _ => .error (hexFault (a :: b :: c :: d :: rest))
  | rest => .error (hexFault rest)

def isLeading (unit : Nat) : Bool := decide (0xD800 ≤ unit ∧ unit < 0xDC00)

def isTrailing (unit : Nat) : Bool := decide (0xDC00 ≤ unit ∧ unit < 0xE000)

/-- The character of two surrogates. -/
def paired (leading trailing : Nat) : Char :=
  Char.ofNat (0x10000 + (leading - 0xD800) * 0x400 + (trailing - 0xDC00))

/-- The character whose leading surrogate was read; the escape of the trailing one comes next. -/
def secondHalf (leading : Nat) : List Char → Except Fault Char
  | '\\' :: 'u' :: rest =>
    match hexFour rest with
    | .error fault => .error fault
    | .ok trailing =>
      if isTrailing trailing then .ok (paired leading trailing)
      else .error ⟨.unpairedSurrogate, unread (rest.drop 4)⟩
  | '\\' :: rest => .error ⟨.secondHalfMissing, unread rest - 1⟩
  | rest => .error ⟨.secondHalfMissing, unread rest - 1⟩

/-- A character by its sixteen-bit units, and the number of characters behind the `\u` that are
its spelling. -/
def unicode (rest : List Char) : Except Fault (Char × Nat) :=
  match hexFour rest with
  | .error fault => .error fault
  | .ok unit =>
    if isTrailing unit then .error ⟨.unpairedSurrogate, unread (rest.drop 4)⟩
    else if isLeading unit then (secondHalf unit (rest.drop 4)).map fun c => (c, 10)
    else .ok (Char.ofNat unit, 4)

/-- The character that a single letter stands for behind a backslash. -/
def simpleEscape? (c : Char) : Option Char :=
  if c = '"' then some '"'
  else if c = '\\' then some '\\'
  else if c = '/' then some '/'
  else if c = 'b' then some '\x08'
  else if c = 'f' then some '\x0c'
  else if c = 'n' then some '\n'
  else if c = 'r' then some '\r'
  else if c = 't' then some '\t'
  else none

/-- The character of an escape, and the number of characters behind the backslash. -/
def escape : List Char → Except Fault (Char × Nat)
  | [] => .error ⟨.endOfString, 0⟩
  | c :: rest =>
    match simpleEscape? c with
    | some d => .ok (d, 1)
    | none =>
      if c = 'u' then (unicode rest).map fun r => (r.1, r.2 + 1)
      else .error ⟨.invalidEscape, unread (c :: rest) - 1⟩

/-- The character that starts with `c`, plain or escaped, and the number of characters behind `c`
that belong to it. -/
def character (c : Char) (rest : List Char) : Except Fault (Char × Nat) :=
  if c = '\\' then escape rest
  else if c.toNat < 0x20 then .error ⟨.controlCharacter, unread rest⟩
  else .ok (c, 0)

/-- Decodes a text behind `skip` characters. -/
def decodeBehind (skip : Nat) : List Char → Except Fault (List Char)
  | [] => .ok []
  | c :: rest =>
    match skip with
    | skip + 1 => decodeBehind skip rest
    | 0 =>
      match character c rest with
      | .error fault => .error fault
      | .ok (d, count) => (decodeBehind count rest).map (d :: ·)

def decode (text : List Char) : Except Fault (List Char) := decodeBehind 0 text

theorem decodeBehind_eq (skip : Nat) (text : List Char) :
    decodeBehind skip text = decode (text.drop skip) := by
  induction text generalizing skip with
  | nil => simp [decode, decodeBehind]
  | cons c rest ih =>
    cases skip with
    | zero => rfl
    | succ skip => exact ih skip

theorem decode_nil : decode [] = .ok [] := rfl

/-- Decoding goes character by character. -/
theorem decode_cons (c : Char) (rest : List Char) :
    decode (c :: rest) =
      match character c rest with
      | .error fault => .error fault
      | .ok (d, count) => (decode (rest.drop count)).map (d :: ·) := by
  rw [decode, decodeBehind]
  simp only [decodeBehind_eq]

/-- The bytes of the quoted string that were read when `decode` stopped at the fault. -/
def Fault.column (fault : Fault) (text : List Char) : Nat := byteSize text + 2 - fault.unread

end QueryMarkup.Escaped
