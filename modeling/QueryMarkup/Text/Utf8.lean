/-!
# UTF-8

Reading bytes as text. The first byte of a character tells how many bytes follow and in which
range the next one lies; all later ones are continuation bytes. Reading stops in front of the first
character that is cut off or spoilt, and says how far the spoilt one went.
-/

namespace QueryMarkup.Utf8

/-- Why bytes end being text: the input ends inside a character, or a character breaks off after
`length` good bytes, a byte that starts no character counting as one. -/
inductive Fault where
  | incomplete
  | invalid (length : Nat)
  deriving DecidableEq

/-- What the first byte of a character tells. -/
structure Lead where
  payload : Nat
  following : Nat
  low : UInt8
  high : UInt8

def lead? (b : UInt8) : Option Lead :=
  if b ≤ 0x7F then some ⟨b.toNat, 0, 0x80, 0xBF⟩
  else if b < 0xC2 then none
  else if b ≤ 0xDF then some ⟨b.toNat % 32, 1, 0x80, 0xBF⟩
  else if b = 0xE0 then some ⟨0, 2, 0xA0, 0xBF⟩
  else if b = 0xED then some ⟨13, 2, 0x80, 0x9F⟩
  else if b ≤ 0xEF then some ⟨b.toNat % 16, 2, 0x80, 0xBF⟩
  else if b = 0xF0 then some ⟨0, 3, 0x90, 0xBF⟩
  else if b ≤ 0xF3 then some ⟨b.toNat % 8, 3, 0x80, 0xBF⟩
  else if b = 0xF4 then some ⟨4, 3, 0x80, 0x8F⟩
  else none

/-- Reads `following` continuation bytes, the next one in the range given, into `value`. -/
def continuation (low high : UInt8) (seen value : Nat) :
    (following : Nat) → List UInt8 → Except Fault Nat
  | 0, _ => .ok value
  | _ + 1, [] => .error .incomplete
  | following + 1, b :: bytes =>
    if low ≤ b ∧ b ≤ high then
      continuation 0x80 0xBF (seen + 1) (value * 64 + b.toNat % 64) following bytes
    else .error (.invalid seen)

/-- The character that starts with `b`, and the number of bytes behind `b` that belong to it. -/
def character (b : UInt8) (bytes : List UInt8) : Except Fault (Char × Nat) :=
  match lead? b with
  | none => .error (.invalid 1)
  | some lead =>
    match continuation lead.low lead.high 1 lead.payload lead.following bytes with
    | .ok value => .ok (Char.ofNat value, lead.following)
    | .error fault => .error fault

/-- Decodes bytes behind `skip` of them. -/
def decodeBehind (skip : Nat) : List UInt8 → List Char × Option Fault
  | [] => ([], none)
  | b :: bytes =>
    match skip with
    | skip + 1 => decodeBehind skip bytes
    | 0 =>
      match character b bytes with
      | .error fault => ([], some fault)
      | .ok (c, count) =>
        let (text, fault) := decodeBehind count bytes
        (c :: text, fault)

/-- The text of the longest prefix that is UTF-8, and what stops it short of the end. -/
def decode (bytes : List UInt8) : List Char × Option Fault := decodeBehind 0 bytes

theorem decodeBehind_eq (skip : Nat) (bytes : List UInt8) :
    decodeBehind skip bytes = decode (bytes.drop skip) := by
  induction bytes generalizing skip with
  | nil => simp [decode, decodeBehind]
  | cons b bytes ih =>
    cases skip with
    | zero => rfl
    | succ skip => exact ih skip

theorem decode_nil : decode [] = ([], none) := rfl

/-- Decoding goes character by character. -/
theorem decode_cons (b : UInt8) (bytes : List UInt8) :
    decode (b :: bytes) =
      match character b bytes with
      | .error fault => ([], some fault)
      | .ok (c, count) =>
        let (text, fault) := decode (bytes.drop count)
        (c :: text, fault) := by
  rw [decode, decodeBehind]
  simp only [decodeBehind_eq]

def encode (text : List Char) : List UInt8 := text.flatMap String.utf8EncodeChar

end QueryMarkup.Utf8
