import Mathlib.Data.List.Infix
import QueryMarkup.Text.Cursor
import QueryMarkup.Text.Utf8

/-!
# Decoding what was encoded

A character is read from bytes exactly when they start with its encoding. Decoding therefore reads
the longest text whose encoding the bytes start with, and stops short of the end exactly when the
bytes are no encoding of a text.
-/

namespace QueryMarkup.Utf8

theorem ofNat_eq {n : Nat} {b : UInt8} (h : n = b.toNat) : UInt8.ofNat n = b := by
  rw [h, UInt8.ofNat_toNat]

theorem toNat_ofNat {n : Nat} (h : n < 256) : (UInt8.ofNat n).toNat = n := by
  rw [UInt8.toNat_ofNat', Nat.mod_eq_of_lt h]

theorem toNat_ite_le {p : Prop} [Decidable p] {a b : UInt8} {n : Nat} :
    (if p then a else b).toNat ≤ n ↔ (p → a.toNat ≤ n) ∧ (¬p → b.toNat ≤ n) := by
  split <;> simp_all

theorem le_toNat_ite {p : Prop} [Decidable p] {a b : UInt8} {n : Nat} :
    n ≤ (if p then a else b).toNat ↔ (p → n ≤ a.toNat) ∧ (¬p → n ≤ b.toNat) := by
  split <;> simp_all

/-! ## Bytes of a character -/

theorem encodeChar_eq (c : Char) :
    String.utf8EncodeChar c =
      if c.toNat ≤ 0x7F then [.ofNat c.toNat]
      else if c.toNat ≤ 0x7FF then
        [.ofNat (c.toNat / 64 % 32 + 0xC0), .ofNat (c.toNat % 64 + 0x80)]
      else if c.toNat ≤ 0xFFFF then
        [.ofNat (c.toNat / 4096 % 16 + 0xE0), .ofNat (c.toNat / 64 % 64 + 0x80),
          .ofNat (c.toNat % 64 + 0x80)]
      else
        [.ofNat (c.toNat / 262144 % 8 + 0xF0), .ofNat (c.toNat / 4096 % 64 + 0x80),
          .ofNat (c.toNat / 64 % 64 + 0x80), .ofNat (c.toNat % 64 + 0x80)] := rfl

theorem encodeChar_ofNat {n : Nat} (h : n < 0xD800 ∨ 0xDFFF < n ∧ n < 0x110000) :
    String.utf8EncodeChar (Char.ofNat n) =
      if n ≤ 0x7F then [.ofNat n]
      else if n ≤ 0x7FF then [.ofNat (n / 64 % 32 + 0xC0), .ofNat (n % 64 + 0x80)]
      else if n ≤ 0xFFFF then
        [.ofNat (n / 4096 % 16 + 0xE0), .ofNat (n / 64 % 64 + 0x80), .ofNat (n % 64 + 0x80)]
      else
        [.ofNat (n / 262144 % 8 + 0xF0), .ofNat (n / 4096 % 64 + 0x80),
          .ofNat (n / 64 % 64 + 0x80), .ofNat (n % 64 + 0x80)] := by
  have hn : (Char.ofNat n).toNat = n := by
    rw [Char.ofNat, dif_pos h]
    rfl
  rw [encodeChar_eq, hn]

/-- A first byte tells the bits it holds, how many bytes follow and the range of the next one. -/
theorem lead?_eq (b : UInt8) :
    lead? b =
      if b.toNat ≤ 0x7F then some ⟨b.toNat, 0, 0x80, 0xBF⟩
      else if 0xC2 ≤ b.toNat ∧ b.toNat ≤ 0xDF then some ⟨b.toNat - 0xC0, 1, 0x80, 0xBF⟩
      else if 0xE0 ≤ b.toNat ∧ b.toNat ≤ 0xEF then
        some ⟨b.toNat - 0xE0, 2, if b.toNat = 0xE0 then 0xA0 else 0x80,
          if b.toNat = 0xED then 0x9F else 0xBF⟩
      else if 0xF0 ≤ b.toNat ∧ b.toNat ≤ 0xF4 then
        some ⟨b.toNat - 0xF0, 3, if b.toNat = 0xF0 then 0x90 else 0x80,
          if b.toNat = 0xF4 then 0x8F else 0xBF⟩
      else none := by
  simp only [lead?, UInt8.le_iff_toNat_le, UInt8.lt_iff_toNat_lt, ← UInt8.toNat_inj,
    UInt8.reduceToNat]
  split_ifs <;> first | omega | simp only [Option.some.injEq, Lead.mk.injEq, and_true] <;> omega

theorem continuation_succ_eq_ok {low high : UInt8} {seen value k r : Nat} {bytes : List UInt8} :
    continuation low high seen value (k + 1) bytes = .ok r ↔
      ∃ b rest, bytes = b :: rest ∧ low.toNat ≤ b.toNat ∧ b.toNat ≤ high.toNat ∧
        continuation 0x80 0xBF (seen + 1) (value * 64 + b.toNat % 64) k rest = .ok r := by
  cases bytes with
  | nil => simp [continuation]
  | cons b rest =>
    rw [continuation]
    split
    · rename_i h
      exact ⟨fun hr => ⟨b, rest, rfl, h.1, h.2, hr⟩, by rintro ⟨_, _, ⟨⟩, -, -, hr⟩; exact hr⟩
    · rename_i h
      exact ⟨nofun, fun ⟨_, _, he, hl, hh, _⟩ => by cases he; exact absurd ⟨hl, hh⟩ h⟩

/-- Six bits in a byte of the range are read. -/
theorem continuation_cons {low high : UInt8} {seen value k n : Nat} {bytes : List UInt8}
    (h : n < 64) (hlow : low.toNat ≤ n + 0x80) (hhigh : n + 0x80 ≤ high.toNat) :
    continuation low high seen value (k + 1) (.ofNat (n + 0x80) :: bytes) =
      continuation 0x80 0xBF (seen + 1) (value * 64 + n) k bytes := by
  have hb := toNat_ofNat (n := n + 0x80) (by omega)
  have hn : (n + 0x80) % 64 = n := by omega
  have hrange : low ≤ .ofNat (n + 0x80) ∧ .ofNat (n + 0x80) ≤ high := by
    rw [UInt8.le_iff_toNat_le, UInt8.le_iff_toNat_le, hb]
    exact ⟨hlow, hhigh⟩
  rw [continuation, if_pos hrange, hb, hn]

theorem character_eq_ok {b : UInt8} {bytes : List UInt8} {c : Char} {n : Nat} :
    character b bytes = .ok (c, n) ↔ ∃ l value, lead? b = some l ∧
      continuation l.low l.high 1 l.payload l.following bytes = .ok value ∧
      c = Char.ofNat value ∧ n = l.following := by
  unfold character
  constructor
  · intro h
    split at h
    · cases h
    · rename_i l hl
      split at h
      · rename_i value hv
        obtain ⟨rfl, rfl⟩ := Prod.mk.inj (Except.ok.inj h)
        exact ⟨l, value, hl, hv, rfl, rfl⟩
      · cases h
  · rintro ⟨l, value, hl, hv, rfl, rfl⟩
    simp only [hl, hv]

/-- Bytes that a character is read from start with its encoding. -/
theorem eq_of_character {b : UInt8} {bytes : List UInt8} {c : Char} {n : Nat}
    (h : character b bytes = .ok (c, n)) :
    b :: bytes = String.utf8EncodeChar c ++ bytes.drop n := by
  obtain ⟨l, value, hl, hv, rfl, rfl⟩ := character_eq_ok.1 h
  rw [lead?_eq] at hl
  split at hl
  · obtain rfl := Option.some.inj hl
    obtain rfl : b.toNat = value := Except.ok.inj hv
    rw [encodeChar_ofNat (by omega), if_pos (by assumption), ofNat_eq rfl]
    rfl
  split at hl
  · obtain rfl := Option.some.inj hl
    obtain ⟨b₁, rest, rfl, hlow, hhigh, hv⟩ := continuation_succ_eq_ok.1 hv
    obtain rfl := Except.ok.inj hv
    simp only [UInt8.reduceToNat] at hlow hhigh
    dsimp only
    rw [encodeChar_ofNat (by omega), if_neg (by omega), if_pos (by omega),
      ofNat_eq (b := b) (by omega), ofNat_eq (b := b₁) (by omega)]
    rfl
  split at hl
  · obtain rfl := Option.some.inj hl
    obtain ⟨b₁, rest, rfl, hlow, hhigh, hv⟩ := continuation_succ_eq_ok.1 hv
    obtain ⟨b₂, rest, rfl, hlow₂, hhigh₂, hv⟩ := continuation_succ_eq_ok.1 hv
    obtain rfl := Except.ok.inj hv
    simp only [toNat_ite_le, le_toNat_ite, UInt8.reduceToNat] at hlow hhigh hlow₂ hhigh₂
    dsimp only
    rw [encodeChar_ofNat (by omega), if_neg (by omega), if_neg (by omega), if_pos (by omega),
      ofNat_eq (b := b) (by omega), ofNat_eq (b := b₁) (by omega), ofNat_eq (b := b₂) (by omega)]
    rfl
  split at hl
  · obtain rfl := Option.some.inj hl
    obtain ⟨b₁, rest, rfl, hlow, hhigh, hv⟩ := continuation_succ_eq_ok.1 hv
    obtain ⟨b₂, rest, rfl, hlow₂, hhigh₂, hv⟩ := continuation_succ_eq_ok.1 hv
    obtain ⟨b₃, rest, rfl, hlow₃, hhigh₃, hv⟩ := continuation_succ_eq_ok.1 hv
    obtain rfl := Except.ok.inj hv
    simp only [toNat_ite_le, le_toNat_ite, UInt8.reduceToNat]
      at hlow hhigh hlow₂ hhigh₂ hlow₃ hhigh₃
    dsimp only
    rw [encodeChar_ofNat (by omega), if_neg (by omega), if_neg (by omega), if_neg (by omega),
      ofNat_eq (b := b) (by omega), ofNat_eq (b := b₁) (by omega), ofNat_eq (b := b₂) (by omega),
      ofNat_eq (b := b₃) (by omega)]
    rfl
  · cases hl

/-- Bytes that start with the encoding of a character start with that character. -/
theorem character_of_eq {b : UInt8} {bytes rest : List UInt8} {c : Char}
    (h : b :: bytes = String.utf8EncodeChar c ++ rest) :
    ∃ n, character b bytes = .ok (c, n) ∧ bytes.drop n = rest := by
  have hc : c.toNat < 0xD800 ∨ 0xDFFF < c.toNat ∧ c.toNat < 0x110000 := c.valid
  suffices ∃ l, lead? b = some l ∧ bytes.drop l.following = rest ∧
      continuation l.low l.high 1 l.payload l.following bytes = .ok c.toNat by
    obtain ⟨l, hl, hrest, hv⟩ := this
    exact ⟨_, character_eq_ok.2 ⟨l, _, hl, hv, c.ofNat_toNat.symm, rfl⟩, hrest⟩
  rw [encodeChar_eq] at h
  generalize c.toNat = v at h hc
  split at h
  · obtain ⟨rfl, rfl⟩ := List.cons.inj h
    have hb := toNat_ofNat (n := v) (by omega)
    rw [lead?_eq, if_pos (by omega)]
    exact ⟨_, rfl, rfl, congrArg _ hb⟩
  split at h
  · obtain ⟨rfl, rfl⟩ := List.cons.inj h
    have hb := toNat_ofNat (n := v / 64 % 32 + 0xC0) (by omega)
    rw [lead?_eq, if_neg (by omega), if_pos (by omega)]
    refine ⟨_, rfl, rfl, (continuation_cons (by omega) ?_ ?_).trans (congrArg Except.ok ?_)⟩
    all_goals
      dsimp only [UInt8.reduceToNat]
      omega
  split at h
  · obtain ⟨rfl, rfl⟩ := List.cons.inj h
    have hb := toNat_ofNat (n := v / 4096 % 16 + 0xE0) (by omega)
    rw [lead?_eq, if_neg (by omega), if_neg (by omega), if_pos (by omega)]
    refine ⟨_, rfl, rfl, (continuation_cons (by omega) (toNat_ite_le.2 ?_)
      (le_toNat_ite.2 ?_)).trans ((continuation_cons (by omega) ?_ ?_).trans
      (congrArg Except.ok ?_))⟩
    all_goals
      dsimp only [UInt8.reduceToNat]
      omega
  · obtain ⟨rfl, rfl⟩ := List.cons.inj h
    have hb := toNat_ofNat (n := v / 262144 % 8 + 0xF0) (by omega)
    rw [lead?_eq, if_neg (by omega), if_neg (by omega), if_neg (by omega), if_pos (by omega)]
    refine ⟨_, rfl, rfl, (continuation_cons (by omega) (toNat_ite_le.2 ?_)
      (le_toNat_ite.2 ?_)).trans ((continuation_cons (by omega) ?_ ?_).trans
      ((continuation_cons (by omega) ?_ ?_).trans (congrArg Except.ok ?_)))⟩
    all_goals
      dsimp only [UInt8.reduceToNat]
      omega

/-! ## Texts -/

theorem length_encode (text : List Char) : (encode text).length = byteSize text := by
  induction text with
  | nil => rfl
  | cons c text ih =>
    show (String.utf8EncodeChar c ++ encode text).length = _
    rw [List.length_append, String.length_utf8EncodeChar, ih, byteSize]

/-- An encoded text is read from the bytes that start with it. -/
theorem decode_encode_append (text : List Char) (rest : List UInt8) :
    decode (encode text ++ rest) = (text ++ (decode rest).1, (decode rest).2) := by
  induction text with
  | nil => rfl
  | cons c text ih =>
    have hbytes : encode (c :: text) ++ rest = String.utf8EncodeChar c ++ (encode text ++ rest) :=
      List.append_assoc _ _ _
    rw [hbytes]
    cases hb : String.utf8EncodeChar c ++ (encode text ++ rest) with
    | nil => exact absurd (List.append_eq_nil_iff.1 hb).1 String.utf8EncodeChar_ne_nil
    | cons b bytes =>
      obtain ⟨n, hc, hrest⟩ := character_of_eq hb.symm
      rw [decode_cons, hc]
      simp only [hrest, ih]
      rfl

theorem decode_encode (text : List Char) : decode (encode text) = (text, none) := by
  simpa [decode_nil] using decode_encode_append text []

/-- Behind the text that was decoded stand bytes of which no character is decoded. -/
theorem exists_eq_encode_append (bytes : List UInt8) :
    ∃ rest, bytes = encode (decode bytes).1 ++ rest ∧ decode rest = ([], (decode bytes).2) ∧
      ((decode bytes).2 = none → rest = []) := by
  induction hn : bytes.length using Nat.strongRecOn generalizing bytes with
  | ind n ih =>
    subst hn
    cases bytes with
    | nil => exact ⟨[], rfl, rfl, fun _ => rfl⟩
    | cons b bytes =>
      cases hc : character b bytes with
      | error fault =>
        have hd : decode (b :: bytes) = ([], some fault) := by rw [decode_cons, hc]
        rw [hd]
        exact ⟨b :: bytes, rfl, hd, nofun⟩
      | ok r =>
        obtain ⟨c, count⟩ := r
        have hlt : (bytes.drop count).length < (b :: bytes).length := by
          rw [List.length_drop, List.length_cons]
          omega
        obtain ⟨rest, hrest, hdecode, hnil⟩ := ih _ hlt (bytes.drop count) rfl
        have hd : decode (b :: bytes) =
            (c :: (decode (bytes.drop count)).1, (decode (bytes.drop count)).2) := by
          rw [decode_cons, hc]
        rw [hd]
        refine ⟨rest, ?_, hdecode, hnil⟩
        calc b :: bytes = String.utf8EncodeChar c ++ bytes.drop count := eq_of_character hc
          _ = String.utf8EncodeChar c ++ (encode (decode (bytes.drop count)).1 ++ rest) := by
            rw [← hrest]
          _ = _ := (List.append_assoc _ _ _).symm

theorem decode_snd_eq_none {bytes : List UInt8} :
    (decode bytes).2 = none ↔ ∃ text, bytes = encode text := by
  constructor
  · intro h
    obtain ⟨rest, hbytes, -, hrest⟩ := exists_eq_encode_append bytes
    rw [hrest h, List.append_nil] at hbytes
    exact ⟨_, hbytes⟩
  · rintro ⟨text, rfl⟩
    rw [decode_encode]

/-- No longer text is a prefix of the bytes than the one decoded. -/
theorem isPrefix_decode {text : List Char} {bytes : List UInt8} (h : encode text <+: bytes) :
    text <+: (decode bytes).1 := by
  obtain ⟨rest, rfl⟩ := h
  rw [decode_encode_append]
  exact List.prefix_append _ _

end QueryMarkup.Utf8
