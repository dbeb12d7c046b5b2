import QueryMarkup.Proofs.Reading.Report
import QueryMarkup.Proofs.Text.Utf8

/-!
# Loading bytes, whole or in chunks

Bytes that encode a text are loaded as the text is, in however many chunks they come. Of other bytes
a stream tells nothing, and the bytes as a whole are refused behind the longest text that they start
with, at the place where a reading that passed over that text would be.
-/

namespace QueryMarkup

/-- Passes over so many characters, one after the other. -/
def Parse.passOver : (count : Nat) → Parse Unit
  | 0 => pure ()
  | count + 1 => do
    next
    passOver count

theorem Parse.run_passOver (count : Nat) (c : Cursor) :
    ((passOver count).run c).result = .ok ((), c.drop count) := by
  induction count generalizing c with
  | zero => rw [Cursor.drop_zero]; rfl
  | succ count ih =>
    have hdrop : (c.drop 1).drop count = c.drop (count + 1) := by
      rw [Cursor.drop_drop, Nat.add_comm]
    rw [← hdrop, ← ih]
    rfl

/-- A report about the place behind `valid`, on whose last line it is. -/
structure Report.PointsBehind (r : Report) (valid : List Char) : Prop where
  offset : r.offset = (Utf8.encode valid).length
  place : ((Parse.passOver valid.length).run (.start valid)).result =
    .ok ((), ⟨⟨r.offset, r.line, r.column⟩, []⟩)
  context : r.context = String.ofList (lastLine valid)

namespace Document

theorem spoiltReport_pointsBehind (valid : List Char) (fault : Utf8.Fault) :
    (spoiltReport valid fault).PointsBehind valid where
  offset := (Utf8.length_encode valid).symm
  place := by
    -- the place counted back from the end is the one counted on the way
    have hplace : Position.start.afterAll valid =
        ⟨byteSize valid, valid.count '\n' + 1, (lastLine valid).length + 1⟩ := by
      rw [afterAll_start, Nat.add_comm 1, Nat.add_comm 1]
    rw [Parse.run_passOver, Cursor.drop, Cursor.start, List.take_length, List.drop_length, hplace]
    rfl
  context := rfl

theorem loadBytes_encode (text : String) : loadBytes (Utf8.encode text.toList) = load text := by
  rw [loadBytes, Utf8.decode_encode]
  exact congrArg load String.ofList_toList

theorem loadStream_encode {chunks : List (List UInt8)} {text : String}
    (h : Utf8.encode text.toList = chunks.flatten) : loadStream ⟨chunks, none⟩ = load text := by
  rw [loadStream, ← h, Utf8.decode_encode]
  exact congrArg load String.ofList_toList

/-- However bytes arrive, they are loaded as the text they encode, or refused. -/
theorem loading_agrees {bytes : List UInt8} {chunks : List (List UInt8)}
    (h : chunks.flatten = bytes) :
    (∀ text : String, Utf8.encode text.toList = bytes →
      loadBytes bytes = load text ∧ loadStream ⟨chunks, none⟩ = load text) ∧
    ((∀ text, Utf8.encode text ≠ bytes) →
      loadStream ⟨chunks, none⟩ = .error (.io "stream did not contain valid UTF-8") ∧
      ∃ valid r, loadBytes bytes = .error (.malformed r) ∧ Utf8.encode valid <+: bytes ∧
        (∀ text, Utf8.encode text <+: bytes → text <+: valid) ∧ r.PointsBehind valid) ∧
    ∀ message, loadStream ⟨chunks, some message⟩ = .error (.io message) := by
  subst h
  refine ⟨fun text htext => ⟨?_, loadStream_encode htext⟩, fun hnone => ?_, fun message => rfl⟩
  · rw [← htext, loadBytes_encode]
  · cases hfault : (Utf8.decode chunks.flatten).2 with
    | none =>
      obtain ⟨text, htext⟩ := Utf8.decode_snd_eq_none.1 hfault
      exact absurd htext.symm (hnone text)
    | some fault =>
      have hdecode := Prod.eta (Utf8.decode chunks.flatten)
      rw [hfault] at hdecode
      obtain ⟨rest, hrest, -⟩ := Utf8.exists_eq_encode_append chunks.flatten
      refine ⟨by rw [loadStream, ← hdecode], _, _, by rw [loadBytes, ← hdecode],
        ⟨rest, hrest.symm⟩, fun text => Utf8.isPrefix_decode, spoiltReport_pointsBehind _ fault⟩

/-- A letter of two bytes in two chunks, and one that breaks off on the second line. -/
theorem loading_agrees_on_torn_letters :
    loadStream ⟨[[0x7B, 0x61, 0x28, 0x27, 0xC3], [], [0xA9, 0x27, 0x29, 0x7B, 0x62, 0x7D, 0x7D]],
      none⟩ = load "\x7ba('é')\x7bb\x7d\x7d" ∧
    loadStream ⟨[[0x7B, 0x0A, 0xC3], [0xA9, 0xC3]], none⟩ =
      .error (.io "stream did not contain valid UTF-8") ∧
    ∃ r, loadBytes [0x7B, 0x0A, 0xC3, 0xA9, 0xC3] = .error (.malformed r) ∧
      r.PointsBehind ['\x7b', '\n', 'é'] := by
  refine ⟨((loading_agrees rfl).1 _ (by decide)).2, ?_⟩
  have hnone : ∀ text, Utf8.encode text ≠ [0x7B, 0x0A, 0xC3, 0xA9, 0xC3] := by
    intro text htext
    have := Utf8.decode_encode text
    rw [htext] at this
    exact absurd (show some Utf8.Fault.incomplete = none from congrArg Prod.snd this) nofun
  have hchunks : ([[0x7B, 0x0A, 0xC3], [0xA9, 0xC3]] : List (List UInt8)).flatten =
      [0x7B, 0x0A, 0xC3, 0xA9, 0xC3] := rfl
  obtain ⟨hstream, valid, r, hbytes, hvalid, hlongest, hr⟩ := (loading_agrees hchunks).2.1 hnone
  have heq : valid = ['\x7b', '\n', 'é'] :=
    (Utf8.isPrefix_decode hvalid).eq_of_length_le (hlongest _ (by decide)).length_le
  exact ⟨hstream, r, hbytes, heq ▸ hr⟩

end Document

end QueryMarkup
