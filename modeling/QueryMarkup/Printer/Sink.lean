import QueryMarkup.Printer.Print
import QueryMarkup.Text.Utf8

/-!
# Writing to sinks

A sink takes some of the bytes it is offered, or fails. Bytes are offered until all are taken; a
sink that takes none of them has failed as well.
-/

namespace QueryMarkup

/-- A way to offer bytes to a state: how many are taken, or a failure, and the state afterwards. -/
structure Sink (σ : Type) where
  offer : σ → List UInt8 → Except String Nat × σ

namespace Sink

variable {σ : Type}

def writeAll (sink : Sink σ) (state : σ) : List UInt8 → Except String Unit × σ
  | [] => (.ok (), state)
  | b :: bytes =>
    match sink.offer state (b :: bytes) with
    | (.error message, state) => (.error message, state)
    | (.ok 0, state) => (.error "failed to write whole buffer", state)
    | (.ok (taken + 1), state) => writeAll sink state (bytes.drop taken)
termination_by bytes => bytes.length
decreasing_by
  simp only [List.length_drop, List.length_cons]
  omega

/-- Prints a document and writes the text. Nothing is written of a document without a text. -/
def writeDocument (sink : Sink σ) (state : σ) (options : PrintOptions) (d : Document) :
    Except Error Unit × σ :=
  match d.print options with
  | .error e => (.error e.toError, state)
  | .ok text =>
    let (result, state) := sink.writeAll state (Utf8.encode text.toList)
    (result.mapError Error.io, state)

end Sink

/-- A store for bytes with limited room, or none if there is no limit. Once it is full it fails with
its message, or takes nothing if it has none. -/
structure BoundedStore where
  room : Option Nat
  failure : Option String
  written : List UInt8

namespace BoundedStore

def offer (s : BoundedStore) (bytes : List UInt8) : Except String Nat × BoundedStore :=
  match s.room with
  | none => (.ok bytes.length, { s with written := s.written ++ bytes })
  | some 0 =>
    match s.failure with
    | some message => (.error message, s)
    | none => (.ok 0, s)
  | some room =>
    let taken := bytes.take room
    (.ok taken.length,
      { s with room := some (room - taken.length), written := s.written ++ taken })

def sink : Sink BoundedStore := ⟨offer⟩

end BoundedStore

end QueryMarkup
