import QueryMarkup.Printer.Sink
import QueryMarkup.Proofs.Printing.RoundTrip
import QueryMarkup.Proofs.Printing.Repair

/-!
# Printing to sinks and into buffers

However a document is printed, it is printed as `Document.print` does. A sink gets the text as far
as it has room for it, and nothing of a document without a text. A printer that printed before goes
on behind what it printed; of a document with a double that is no finite number it keeps what any
repair of the document prints in front of that double.
-/

namespace QueryMarkup

variable {σ : Type}

/-- The sink takes what it is offered in pieces of whatever size, at least a byte at a time, until
it has no room left; then it fails, or takes nothing. `written` is what it took. -/
structure Sink.IsBounded (sink : Sink σ) (hasRoom : σ → Nat → Prop) (written : σ → List UInt8) :
    Prop where
  takes : ∀ state room bytes, hasRoom state room → 0 < room → bytes ≠ [] →
    ∃ taken state', sink.offer state bytes = (.ok taken, state') ∧ 0 < taken ∧ taken ≤ room ∧
      taken ≤ bytes.length ∧ hasRoom state' (room - taken) ∧
      written state' = written state ++ bytes.take taken
  full : ∀ state bytes, hasRoom state 0 → bytes ≠ [] →
    ∃ answer state', sink.offer state bytes = (answer, state') ∧
      (answer = .ok 0 ∨ ∃ message, answer = .error message) ∧ written state' = written state

namespace Sink

variable {sink : Sink σ} {hasRoom : σ → Nat → Prop} {written : σ → List UInt8}

/-- A bounded sink takes as much as it has room for, and fails if that is not all. -/
theorem IsBounded.writeAll (h : sink.IsBounded hasRoom written) {state : σ} {room : Nat}
    (hroom : hasRoom state room) (bytes : List UInt8) :
    written (sink.writeAll state bytes).2 = written state ++ bytes.take room ∧
      (bytes.length ≤ room → (sink.writeAll state bytes).1 = .ok ()) ∧
      (room < bytes.length → ∃ message, (sink.writeAll state bytes).1 = .error message) := by
  induction hn : bytes.length using Nat.strongRecOn generalizing state room bytes with
  | ind n ih =>
    subst hn
    cases bytes with
    | nil => simp [Sink.writeAll]
    | cons b bytes =>
      rw [Sink.writeAll]
      rcases Nat.eq_zero_or_pos room with rfl | hpos
      · obtain ⟨answer, state', hoffer, hanswer, hwritten⟩ :=
          h.full state (b :: bytes) hroom (List.cons_ne_nil _ _)
        rw [hoffer]
        rcases hanswer with rfl | ⟨message, rfl⟩
        · exact ⟨by simpa using hwritten, by simp, fun _ => ⟨_, rfl⟩⟩
        · exact ⟨by simpa using hwritten, by simp, fun _ => ⟨_, rfl⟩⟩
      · obtain ⟨taken, state', hoffer, htaken, hle, hlength, hroom', hwritten⟩ :=
          h.takes state room (b :: bytes) hroom hpos (List.cons_ne_nil _ _)
        obtain ⟨taken, rfl⟩ := Nat.exists_eq_add_of_lt htaken
        rw [Nat.zero_add] at hoffer hle hlength hroom' hwritten
        rw [hoffer]
        have hrest : (bytes.drop taken).length = (b :: bytes).length - (taken + 1) := by
          simp [Nat.add_sub_add_right]
        obtain ⟨hmore, hok, herror⟩ :=
          ih _ (by rw [hrest]; omega) hroom' (bytes.drop taken) rfl
        refine ⟨?_, fun hfits => hok (by omega), fun hover => herror (by omega)⟩
        rw [hmore, hwritten, List.append_assoc]
        have hsplit : (b :: bytes).take room =
            (b :: bytes).take (taken + 1) ++ ((b :: bytes).drop (taken + 1)).take
              (room - (taken + 1)) := by
          rw [← List.take_add, Nat.add_sub_cancel' hle]
        rw [hsplit, List.drop_succ_cons]

end Sink

namespace BoundedStore

theorem offer_of_room {s : BoundedStore} {room : Nat} (h : s.room = some (room + 1))
    (bytes : List UInt8) :
    sink.offer s bytes = (.ok (bytes.take (room + 1)).length,
      { s with
        room := some (room + 1 - (bytes.take (room + 1)).length)
        written := s.written ++ bytes.take (room + 1) }) := by
  show offer s bytes = _
  simp only [offer, h]

theorem isBounded : sink.IsBounded (fun s room => s.room = some room) written where
  takes state room bytes hroom hpos hne := by
    have hlength := List.length_pos_iff.2 hne
    obtain ⟨room, rfl⟩ := Nat.exists_eq_add_one.2 hpos
    have htake : bytes.take (bytes.take (room + 1)).length = bytes.take (room + 1) := by
      rw [List.length_take, ← List.take_eq_take_min]
    refine ⟨_, _, offer_of_room hroom bytes, ?_, List.length_take_le _ _, List.length_take_le' _ _,
      rfl, by rw [htake]⟩
    rw [List.length_take]
    omega
  full state bytes hroom _ := by
    cases hfailure : state.failure with
    | none =>
      refine ⟨.ok 0, state, ?_, .inl rfl, rfl⟩
      show offer state bytes = _
      simp only [offer, hroom, hfailure]
    | some message =>
      refine ⟨.error message, state, ?_, .inr ⟨message, rfl⟩, rfl⟩
      show offer state bytes = _
      simp only [offer, hroom, hfailure]

end BoundedStore

namespace Printer

/-- The printer behind some documents, whatever came of them. -/
def behind (p : Printer) (earlier : List Document) : Printer :=
  earlier.foldl (fun p d => (p.print d).2) p

theorem print_of_violation {d : Document} {v : Violation} (h : d.validate = .error v)
    (p : Printer) : p.print d = (.error (.violation v), p) := by
  simp only [print, h]

theorem print_of_nonFinite {d : Document} (hv : d.validate = .ok ()) {p : Printer}
    {text : List Char} {x : Binary64}
    (h : Piece.write (Layout.document p.indent d) = (text, some x)) :
    p.print d = (.error (.nonFinite x), { p with output := p.output ++ String.ofList text }) := by
  simp only [print, hv, h]

theorem indent_print (p : Printer) (d : Document) : (p.print d).2.indent = p.indent := by
  unfold print
  split
  · rfl
  · dsimp only
    split <;> rfl

theorem indent_behind (p : Printer) (earlier : List Document) :
    (p.behind earlier).indent = p.indent := by
  induction earlier generalizing p with
  | nil => rfl
  | cons d earlier ih => exact (ih _).trans (p.indent_print d)

end Printer

/-! ## Documents with doubles that are not finite -/

namespace Document

variable {d : Document} {o : PrintOptions}

/-- The document is printed, and `text` is what of it stands in front of the literal number `k`. -/
def PrintsBefore (d : Document) (o : PrintOptions) (k : Nat) (text : String) : Prop :=
  ∃ rest, d.print o = .ok (text ++ rest) ∧ ∃ front l back,
    Layout.document o.effectiveIndent d = front ++ .literal l :: back ∧
      (Piece.literals front).length = k ∧ Piece.write front = (text.toList, none)

theorem print_of_violation {v : Violation} (h : d.validate = .error v) (o : PrintOptions) :
    d.print o = .error (.violation v) := by
  rw [Document.print, Printer.print_of_violation h]

theorem print_of_nonFinite (hv : d.validate = .ok ()) {text : List Char} {x : Binary64}
    (h : Piece.write (Layout.document o.effectiveIndent d) = (text, some x)) :
    d.print o = .error (.nonFinite x) := by
  rw [Document.print, Printer.print_of_nonFinite hv (p := .new o) h]

theorem exists_write_of_print {s : String} (h : d.print o = .ok s) :
    d.validate = .ok () ∧ ∃ text, s = String.ofList text ∧
      Piece.write (Layout.document o.effectiveIndent d) = (text, none) := by
  obtain ⟨hv, hl⟩ := isPrintable_of_print h
  rw [← Layout.literals_document o.effectiveIndent] at hl
  rcases Piece.write_cases (Layout.document o.effectiveIndent d) with
    ⟨text, hwrite, -⟩ | ⟨front, x, back, -, hsplit, -, -, hx, -⟩
  · rw [Document.print_eq hv hwrite] at h
    exact ⟨hv, text, (Except.ok.inj h).symm, hwrite⟩
  · have hmem : Literal.float x ∈ Piece.literals (Layout.document o.effectiveIndent d) := by
      rw [hsplit, Piece.mem_literals]
      simp
    rw [hl _ hmem x rfl] at hx
    cases hx

/-- A valid document that is not printed has a first double without a text. -/
theorem exists_nonFinite_of_print {e : PrintError} (he : d.print o = .error e)
    (hv : d.validate = .ok ()) : ∃ front x back text, e = .nonFinite x ∧ x.isFinite = false ∧
      Layout.document o.effectiveIndent d = front ++ .literal (.float x) :: back ∧
      Piece.write (Layout.document o.effectiveIndent d) = (text, some x) ∧
      Piece.write front = (text, none) ∧ ∀ l ∈ Piece.literals front, l.IsWritable := by
  rcases Piece.write_cases (Layout.document o.effectiveIndent d) with
    ⟨text, hwrite, -⟩ | ⟨front, x, back, text, hsplit, hwrite, hfront, hx, hl⟩
  · rw [Document.print_eq hv hwrite] at he
    cases he
  · rw [print_of_nonFinite hv hwrite] at he
    exact ⟨front, x, back, text, (Except.error.inj he).symm, hx, hsplit, hwrite, hfront, hl⟩

/-- Whatever finite doubles are put in, the text in front of the first of them is the one that is
written of the document itself. -/
theorem Repaired.printsBefore {d' : Document} (h : d.Repaired d') (hv : d.validate = .ok ())
    {front back : List Piece} {l : Literal} {text : List Char}
    (hd : Layout.document o.effectiveIndent d = front ++ .literal l :: back)
    (hwrite : Piece.write front = (text, none)) (hl : ∀ l ∈ Piece.literals front, l.IsWritable) :
    d'.PrintsBefore o (Piece.literals front).length (String.ofList text) := by
  have hpieces := Layout.repaired_document o.effectiveIndent h
  have hwritable := hpieces.isWritable
  rw [hd] at hpieces
  obtain ⟨l', back', hd'⟩ := hpieces.exists_eq_append hl
  have hv' : d'.validate = .ok () := by rw [h.validate, hv]
  rcases Piece.write_cases (Layout.document o.effectiveIndent d') with
    ⟨all, hall, -⟩ | ⟨front', x, back', _, hsplit, -, -, hx, -⟩
  · have happend := Piece.write_append hwrite (.literal l' :: back')
    rw [← hd', hall] at happend
    obtain ⟨rfl, -⟩ := Prod.mk.inj happend
    refine ⟨String.ofList (Piece.write (.literal l' :: back')).1, ?_, front, l', back', hd', rfl,
      ?_⟩
    · rw [Document.print_eq hv' hall, String.ofList_append]
    · rw [String.toList_ofList, hwrite]
  · have hmem : Literal.float x ∈ Piece.literals (Layout.document o.effectiveIndent d') := by
      rw [hsplit, Piece.mem_literals]
      simp
    rw [hwritable _ hmem x rfl] at hx
    cases hx

/-- Printing a document into a sink or behind other documents comes to what printing it comes to. -/
theorem print_everywhere (d : Document) (o : PrintOptions) :
    (∀ {σ : Type} {sink : Sink σ} {hasRoom : σ → Nat → Prop} {written : σ → List UInt8},
      sink.IsBounded hasRoom written → ∀ state room, hasRoom state room →
        (∀ e, d.print o = .error e → sink.writeDocument state o d = (.error e.toError, state)) ∧
        ∀ s, d.print o = .ok s →
          written (sink.writeDocument state o d).2 =
            written state ++ (Utf8.encode s.toList).take room ∧
          ((sink.writeDocument state o d).1 = .ok () ↔ (Utf8.encode s.toList).length ≤ room) ∧
          (room < (Utf8.encode s.toList).length →
            ∃ message, (sink.writeDocument state o d).1 = .error (.io message))) ∧
    ∀ earlier : List Document,
      let p := (Printer.new o).behind earlier
      (∀ s, d.print o = .ok s → p.print d = (.ok (), { p with output := p.output ++ s })) ∧
      (∀ v, d.validate = .error v →
        d.print o = .error (.violation v) ∧ p.print d = (.error (.violation v), p)) ∧
      ∀ e, d.print o = .error e → d.validate = .ok () → ∃ x k text, e = .nonFinite x ∧
        d.literals[k]? = some (.float x) ∧ x.isFinite = false ∧
        (∀ l ∈ d.literals.take k, l.IsWritable) ∧
        p.print d = (.error e, { p with output := p.output ++ text }) ∧
        (∃ d', d.Repaired d') ∧ ∀ d', d.Repaired d' → d'.PrintsBefore o k text := by
  refine ⟨fun {σ sink hasRoom written} hsink state room hroom => ⟨fun e he => ?_, fun s hs => ?_⟩,
    fun earlier => ?_⟩
  · rw [Sink.writeDocument, he]
  · obtain ⟨hwritten, hok, herror⟩ := hsink.writeAll hroom (Utf8.encode s.toList)
    rw [Sink.writeDocument, hs]
    refine ⟨hwritten, ⟨fun h => Nat.le_of_not_lt fun hlt => ?_, fun h => ?_⟩, fun h => ?_⟩
    · obtain ⟨message, hm⟩ := herror hlt
      simp only [hm] at h
      cases h
    · simp only [hok h]
      rfl
    · obtain ⟨message, hm⟩ := herror h
      exact ⟨message, by simp only [hm]; rfl⟩
  · intro p
    have hindent : p.indent = o.effectiveIndent := (Printer.new o).indent_behind earlier
    refine ⟨fun s hs => ?_, fun v hv => ⟨print_of_violation hv o, Printer.print_of_violation hv p⟩,
      fun e he hv => ?_⟩
    · obtain ⟨hv, text, rfl, hwrite⟩ := exists_write_of_print hs
      rw [← hindent] at hwrite
      exact Printer.print_eq hv hwrite
    · obtain ⟨front, x, back, text, rfl, hx, hsplit, hwrite, hfront, hl⟩ :=
        exists_nonFinite_of_print he hv
      have hliterals : d.literals = Piece.literals front ++ .float x :: Piece.literals back := by
        rw [← Layout.literals_document o.effectiveIndent, hsplit, Piece.literals_append]
        rfl
      refine ⟨x, (Piece.literals front).length, String.ofList text, rfl, ?_, hx, ?_, ?_,
        ⟨_, d.repaired_repair⟩, fun d' h => h.printsBefore hv hsplit hfront hl⟩
      · rw [hliterals, List.getElem?_append_right (Nat.le_refl _), Nat.sub_self]
        rfl
      · rwa [hliterals, List.take_left]
      · rw [← hindent] at hwrite
        exact Printer.print_of_nonFinite hv hwrite

/-- A store without room for the text, and a printer that printed a document before one that has an
infinite double behind a finite one. -/
theorem print_everywhere_short : ∃ d infinite : Document,
    BoundedStore.sink.IsBounded (fun s room => s.room = some room) BoundedStore.written ∧
    d.print .compacted = .ok "\x7ba(0.0)\x7bb\x7d\x7d" ∧
    (∃ message store, store.written = Utf8.encode "\x7ba(0".toList ∧
      BoundedStore.sink.writeDocument ⟨some 4, some "full", []⟩ .compacted d =
        (.error (.io message), store)) ∧
    infinite.validate = .ok () ∧
    infinite.print .compacted = .error (.nonFinite (.infinity true)) ∧
    ∃ p k text, p = (Printer.new .compacted).behind [d, .empty] ∧
      infinite.literals[k]? = some (.float (.infinity true)) ∧
      p.print infinite =
        (.error (.nonFinite (.infinity true)), { p with output := p.output ++ text }) ∧
      ∀ d', infinite.Repaired d' → d'.PrintsBefore .compacted k text := by
  let named (name : String) (x : Binary64) : Selection :=
    (Selection.withParams (.named name) (.literal (.float x))).withField "b"
  let d : Document := .withSelection .empty (named "a" (.zero false))
  let infinite : Document := d.withSelection (named "c" (.infinity true))
  have hd : d.print .compacted = .ok "\x7ba(0.0)\x7bb\x7d\x7d" := by decide +kernel
  have hvalid : infinite.validate = .ok () := by decide +kernel
  have hinfinite : infinite.print .compacted = .error (.nonFinite (.infinity true)) := by
    decide +kernel
  refine ⟨d, infinite, BoundedStore.isBounded, hd, ?_, hvalid, hinfinite, ?_⟩
  · obtain ⟨hwritten, -, herror⟩ := ((print_everywhere d .compacted).1 BoundedStore.isBounded
      ⟨some 4, some "full", []⟩ 4 rfl).2 _ hd
    obtain ⟨message, hmessage⟩ := herror (by decide)
    exact ⟨message, _, hwritten, Prod.ext hmessage rfl⟩
  · obtain ⟨x, k, text, hx, hk, -, -, hprint, -, hbefore⟩ :=
      ((print_everywhere infinite .compacted).2 [d, .empty]).2.2 _ hinfinite hvalid
    obtain rfl := PrintError.nonFinite.inj hx
    exact ⟨_, k, text, rfl, hk, hprint, hbefore⟩

end Document

end QueryMarkup
