import QueryMarkup.Proofs.Offsets.Agreement

/-!
# The machine only moves forward

Nothing that the machine does takes it back, whatever comes of it. `Run.Moves` says for which values
it is further on than it was: where a sign was eaten, behind each round of a loop that goes on, and
behind everything that a rule has read.
-/

namespace QueryMarkup.Checked

variable {α β σ : Type}

namespace Run

/-- However the run ends, it is not in front of where it started; with a value of the kind it is
further on. -/
structure Moves (kind : α → Prop) (r : Run α) (m : Machine) : Prop where
  forward : ∀ result m', r m = some (result, m') → m.position.offset ≤ m'.position.offset
  further : ∀ a m', r m = some (.ok a, m') → kind a → m.position.offset < m'.position.offset

/-- The run never ends in front of where it started. -/
def Forward (r : Run α) : Prop := ∀ m, r.Moves (fun _ => False) m

/-- The run moves forward, and whatever it reads is further on. -/
def Advances (r : Run α) : Prop := ∀ m, r.Moves (fun _ => True) m

/-! ## Operations -/

section
variable {kind kind' : α → Prop} {r : Run α} {m : Machine}

theorem Moves.mono (h : r.Moves kind m) (hk : ∀ a, kind' a → kind a) : r.Moves kind' m :=
  ⟨h.forward, fun a m' hr ha => h.further a m' hr (hk a ha)⟩

theorem Moves.bind {k : α → Run β} {kind' : β → Prop} (hr : r.Moves kind m)
    (hk : ∀ a m', r m = some (.ok a, m') → (k a).Moves (fun b => kind' b ∧ ¬kind a) m') :
    (r >>= k).Moves kind' m := by
  cases hm : r m with
  | none =>
    have hbind : (r >>= k) m = none := by simp only [Bind.bind, hm]
    constructor <;> (intro _ _ h; rw [hbind] at h; cases h)
  | some result =>
    obtain ⟨e | a, m₁⟩ := result
    · have hbind : (r >>= k) m = some (.error e, m₁) := run_bind_of_error hm
      constructor
      · intro result m' h
        rw [hbind] at h
        obtain ⟨-, rfl⟩ := Prod.mk.inj (Option.some.inj h)
        exact hr.forward _ _ hm
      · intro b m' h
        rw [hbind] at h
        cases h
    · have hbind : (r >>= k) m = k a m₁ := run_bind_of_ok hm
      have hfirst := hr.forward _ _ hm
      have hsecond := hk a m₁ hm
      constructor
      · intro result m' h
        rw [hbind] at h
        exact Nat.le_trans hfirst (hsecond.forward _ _ h)
      · intro b m' h hb
        rw [hbind] at h
        by_cases ha : kind a
        · exact Nat.lt_of_lt_of_le (hr.further _ _ hm ha) (hsecond.forward _ _ h)
        · exact Nat.lt_of_le_of_lt hfirst (hsecond.further _ _ h ⟨hb, ha⟩)

/-- What moves on does so whatever comes behind it. -/
theorem Moves.andThen {k : α → Run β} {kind' : β → Prop} (hr : r.Moves (fun _ => True) m)
    (hk : ∀ a, (k a).Forward) : (r >>= k).Moves kind' m :=
  hr.bind fun a m' _ => (hk a m').mono fun _ h => h.2 trivial

theorem Moves.ite {b : Prop} [Decidable b] {r' : Run α} (h : b → r.Moves kind m)
    (h' : ¬b → r'.Moves kind m) : (if b then r else r').Moves kind m := by
  split
  · exact h ‹_›
  · exact h' ‹_›

/-- A run that stays where it is has none of the values. -/
theorem Moves.of_stays (hr : ∀ result m', r m = some (result, m') → m'.position = m.position)
    (hkind : ∀ a m', r m = some (.ok a, m') → ¬kind a) : r.Moves kind m :=
  ⟨fun result m' h => (congrArg Position.offset (hr result m' h)).ge,
    fun a m' h ha => (hkind a m' h ha).elim⟩

theorem Advances.forward (h : r.Advances) : r.Forward := fun m => (h m).mono fun _ => False.elim

theorem Forward.bind {k : α → Run β} (hr : r.Forward) (hk : ∀ a, (k a).Forward) :
    (r >>= k).Forward :=
  fun m => (hr m).bind fun a m' _ => (hk a m').mono fun _ h => h.1

theorem Advances.bind {k : α → Run β} (hr : r.Advances) (hk : ∀ a, (k a).Forward) :
    (r >>= k).Advances :=
  fun m => (hr m).andThen hk

/-- What moves on does so whatever came in front of it. -/
theorem Forward.andThen {k : α → Run β} (hr : r.Forward) (hk : ∀ a, (k a).Advances) :
    (r >>= k).Advances :=
  fun m => (hr m).bind fun a m' _ => (hk a m').mono fun _ _ => trivial

theorem Forward.of_stays
    (hr : ∀ m result m', r m = some (result, m') → m'.position = m.position) : r.Forward :=
  fun m => .of_stays (hr m) fun _ _ _ => id

theorem Forward.ite {b : Prop} [Decidable b] {r' : Run α} (h : r.Forward) (h' : r'.Forward) :
    (if b then r else r').Forward :=
  fun m => .ite (fun _ => h m) fun _ => h' m

theorem Advances.ite {b : Prop} [Decidable b] {r' : Run α} (h : r.Advances) (h' : r'.Advances) :
    (if b then r else r').Advances :=
  fun m => .ite (fun _ => h m) fun _ => h' m

end

theorem moves_pure {kind : α → Prop} {a : α} (h : ¬kind a) (m : Machine) :
    Moves kind (pure a) m := by
  refine .of_stays (fun result m' hr => ?_) fun b m' hr => ?_
  · obtain ⟨-, rfl⟩ := Prod.mk.inj (Option.some.inj hr)
    rfl
  · obtain ⟨hb, -⟩ := Prod.mk.inj (Option.some.inj hr)
    exact Except.ok.inj hb ▸ h

theorem forward_pure (a : α) : Forward (pure a) := moves_pure id

theorem moves_breakOff (kind : α → Prop) (m : Machine) : Moves kind (breakOff : Run α) m := by
  constructor <;> (intro _ _ h; cases h)

theorem forward_ofOption (o : Option α) : Forward (ofOption o) := by
  cases o with
  | none => exact moves_breakOff _
  | some a => exact forward_pure a

theorem forward_place : Forward place := by
  refine .of_stays fun m result m' hr => ?_
  obtain ⟨-, rfl⟩ := Prod.mk.inj (Option.some.inj hr)
  rfl

/-- A failure has no value at all. -/
theorem moves_fail (kind : α → Prop) (report : Report) (m : Machine) :
    Moves kind (fail report) m := by
  refine .of_stays (fun result m' hr => ?_) fun _ _ hr => ?_
  · obtain ⟨-, rfl⟩ := Prod.mk.inj (Option.some.inj hr)
    rfl
  · cases hr

theorem forward_probe (r : Run Bool) : Forward (probe r) := by
  refine .of_stays fun m result m' hr => ?_
  obtain ⟨⟨e | b, _⟩, -, h⟩ := Option.map_eq_some_iff.1 hr <;>
    exact (congrArg (fun r => r.2.position) h).symm

theorem forward_enter : Forward enter := by
  refine .of_stays fun m result m' hr => ?_
  unfold enter at hr
  split at hr
  · obtain ⟨-, rfl⟩ := Prod.mk.inj (Option.some.inj hr)
    rfl
  · cases hr

theorem forward_leave : Forward leave := by
  refine .of_stays fun m result m' hr => ?_
  unfold leave at hr
  split at hr
  · obtain ⟨-, rfl⟩ := Prod.mk.inj (Option.some.inj hr)
    rfl
  · cases hr

theorem advances_pass (c : Char) : Advances (pass c) := by
  intro m
  have hpass : ∀ result m', pass c m = some (result, m') →
      m.position.offset < m'.position.offset := by
    intro result m' hr
    obtain ⟨-, rfl⟩ := Prod.mk.inj (Option.some.inj hr)
    rw [Position.offset_after]
    exact Nat.lt_add_of_pos_right c.utf8Size_pos
  exact ⟨fun result m' hr => Nat.le_of_lt (hpass result m' hr), fun a m' hr _ => hpass _ m' hr⟩

/-! ## Characters and loops -/

section
variable (text : List Char)

theorem forward_slice (start stop : Nat) : Forward (slice text start stop) := forward_ofOption _

theorem forward_since (mark : Position) : Forward (since text mark) :=
  forward_place.bind fun _ => forward_slice text _ _

theorem forward_peek : Forward (peek text) :=
  forward_place.bind fun _ => (forward_slice text _ _).bind fun _ => forward_pure _

theorem stays_of_peek {m m' : Machine} {found : Option Char}
    (h : peek text m = some (.ok found, m')) : m' = m := by
  have hplace : peek text m = (do
      return (← slice text m.position.offset (byteSize text)).head? : Run (Option Char)) m := rfl
  rw [hplace, slice] at h
  cases hs : slice? text m.position.offset (byteSize text) with
  | none =>
    rw [hs] at h
    cases h
  | some rest =>
    rw [hs] at h
    exact (Prod.mk.inj (Option.some.inj h)).2.symm

/-- A character that is looked at is still there. -/
theorem Moves.peek {k : Option Char → Run α} {kind : α → Prop} {m : Machine}
    (h : ∀ found, peek text m = some (.ok found, m) → (k found).Moves kind m) :
    (peek text >>= k).Moves kind m := by
  refine (forward_peek text m).bind fun found m' hm => ?_
  obtain rfl := stays_of_peek text hm
  exact (h found hm).mono fun _ h => h.1

theorem moves_next (m : Machine) : Moves (fun found => found.isSome) (next text) m := by
  refine .peek text fun found _ => ?_
  cases found with
  | none => exact moves_pure (by simp) m
  | some c => exact (advances_pass c m).andThen fun _ => forward_pure _

theorem forward_next : Forward (next text) := fun m => (moves_next text m).mono fun _ => False.elim

theorem moves_next_of_peek {m : Machine} {c : Char} (h : peek text m = some (.ok (some c), m)) :
    Moves (fun _ => True) (next text) m := by
  have hnext : next text m = (pass c >>= fun _ => pure (some c) : Run (Option Char)) m :=
    run_bind_of_ok h
  have hpass : Moves (fun _ => True) (pass c >>= fun _ => pure (some c)) m :=
    (advances_pass c m).andThen fun _ => forward_pure _
  exact ⟨fun result m' hr => hpass.forward result m' (hnext ▸ hr),
    fun a m' hr => hpass.further a m' (hnext ▸ hr)⟩

end

/-- The loop repeats the step, so often as its bound tells, and where a step does not end it the
machine has moved on. -/
structure MovesOn (text : List Char) (loop : Run α) (step : σ → Run (σ ⊕ α)) (s : σ) : Prop where
  eq : loop = repeatedly text step s
  step : ∀ s m, (step s).Moves (fun result => result.isLeft) m

theorem moves_loop {step : σ → Run (σ ⊕ α)} {kind : α → Prop}
    (hstep : ∀ s m, (step s).Moves (Sum.elim (fun _ => False) kind) m) (bound : Nat) (s : σ)
    (m : Machine) : (loop step bound s).Moves kind m := by
  induction bound generalizing s m with
  | zero => exact moves_breakOff kind m
  | succ bound ih =>
    refine (hstep s m).bind fun result m' _ => ?_
    cases result with
    | inl s' => exact (ih s' m').mono fun _ h => h.1
    | inr a => exact moves_pure (fun h => h.2 h.1) m'

theorem forward_loop {step : σ → Run (σ ⊕ α)} (hstep : ∀ s, (step s).Forward) (bound : Nat)
    (s : σ) : (loop step bound s).Forward :=
  moves_loop (fun s m => (hstep s m).mono fun result h => by cases result <;> exact h) bound s

section
variable (text : List Char)

/-- One round of skipping characters of a class. -/
def skipStep (belongs : Char → Bool) (_ : Unit) : Run (Unit ⊕ Unit) := do
  match ← peek text with
  | some c =>
    if belongs c then
      let _ ← next text
      return .inl ()
    else return .inr ()
  | none => return .inr ()

/-- One round of passing over a string. -/
def stringStep (quote : Char) (_ : Unit) : Run (Unit ⊕ Bool) := do
  match ← next text with
  | some c =>
    if c = quote then return .inr true
    else if c = '\\' then
      match ← next text with
      | some d => if Quoted.isLineBreak d then return .inr false else return .inl ()
      | none => return .inr false
    else if Quoted.isLineBreak c then return .inr false
    else return .inl ()
  | none => return .inr false

/-- One round of reading items behind signs. -/
def eachStep (sign : Char) (item : Run α) (before : List α) : Run (List α ⊕ List α) := do
  if ← eat text sign then return .inl (before ++ [← item]) else return .inr before

theorem skipStep_moves (belongs : Char → Bool) (m : Machine) :
    (skipStep text belongs ()).Moves (fun result => result.isLeft) m := by
  refine .peek text fun found hfound => ?_
  cases found with
  | none => exact moves_pure (by simp) m
  | some c =>
    exact .ite (fun _ => (moves_next_of_peek text hfound).andThen fun _ => forward_pure _)
      fun _ => moves_pure (by simp) m

theorem skipWhile_movesOn (belongs : Char → Bool) :
    MovesOn text (skipWhile text belongs) (skipStep text belongs) () where
  eq := rfl
  step _ := skipStep_moves text belongs

theorem forward_skipStep (belongs : Char → Bool) (s : Unit) : Forward (skipStep text belongs s) :=
  fun m => (skipStep_moves text belongs m).mono fun _ => False.elim

theorem forward_skipWhile (belongs : Char → Bool) : Forward (skipWhile text belongs) :=
  forward_loop (forward_skipStep text belongs) _ _

/-- Characters are skipped if the next one belongs to them. -/
theorem skipWhile_moves_of_peek {belongs : Char → Bool} {c : Char} (hc : belongs c = true)
    {m : Machine} (h : peek text m = some (.ok (some c), m)) :
    (skipWhile text belongs).Moves (fun _ => True) m := by
  have hstep : (skipStep text belongs ()).Moves (fun _ => True) m := by
    refine .peek text fun found hfound => ?_
    obtain rfl : some c = found :=
      Except.ok.inj (Prod.mk.inj (Option.some.inj (h.symm.trans hfound))).1
    exact .ite (fun _ => (moves_next_of_peek text h).andThen fun _ => forward_pure _)
      fun hnot => absurd hc hnot
  refine hstep.andThen fun result => ?_
  cases result with
  | inl s => exact forward_loop (forward_skipStep text belongs) _ s
  | inr a => exact forward_pure a

/-! ## Signs, names and literals -/

theorem moves_failAt (kind : α → Prop) (mark : Position) (cause : Cause) (m : Machine) :
    Moves kind (failAt text mark cause) m :=
  (forward_ofOption _ m).bind fun _ m' _ => moves_fail _ _ m'

theorem moves_unexpected (kind : α → Prop) (what : Expected) (m : Machine) :
    Moves kind (unexpected text what) m :=
  .peek text fun _ _ => (forward_place m).bind fun _ m' _ => moves_failAt text _ _ _ m'

theorem forward_peekSign : Forward (peekSign text) :=
  (forward_skipWhile text _).bind fun _ => forward_peek text

/-- The sign behind the blanks is still there. -/
theorem peek_of_peekSign {m m' : Machine} {found : Option Char}
    (h : peekSign text m = some (.ok found, m')) : peek text m' = some (.ok found, m') := by
  cases hm : skipWhile text Parse.isBlank m with
  | none =>
    have hnone : peekSign text m = none := by simp only [peekSign, Bind.bind, hm]
    rw [hnone] at h
    cases h
  | some result =>
    obtain ⟨e | u, m₁⟩ := result
    · rw [peekSign, run_bind_of_error hm] at h
      cases h
    · rw [peekSign, run_bind_of_ok hm] at h
      obtain rfl := stays_of_peek text h
      exact h

theorem eat_moves (sign : Char) (m : Machine) :
    Moves (fun found => found = true) (eat text sign) m := by
  refine (forward_peekSign text m).bind fun found m' hfound => ?_
  refine .ite (fun hsign => ?_) fun _ => moves_pure (by simp) m'
  have hpeek : peek text m' = some (.ok (some sign), m') := hsign ▸ peek_of_peekSign text hfound
  exact (moves_next_of_peek text hpeek).andThen fun _ => forward_pure _

theorem advances_expect (sign : Char) (what : Expected) : Advances (expect text sign what) :=
  fun m => (eat_moves text sign m).bind fun _ m' _ => .ite
    (fun hfound => moves_pure (fun h => h.2 hfound) m') fun _ => moves_unexpected text _ what m'

theorem forward_finish : Forward (finish text) :=
  (forward_skipWhile text _).bind fun _ => forward_place.bind fun _ =>
    .ite (forward_pure _) (moves_unexpected text _ _)

theorem advances_identifier : Advances (identifier text) := by
  refine (forward_skipWhile text _).andThen fun _ => forward_place.andThen fun mark m => ?_
  refine .peek text fun found hfound => ?_
  cases found with
  | none => exact moves_unexpected text _ _ m
  | some c =>
    refine .ite (fun _ => ?_) fun _ => moves_unexpected text _ _ m
    exact (moves_next_of_peek text hfound).andThen fun _ => (forward_skipWhile text _).bind
      fun _ => (forward_since text mark).bind fun _ => forward_pure _

theorem advances_digits : Advances (digits text) := by
  refine fun m => .peek text fun found hfound => .ite (fun hdigit => ?_) fun _ =>
    moves_unexpected text _ _ m
  cases found with
  | none => cases hdigit
  | some c => exact skipWhile_moves_of_peek text hdigit hfound

theorem advances_numeral : Advances (numeral text) := by
  have hunsigned : Advances (do
      digits text
      if (← peek text) = some '.' then
        let _ ← next text
        digits text) := by
    refine (advances_digits text).bind fun _ => (forward_peek text).bind fun _ => .ite ?_ ?_
    · exact (forward_next text).bind fun _ => (advances_digits text).forward
    · exact forward_pure _
  refine (forward_peek text).andThen fun _ => .ite ?_ hunsigned
  exact (forward_next text).andThen fun _ => hunsigned

theorem stringStep_moves (quote : Char) (m : Machine) :
    (stringStep text quote ()).Moves
      (Sum.elim (fun _ => True) (fun closed => closed = true)) m := by
  refine (moves_next text m).bind fun found m' _ => ?_
  cases found with
  | none => exact moves_pure (by simp) m'
  | some c =>
    refine (show Moves (fun _ => False) _ m' from ?_).mono fun _ h => h.2 rfl
    refine .ite (fun _ => forward_pure _ m') fun _ => .ite (fun _ => ?_) fun _ =>
      .ite (fun _ => forward_pure _ m') fun _ => forward_pure _ m'
    refine (forward_next text m').bind fun found m'' _ => ?_
    cases found with
    | none => exact moves_pure (by simp) m''
    | some d => exact .ite (fun _ => moves_pure (by simp) m'') fun _ => moves_pure (by simp) m''

theorem stringBody_movesOn (quote : Char) :
    MovesOn text (stringBody text quote) (stringStep text quote) () where
  eq := rfl
  step _ m := (stringStep_moves text quote m).mono fun result h => by
    cases result with
    | inl s => trivial
    | inr closed => cases h

theorem stringBody_moves (quote : Char) (m : Machine) :
    Moves (fun closed => closed = true) (stringBody text quote) m :=
  moves_loop (fun _ m => (stringStep_moves text quote m).mono fun result h => by
    cases result with
    | inl s => trivial
    | inr closed => exact h) _ _ m

/-- A string that is closed has a quote behind its first one. -/
theorem advances_string (quote : Char) (mark : Position) : Advances (string text quote mark) :=
  (forward_next text).andThen fun _ m => (stringBody_moves text quote m).bind fun _ m' _ =>
    .ite (fun hclosed => moves_pure (fun h => h.2 hclosed) m') fun _ => moves_failAt text _ _ _ m'

theorem advances_token (mark : Position) : Advances (token text mark) := by
  refine fun m => .peek text fun found hfound => ?_
  cases found with
  | none => exact moves_unexpected text _ _ m
  | some c =>
    refine .ite (fun _ => ?_) fun _ => .ite (fun _ => ?_) fun _ => .ite (fun hstart => ?_) fun _ =>
      moves_unexpected text _ _ m
    · exact (advances_string text c mark m).andThen fun _ => forward_pure _
    · exact (advances_numeral text m).andThen fun _ => forward_pure _
    · have hpart := Identifier.isPart_of_isStart hstart
      exact (skipWhile_moves_of_peek text hpart hfound).andThen fun _ => forward_pure _

theorem advances_literal : Advances (literal text) := by
  refine (forward_skipWhile text _).andThen fun _ => forward_place.andThen fun mark => ?_
  refine (advances_token text mark).bind fun kind => (forward_since text mark).bind fun token =>
    (forward_ofOption _).bind fun result => ?_
  cases result with
  | ok l => exact forward_pure l
  | error cause => exact moves_failAt text _ mark cause

/-! ## Rules -/

theorem eachStep_moves (sign : Char) {item : Run α} (hi : item.Forward) (before : List α)
    (m : Machine) : (eachStep text sign item before).Moves (fun result => result.isLeft) m := by
  refine (eat_moves text sign m).bind fun found m' _ => .ite (fun hfound => ?_) fun _ => ?_
  · exact (hi.bind fun _ => forward_pure _) m' |>.mono fun _ h => h.2 hfound
  · exact moves_pure (by simp) m'

theorem eachAfter_movesOn (sign : Char) {item : Run α} (hi : item.Forward) (before : List α) :
    MovesOn text (eachAfter text sign item before) (eachStep text sign item) before where
  eq := rfl
  step := eachStep_moves text sign hi

theorem forward_eachAfter (sign : Char) {item : Run α} (hi : item.Forward) (before : List α) :
    Forward (eachAfter text sign item before) :=
  forward_loop (fun before m => (eachStep_moves text sign hi before m).mono fun _ => False.elim) _ _

theorem advances_commaSeparated {item : Run α} (hi : item.Advances) :
    Advances (commaSeparated text item) :=
  hi.bind fun _ => forward_eachAfter text _ hi.forward _

theorem advances_pair : Advances (pair text) :=
  (advances_identifier text).bind fun _ => (advances_expect text _ _).forward.bind fun _ =>
    (advances_literal text).forward.bind fun _ => forward_pure _

theorem advances_someArguments : Advances (someArguments text) :=
  (forward_probe _).andThen fun _ => .ite
    ((advances_commaSeparated text (advances_pair text)).bind fun _ => forward_pure _)
    ((advances_literal text).bind fun _ => forward_pure _)

/-- An argument list that is empty still has a parenthesis that closes. -/
theorem advances_arguments : Advances (arguments text) :=
  fun m => (eat_moves text ')' m).bind fun _ m' _ => .ite
    (fun hclosed => moves_pure (fun h => h.2 hclosed) m') fun _ =>
      (advances_someArguments text m').andThen fun _ =>
        (advances_expect text _ _).forward.bind fun _ => forward_pure _

theorem advances_filter : Advances (filter text) :=
  (advances_identifier text).bind fun _ => (advances_expect text _ _).forward.bind fun _ =>
    (advances_arguments text).forward.bind fun _ => forward_pure _

theorem forward_headerAfter (name : String) : Forward (headerAfter text name) := by
  have hparams : Forward (params text) := fun m => (eat_moves text '(' m).bind fun _ m' _ =>
    (Forward.ite ((advances_arguments text).forward.bind fun _ => forward_pure _)
      (forward_pure _) m').mono fun _ h => h.1
  exact hparams.bind fun _ => (forward_eachAfter text _ (advances_filter text).forward _).bind
    fun _ => forward_pure _

theorem advances_property {after : String → Run Selection} (ha : ∀ name, (after name).Forward) :
    Advances (property text after) :=
  (advances_identifier text).bind fun name => (forward_peekSign text).bind fun _ =>
    .ite ((ha name).bind fun _ => forward_pure _) (forward_pure _)

section
variable (limit : Nat)

theorem forward_selectionAfter : (calls : Nat) → (name : String) →
    Forward (selectionAfter text limit calls name)
  | 0, _ => moves_breakOff _
  | calls + 1, name => by
    have hproperty := advances_property text (forward_selectionAfter calls)
    refine forward_enter.bind fun opened => .ite ?_ (Forward.bind ?_ fun _ =>
      forward_leave.bind fun _ => forward_pure _)
    · exact forward_place.bind fun _ => moves_failAt text _ _ _
    · exact (forward_headerAfter text name).bind fun _ => (advances_expect text _ _).forward.bind
        fun _ => (advances_commaSeparated text hproperty).forward.bind fun _ =>
          (advances_expect text _ _).forward.bind fun _ => forward_pure _

theorem advances_object : Advances (object text limit) :=
  (advances_identifier text).bind fun name => forward_selectionAfter text limit _ name

theorem advances_document : Advances (document text limit) :=
  (advances_expect text _ _).bind fun _ =>
    (advances_commaSeparated text (advances_object text limit)).forward.bind fun _ =>
      (advances_expect text _ _).forward.bind fun _ => (forward_finish text).bind fun _ =>
        forward_pure _

end

end

end Run

end QueryMarkup.Checked
