import QueryMarkup.Proofs.Reading.Congruence

/-!
# What the limit of nesting decides

A document is read with a limit, which is only quoted where a selection is refused, and with room for
so many selections in each other, which decides where one is. Readings that differ in the limit are
the same but for what they quote. With more room a reading that was not refused stays the same, and
one that was refused gets beyond the place where that happened.
-/

namespace QueryMarkup

variable {α β : Type}

/-- The cause with another limit in place of the one it quotes. -/
def Cause.quoting (limit : Nat) : Cause → Cause
  | .tooDeep _ => .tooDeep limit
  | cause => cause

def Failure.quoting (limit : Nat) (f : Failure) : Failure :=
  { f with cause := f.cause.quoting limit }

def Outcome.quoting (limit : Nat) (o : Outcome α) : Outcome α :=
  ⟨o.trace, o.result.mapError (Failure.quoting limit)⟩

theorem Failure.quoting_of_not_isRefusal {f : Failure} (h : ¬ f.IsRefusal) (limit : Nat) :
    f.quoting limit = f := by
  obtain ⟨cause, mark, stop, opened⟩ := f
  cases cause with
  | tooDeep limit => exact (h ⟨limit, rfl⟩).elim
  | _ => rfl

theorem Outcome.quoting_of_not_isRefusal {o : Outcome α}
    (h : ∀ f, o.result = .error f → ¬ f.IsRefusal) (limit : Nat) : o.quoting limit = o := by
  obtain ⟨trace, f | r⟩ := o
  · rw [quoting, Except.mapError, Failure.quoting_of_not_isRefusal (h f rfl)]
  · rfl

theorem Outcome.quoting_andThen (limit : Nat) (o : Outcome α) (next : α → Cursor → Outcome β) :
    (o.andThen next).quoting limit =
      (o.quoting limit).andThen fun a d => (next a d).quoting limit := by
  obtain ⟨trace, f | ⟨a, d⟩⟩ := o <;> rfl

namespace Parse

theorem run_inside (p : Parse α) (c : Cursor) :
    (inside p).run c = ⟨(p.run c).trace,
      (p.run c).result.mapError fun f => { f with opened := f.opened + 1 }⟩ := rfl

section
variable {limit : Nat}

theorem quoting_bind {p p' : Parse α} {next next' : α → Parse β}
    (hp : Related (fun o o' => o = o'.quoting limit) p p')
    (hn : ∀ a, Related (fun o o' => o = o'.quoting limit) (next a) (next' a)) :
    Related (fun o o' => o = o'.quoting limit) (p >>= next) (p' >>= next') := by
  intro c
  have hnext : (fun a => (next a).run) = fun a d => ((next' a).run d).quoting limit :=
    funext fun a => funext (hn a)
  rw [run_bind, run_bind, Outcome.quoting_andThen, hp c, hnext]

theorem quoting_traced {p p' : Parse α} (rule : Rule)
    (hp : Related (fun o o' => o = o'.quoting limit) p p') :
    Related (fun o o' => o = o'.quoting limit) (traced rule p) (traced rule p') :=
  quoting_bind (fun _ => rfl) fun _ => quoting_bind hp fun _ =>
    quoting_bind (fun _ => rfl) fun _ _ => rfl

theorem quoting_inside {p p' : Parse α} (hp : Related (fun o o' => o = o'.quoting limit) p p') :
    Related (fun o o' => o = o'.quoting limit) (inside p) (inside p') := by
  intro c
  have h : p.run c = (p'.run c).quoting limit := hp c
  rw [run_inside, run_inside, h]
  generalize p'.run c = o
  obtain ⟨trace, f | r⟩ := o <;> rfl

variable (limit)

theorem congruence_quoting : Congruence fun {α} (o o' : Outcome α) => o = o'.quoting limit where
  flat hp c := (Outcome.quoting_of_not_isRefusal (fun f hr => (hp.failure c f hr).2) limit).symm
  bind := quoting_bind
  traced _ hp := quoting_traced _ hp

variable (limit' : Nat)

theorem quoting_selectionAfter : (room : Nat) → (name : String) →
    Related (fun o o' => o = o'.quoting limit) (selectionAfter limit room name)
      (selectionAfter limit' room name)
  | 0, _ => quoting_traced .object (quoting_inside fun _ => rfl)
  | room + 1, name =>
    (congruence_quoting limit).selectionAfter_succ (quoting_selectionAfter room)
      (fun h => quoting_traced .object (quoting_inside h)) name

/-- The limit makes no difference but for being quoted. -/
theorem quoting_document (room : Nat) (c : Cursor) :
    (document limit room).run c = ((document limit' room).run c).quoting limit :=
  (congruence_quoting limit).document (quoting_selectionAfter limit limit' room) c

end

/-- A refusal quotes the limit of the reading. -/
theorem cause_of_isRefusal {limit room : Nat} {c : Cursor} {f : Failure}
    (hf : ((document limit room).run c).result = .error f) (h : f.IsRefusal) :
    f.cause = .tooDeep limit := by
  obtain ⟨other, hcause⟩ := h
  have hquoting := quoting_document limit limit room c
  have hr := congrArg Outcome.result hquoting
  rw [Outcome.quoting, hf] at hr
  have hsame : f.cause = f.cause.quoting limit :=
    congrArg Failure.cause (Except.error.inj hr)
  rw [hsame, hcause]
  rfl

end Parse

namespace Parse

theorem length_lt_of_expect {sign : Char} {what : Expected} {c d : Cursor} {u : Unit}
    (h : ((expect sign what).run c).result = .ok (u, d)) : d.rest.length < c.rest.length := by
  obtain ⟨found, e, he, hr⟩ := result_bind_eq_ok h
  cases found with
  | false =>
    rw [if_neg (by decide), result_expected] at hr
    cases hr
  | true =>
    obtain ⟨-, rfl⟩ := Prod.mk.inj (Except.ok.inj hr)
    exact length_lt_of_eat he

/-- No selection is refused by the reading. -/
def NeverRefuses (p : Parse α) : Prop := ∀ c f, (p.run c).result = .error f → ¬ f.IsRefusal

theorem congruence_notRefusal :
    Congruence fun {α} (o _ : Outcome α) => ∀ f, o.result = .error f → ¬ f.IsRefusal where
  flat hp c f hr := (hp.failure c f hr).2
  bind hp hn c f hr := by
    rcases result_bind_eq_error hr with hf | ⟨a, d, -, hf⟩
    · exact hp c f hf
    · exact hn a d f hf
  traced hrule hp c f hr := hp c f (by rwa [result_traced] at hr)

theorem neverRefuses_headerAfter (name : String) : NeverRefuses (headerAfter name) :=
  congruence_notRefusal.headerAfter name

end Parse

/-! ## More room -/

/-- The reading got behind the place, and was refused no sooner than behind it. -/
def Beyond (mark : Cursor) (r : Except Failure (α × Cursor)) : Prop :=
  match r with
  | .ok (_, d) => mark.Reaches d ∧ d.rest.length < mark.rest.length
  | .error f => mark.Reaches f.mark ∧ (f.IsRefusal → f.mark.rest.length < mark.rest.length)

/-- The second outcome is the first one, unless that was refused; then it got beyond the place of the
refusal. -/
def Outcome.Widens (o o' : Outcome α) : Prop :=
  (o' = o ∧ ∀ f, o.result = .error f → ¬ f.IsRefusal) ∨
    ∃ f, o.result = .error f ∧ f.IsRefusal ∧ Beyond f.mark o'.result

namespace Parse

theorem beyond_bind {p : Parse α} {next : α → Parse β} {mark c : Cursor}
    (h : Beyond mark (p.run c).result) : Beyond mark ((p >>= next).run c).result := by
  cases hr : (p.run c).result with
  | error f =>
    rw [hr] at h
    rwa [result_bind_of_error _ hr]
  | ok r =>
    obtain ⟨a, d⟩ := r
    rw [hr] at h
    obtain ⟨hreaches, hlt⟩ := h
    rw [result_bind_of_ok _ hr]
    cases hn : ((next a).run d).result with
    | error f =>
      have hd := reaches_of_error hn
      exact ⟨hreaches.trans hd, fun _ => Nat.lt_of_le_of_lt hd.length_le hlt⟩
    | ok s =>
      have hd := reaches_of_ok hn
      exact ⟨hreaches.trans hd, Nat.lt_of_le_of_lt hd.length_le hlt⟩

theorem widens_bind {p p' : Parse α} {next next' : α → Parse β}
    (hp : Related Outcome.Widens p p') (hn : ∀ a, Related Outcome.Widens (next a) (next' a)) :
    Related Outcome.Widens (p >>= next) (p' >>= next') := by
  intro c
  rcases hp c with ⟨hsame, hnot⟩ | ⟨f, hf, hrefusal, hbeyond⟩
  · rw [run_bind, run_bind, hsame]
    generalize p.run c = o at hnot
    obtain ⟨trace, f | ⟨a, d⟩⟩ := o
    · refine .inl ⟨rfl, fun g hr => hnot g ?_⟩
      obtain rfl : f = g := Except.error.inj hr
      rfl
    · rcases hn a d with ⟨hsame, hnot⟩ | hwidens
      · simp only [Outcome.andThen_ok, hsame]
        exact .inl ⟨rfl, hnot⟩
      · exact .inr hwidens
  · exact .inr ⟨f, result_bind_of_error _ hf, hrefusal, beyond_bind hbeyond⟩

theorem widens_refl {p : Parse α} (hp : NeverRefuses p) : Related Outcome.Widens p p :=
  fun c => .inl ⟨rfl, hp c⟩

theorem widens_traced {p p' : Parse α} (rule : Rule) (hp : Related Outcome.Widens p p') :
    Related Outcome.Widens (traced rule p) (traced rule p') :=
  widens_bind (widens_refl fun _ _ hr => by cases hr) fun _ => widens_bind hp fun _ =>
    widens_bind (widens_refl fun _ _ hr => by cases hr) fun _ =>
      widens_refl fun _ _ hr => by cases hr

theorem beyond_inside {p : Parse α} {mark c : Cursor} (h : Beyond mark (p.run c).result) :
    Beyond mark ((inside p).run c).result := by
  rw [result_inside]
  cases hr : (p.run c).result with
  | error f =>
    rw [hr] at h
    exact h
  | ok r =>
    rw [hr] at h
    exact h

theorem widens_inside {p p' : Parse α} (hp : Related Outcome.Widens p p') :
    Related Outcome.Widens (inside p) (inside p') := by
  intro c
  rcases hp c with ⟨hsame, hnot⟩ | ⟨f, hf, hrefusal, hbeyond⟩
  · refine .inl ⟨?_, fun f hr => ?_⟩
    · rw [run_inside, run_inside, hsame]
    · obtain ⟨g, hg, rfl⟩ := result_inside_eq_error hr
      exact hnot g hg
  · refine .inr ⟨{ f with opened := f.opened + 1 }, ?_, hrefusal, beyond_inside hbeyond⟩
    rw [result_inside, hf]
    rfl

theorem congruence_widens : Congruence Outcome.Widens where
  flat hp := widens_refl fun c f hr => (hp.failure c f hr).2
  bind := widens_bind
  traced _ hp := widens_traced _ hp

/-- A selection that there is room for is not refused where it is entered. -/
theorem beyond_selectionAfter (limit room : Nat) (name : String) (c : Cursor) :
    Beyond c ((selectionAfter limit (room + 1) name).run c).result := by
  rw [selectionAfter, result_traced]
  refine beyond_inside ?_
  rw [result_bind]
  cases hh : ((headerAfter name).run c).result with
  | error f => exact ⟨reaches_of_error hh, fun h => (neverRefuses_headerAfter name c f hh h).elim⟩
  | ok r =>
    obtain ⟨header, d⟩ := r
    have hd := reaches_of_ok hh
    refine beyond_bind ?_
    cases he : ((expect '{' .openBrace).run d).result with
    | error f =>
      exact ⟨hd.trans (reaches_of_error he), fun h => ((isFlat_expect _ _).failure d f he).2 h |>.elim⟩
    | ok r =>
      have hlt := length_lt_of_expect he
      exact ⟨hd.trans (reaches_of_ok he), Nat.lt_of_lt_of_le hlt hd.length_le⟩

theorem widens_selectionAfter (limit : Nat) : (room more : Nat) → (name : String) →
    Related Outcome.Widens (selectionAfter limit room name)
      (selectionAfter limit (room + (more + 1)) name)
  | 0, more, name => fun c => .inr ⟨⟨.tooDeep limit, c, c, 1⟩,
      by rw [selectionAfter, result_traced]; rfl, ⟨limit, rfl⟩, by
        rw [Nat.zero_add]
        exact beyond_selectionAfter limit more name c⟩
  | room + 1, more, name => by
    rw [Nat.add_right_comm]
    exact congruence_widens.selectionAfter_succ (widens_selectionAfter limit room more)
      (fun h => widens_traced .object (widens_inside h)) name

/-- More room leaves a document as it is read, and gets a refused one beyond its refusal. -/
theorem widens_document {limit room room' : Nat} (h : room < room') (c : Cursor) :
    ((document limit room).run c).Widens ((document limit room').run c) := by
  obtain ⟨more, rfl⟩ := Nat.exists_eq_add_of_lt h
  exact congruence_widens.document (widens_selectionAfter limit room more) c

end Parse

end QueryMarkup
