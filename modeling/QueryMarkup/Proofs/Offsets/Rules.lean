import QueryMarkup.Proofs.Offsets.Scanning

/-!
# The grammar by offsets

Rule by rule the machine agrees with the reading, a selection wherever more bytes were passed than
selections are open. Behind its name one more byte was passed, so there the next one can be counted,
and the calls of the rule in itself never run out.
-/

namespace QueryMarkup.Checked

open Parse (result_bind result_bind_of_ok)

variable {α β : Type} {text : List Char} {depth : Nat} {c : Cursor}

section
variable {sign : Char} {item : Run α} {p : Parse α}

def eachAfterStep (sign : Char) (p : Parse α) (before : List α) : Parse (List α ⊕ List α) := do
  if ← Parse.eat sign then return .inl (before ++ [← p]) else return .inr before

theorem agrees_eachAfter (h : ∀ d, c.Reaches d → Agrees text depth item p d) (before : List α) :
    Agrees text depth (Run.eachAfter text sign item before)
      (do return before ++ (← Parse.afterEach sign p)) c := by
  refine agrees_repeatedly (eachAfterStep sign p)
    (fun before => do return before ++ (← Parse.afterEach sign p))
    (fun before d hd => ?_) (fun before d => ?_) (fun before before' d e he => ?_) before
  · refine (agrees_eat sign).bind fun found e he => ?_
    cases found with
    | true => exact (h e (hd.trans (Parse.reaches_of_ok he))).bind fun _ _ _ => .pure _
    | false => exact .pure _
  · rw [goOn, eachAfterStep, bind_assoc, result_bind, result_bind, Parse.result_afterEach,
      Parse.result_eat]
    by_cases hs : d.bare.rest.head? = some sign
    · rw [if_pos hs, if_pos hs]
      dsimp only
      rw [if_pos rfl, bind_assoc, result_bind, result_bind]
      cases (p.run (d.bare.drop 1)).result with
      | error f => rfl
      | ok result =>
        dsimp only
        rw [result_bind, pure_bind, result_bind]
        cases ((Parse.afterEach sign p).run result.2).result with
        | error f => rfl
        | ok others =>
          dsimp only [Parse.run_pure]
          rw [List.append_assoc]
          rfl
    · rw [if_neg hs, if_neg hs]
      dsimp only
      rw [if_neg Bool.false_ne_true, pure_bind]
      simp only [Parse.run_pure, List.append_nil]
  · obtain ⟨found, d', hd', he⟩ := Parse.result_bind_eq_ok he
    cases found with
    | true =>
      obtain ⟨a, e', he', he⟩ := Parse.result_bind_eq_ok he
      obtain ⟨-, rfl⟩ := Prod.mk.inj (Except.ok.inj he)
      have hlt := Parse.length_lt_of_eat hd'
      have hle := p.length_le he'
      omega
    | false => cases he

theorem agrees_commaSeparated (h : ∀ d, c.Reaches d → Agrees text depth item p d) :
    Agrees text depth (Run.commaSeparated text item) (Parse.commaSeparated p) c :=
  (h c (.refl c)).bind fun first _ hd =>
    agrees_eachAfter (fun e he => h e ((Parse.reaches_of_ok hd).trans he)) [first]

end

theorem startsPair_eq (c : Cursor) :
    Parse.startsPair c.rest =
      match ((do
        let _ ← Parse.identifier
        Parse.eat ':' : Parse Bool).run c).result with
      | .ok (found, _) => found
      | .error _ => false := by
  rw [result_bind, Parse.result_identifier]
  unfold Parse.startsPair
  dsimp only
  rw [← Cursor.rest_bare]
  by_cases hstart : c.bare.rest.head?.any Identifier.isStart = true
  · rw [if_pos hstart, hstart, Bool.true_and]
    dsimp only
    rw [Parse.result_eat, Cursor.rest_bare (c.bare.drop _), Cursor.rest_drop_takeWhile]
    by_cases hsign : ((c.bare.rest.dropWhile Identifier.isPart).dropWhile Parse.isBlank).head? =
        some ':'
    · rw [if_pos hsign]
      exact decide_eq_true hsign
    · rw [if_neg hsign]
      exact decide_eq_false hsign
  · rw [if_neg hstart, Bool.eq_false_iff.2 hstart, Bool.false_and]

theorem agrees_startsPair :
    Agrees text depth (Run.startsPair text)
      (Parse.scan fun rest => (Parse.startsPair rest, 0)) c := by
  intro hr m hm
  rw [Parse.run_scan, startsPair_eq, Cursor.drop_zero]
  have hagrees : Agrees text depth (Run.identifier text >>= fun _ => Run.eat text ':')
      (Parse.identifier >>= fun _ => Parse.eat ':') c :=
    agrees_identifier.bind fun _ _ _ => agrees_eat ':'
  have hprobe := hagrees hr m hm
  generalize ((do
    let _ ← Parse.identifier
    Parse.eat ':' : Parse Bool).run c).result = result at hprobe
  rcases result with f | ⟨found, d⟩
  · obtain ⟨m', hm', -⟩ := hprobe
    refine ⟨m, ?_, hm⟩
    rw [Run.startsPair, Run.probe, hm']
    rfl
  · obtain ⟨m', hm', -⟩ := hprobe
    refine ⟨m, ?_, hm⟩
    rw [Run.startsPair, Run.probe, hm']
    rfl

theorem agrees_pair : Agrees text depth (Run.pair text) Parse.pair c :=
  agrees_identifier.bind fun _ _ _ => (agrees_expect _ _).bind fun _ _ _ =>
    agrees_literal.bind fun _ _ _ => .pure _

theorem agrees_someArguments : Agrees text depth (Run.someArguments text) Parse.someArguments c :=
  agrees_startsPair.bind fun _ _ _ => .ite
    (fun _ => (agrees_commaSeparated fun _ _ => agrees_pair).bind fun _ _ _ => .pure _)
    (fun _ => agrees_literal.bind fun _ _ _ => .pure _)

theorem agrees_arguments : Agrees text depth (Run.arguments text) Parse.arguments c :=
  .traced _ <| (agrees_eat ')').bind fun _ _ _ => .ite (fun _ => .pure _) fun _ =>
    agrees_someArguments.bind fun _ _ _ => (agrees_expect _ _).bind fun _ _ _ => .pure _

theorem agrees_filter : Agrees text depth (Run.filter text) Parse.filter c :=
  .traced _ <| agrees_identifier.bind fun _ _ _ => (agrees_expect _ _).bind fun _ _ _ =>
    agrees_arguments.bind fun _ _ _ => .pure _

theorem agrees_params : Agrees text depth (Run.params text) Parse.params c :=
  (agrees_eat '(').bind fun _ _ _ =>
    .ite (fun _ => agrees_arguments.bind fun _ _ _ => .pure _) fun _ => .pure _

theorem agrees_filters :
    Agrees text depth (Run.eachAfter text '.' (Run.filter text) [])
      (Parse.afterEach '.' Parse.filter) c :=
  (agrees_eachAfter (fun _ _ => agrees_filter) []).congr (by
    simp only [List.nil_append, bind_pure])

theorem agrees_headerAfter (name : String) :
    Agrees text depth (Run.headerAfter text name) (Parse.headerAfter name) c :=
  .traced _ <| agrees_params.bind fun _ _ _ => agrees_filters.bind fun _ _ _ => .pure _

/-! ## Selections and documents -/

theorem offset_lt_of_identifier {d : Cursor} {name : String}
    (h : (Parse.identifier.run c).result = .ok (name, d)) :
    c.position.offset < d.position.offset := by
  have hreaches := Parse.reaches_of_ok h
  refine hreaches.offset_lt ?_
  rw [Parse.result_identifier] at h
  split at h
  · rename_i hstart
    obtain ⟨-, rfl⟩ := Prod.mk.inj (Except.ok.inj h)
    have hbare : c.bare.rest.length ≤ c.rest.length := (c.reaches_drop _).length_le
    cases hc : c.bare.rest with
    | nil => simp [hc] at hstart
    | cons x rest =>
      have hx : Identifier.isStart x = true := by simpa [hc] using hstart
      refine Nat.lt_of_lt_of_le (Cursor.length_drop_lt (hc ▸ List.cons_ne_nil _ _) ?_) hbare
      rw [List.takeWhile_cons_of_pos (Identifier.isPart_of_isStart hx)]
      exact Nat.succ_pos _
  · cases h

theorem agrees_property {r : String → Run Selection} {p : String → Parse Selection}
    (h : ∀ name d, c.position.offset < d.position.offset → Agrees text depth (r name) (p name) d) :
    Agrees text depth (Run.property text r) (Parse.property p) c := by
  refine .traced _ ?_
  refine agrees_identifier.bind fun name d hd => ?_
  have hlt := offset_lt_of_identifier hd
  refine .peekSign fun sign e he => .ite (fun _ => (h name e ?_).bind fun _ _ _ => .pure _)
    fun _ => .pure _
  exact Nat.lt_of_lt_of_le hlt he.offset_le

theorem agrees_selectionBody {r : String → Run Selection} {p : String → Parse Selection}
    (h : ∀ name d, c.position.offset < d.position.offset → Agrees text depth (r name) (p name) d)
    (name : String) :
    Agrees text depth (Run.selectionBody text r name) (do
      let header ← Parse.headerAfter name
      Parse.expect '{' .openBrace
      let properties ← Parse.commaSeparated (Parse.property p)
      Parse.expect '}' .commaOrCloseBrace
      return ⟨header, properties⟩) c := by
  refine (agrees_headerAfter name).bind fun header d hd => (agrees_expect _ _).bind fun _ e he =>
    (agrees_commaSeparated fun f hf => agrees_property fun name g hg => h name g ?_).bind
      fun _ _ _ => (agrees_expect _ _).bind fun _ _ _ => .pure _
  have hcd := (Parse.reaches_of_ok hd).offset_le
  have hde := (Parse.reaches_of_ok he).offset_le
  have hef := hf.offset_le
  omega

theorem enter_eq {m : Machine} (hm : m.IsAt c depth) (h : depth < c.position.offset) :
    ∃ m', Run.enter m = some (.ok (depth + 1), m') ∧ m'.IsAt c (depth + 1) := by
  obtain ⟨hposition, rfl⟩ := hm
  have hlt : m.depth + 1 ≤ m.position.offset := by rwa [hposition]
  exact ⟨⟨m.position, m.depth + 1, hlt⟩, dif_pos hlt, hposition, rfl⟩

theorem leave_eq {m : Machine} (hm : m.IsAt c (depth + 1)) :
    ∃ m', Run.leave m = some (.ok (), m') ∧ m'.IsAt c depth := by
  have hpos : 1 ≤ m.depth := by
    rw [hm.depth]
    exact Nat.le_add_left 1 depth
  refine ⟨_, if_pos hpos, hm.position, ?_⟩
  show m.depth - 1 = depth
  rw [hm.depth, Nat.add_sub_cancel]

/-- A failure in a selection leaves one more of them open. -/
theorem Ends.inside {o : Option (Except Report α × Machine)} {f : Failure}
    (h : Ends text (depth + 1) o (.error f : Except Failure (α × Cursor))) :
    Ends text depth o (.error { f with opened := f.opened + 1 } : Except Failure (α × Cursor)) := by
  obtain ⟨m, hm, hat⟩ := h
  refine ⟨m, hm, hat.position, ?_⟩
  rw [hat.depth, Nat.add_assoc, Nat.add_comm 1]

/-- What ends in a selection ends outside of it once it is left, unless it failed. -/
theorem Ends.leave {r : Run α} {m : Machine} {result : Except Failure (α × Cursor)}
    (h : Ends text (depth + 1) (r m) result) :
    Ends text depth ((r >>= fun a => Run.leave >>= fun _ => pure a) m)
      (result.mapError fun f => { f with opened := f.opened + 1 }) := by
  cases result with
  | error f =>
    obtain ⟨m', hm', hat⟩ := h.inside
    exact ⟨m', run_bind_of_error hm', hat⟩
  | ok result =>
    obtain ⟨m₁, hm₁, hat₁⟩ := h
    obtain ⟨m₂, hm₂, hat₂⟩ := leave_eq hat₁
    refine ⟨m₂, ?_, hat₂⟩
    rw [run_bind_of_ok hm₁, run_bind_of_ok hm₂]
    rfl

/-- Wherever a selection can be counted, the calls that are left are enough for it. -/
theorem agrees_selectionAfter (limit : Nat) : (calls : Nat) → {depth : Nat} → {c : Cursor} →
    (name : String) → depth < c.position.offset → 0 < calls →
    min limit (byteSize text) < calls + depth →
    Agrees text depth (Run.selectionAfter text limit calls name)
      (Parse.selectionAfter limit (limit - depth) name) c
  | 0, _, _, _, _, h, _ => absurd h (Nat.lt_irrefl 0)
  | calls + 1, depth, c, name, hdepth, _, hcalls => by
    intro hr m hm
    obtain ⟨m₁, hm₁, hat₁⟩ := enter_eq hm hdepth
    rw [Run.selectionAfter, run_bind_of_ok hm₁]
    by_cases hlimit : limit < depth + 1
    · have hroom : limit - depth = 0 := by omega
      rw [if_pos hlimit, hroom, Parse.selectionAfter, Parse.result_traced, Parse.result_inside]
      exact (agrees_fail (.tooDeep limit) hr m₁ hat₁).inside
    · have hroom : limit - depth = (limit - (depth + 1)) + 1 := by omega
      rw [if_neg hlimit, hroom, Parse.selectionAfter, Parse.result_traced, Parse.result_inside]
      have hnested : ∀ name d, c.position.offset < d.position.offset →
          Agrees text (depth + 1) (Run.selectionAfter text limit calls name)
            (Parse.selectionAfter limit (limit - (depth + 1)) name) d := by
        intro name d hd hrd
        -- the selection may be entered and a byte of it was passed, so the bound is not yet reached
        have hsize := byteSize_eq_offset_add hrd
        exact agrees_selectionAfter limit calls name (by omega) (by omega) (by omega) hrd
      exact (agrees_selectionBody hnested name hr m₁ hat₁).leave

theorem agrees_object (limit : Nat) (h : depth ≤ c.position.offset) :
    Agrees text depth (Run.object text limit) (Parse.object limit (limit - depth)) c := by
  refine agrees_identifier.bind fun name d hd => ?_
  have hlt := offset_lt_of_identifier hd
  refine agrees_selectionAfter limit _ name (by omega) (Nat.succ_pos _) ?_
  rw [Run.maxCalls]
  omega

theorem agrees_document (limit : Nat) (h : depth ≤ c.position.offset) :
    Agrees text depth (Run.document text limit) (Parse.document limit (limit - depth)) c := by
  refine .traced _ ((agrees_expect _ _).bind fun _ d hd =>
    (agrees_commaSeparated fun e he => agrees_object limit ?_).bind fun _ _ _ =>
      (agrees_expect _ _).bind fun _ _ _ => agrees_finish.bind fun _ _ _ => .pure _)
  have hcd := (Parse.reaches_of_ok hd).offset_le
  have hde := he.offset_le
  omega

theorem agrees_whole (limit : Nat) (rule : Rule) (h : depth ≤ c.position.offset) :
    Agrees text depth (Run.whole text limit rule) (Parse.whole limit (limit - depth) rule) c := by
  cases rule with
  | literal => exact agrees_literal.bind fun _ _ _ => agrees_finish
  | identifier => exact agrees_identifier.bind fun _ _ _ => agrees_finish
  | argumentList =>
    exact (agrees_expect _ _).bind fun _ _ _ => agrees_arguments.bind fun _ _ _ => agrees_finish
  | filter =>
    exact (agrees_expect _ _).bind fun _ _ _ => agrees_filter.bind fun _ _ _ => agrees_finish
  | header =>
    exact agrees_identifier.bind fun name _ _ =>
      (agrees_headerAfter name).bind fun _ _ _ => agrees_finish
  | property =>
    refine (agrees_property fun name d hd => ?_).bind fun _ _ _ => agrees_finish
    refine agrees_selectionAfter limit _ name (by omega) (Nat.succ_pos _) ?_
    rw [Run.maxCalls]
    omega
  | object => exact (agrees_object limit h).bind fun _ _ _ => agrees_finish
  | document => exact (agrees_document limit h).bind fun _ _ _ => .pure _

end QueryMarkup.Checked
