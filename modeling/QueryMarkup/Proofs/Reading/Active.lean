import QueryMarkup.Proofs.Reading.Room
import QueryMarkup.Proofs.Reading.Trace

/-!
# Selections inside each other

A selection is active from where it is entered to where it is matched, and all that a failure leaves
open are. With room for so many selections in each other, one more than that are active at once at
most: the last one is refused, and a refusal finds exactly so many of them open.
-/

namespace QueryMarkup

variable {α : Type}

/-- At every place of the trace no more selections are open than told, those before it not
counted. -/
def Nests (depth : Nat) (trace : List TraceRecord) : Prop :=
  ∀ opened before, before <+: trace →
    ∃ left, openRules opened before = some (left ++ opened) ∧ left.count .object ≤ depth

namespace Nests

variable {depth depth' : Nat} {s t : List TraceRecord} {rule : Rule}

theorem nil (depth : Nat) : Nests depth [] := by
  intro opened before h
  rw [List.prefix_nil.1 h]
  exact ⟨[], rfl, Nat.zero_le _⟩

theorem append (hs : Nests depth s) (hclosed : ∀ opened, openRules opened s = some opened)
    (ht : Nests depth t) : Nests depth (s ++ t) := by
  intro opened before h
  rcases List.prefix_or_prefix_of_prefix h (List.prefix_append s t) with hbefore | ⟨behind, rfl⟩
  · exact hs opened before hbefore
  · obtain ⟨left, hleft, hcount⟩ := ht opened behind ((List.prefix_append_right_inj s).1 h)
    refine ⟨left, ?_, hcount⟩
    rw [openRules_append, hclosed, Option.bind_some, hleft]

/-- Entering a selection opens one more, entering another rule does not. -/
theorem enter (h : Nests depth s) (hdepth : depth + [rule].count .object ≤ depth') (p : Position) :
    Nests depth' (⟨.entered, rule, p⟩ :: s) := by
  intro opened before hbefore
  rcases List.prefix_cons_iff.1 hbefore with rfl | ⟨inside, rfl, hinside⟩
  · exact ⟨[], rfl, Nat.zero_le _⟩
  · obtain ⟨left, hleft, hcount⟩ := h (rule :: opened) inside hinside
    refine ⟨left ++ [rule], ?_, ?_⟩
    · rw [openRules, hleft, List.append_assoc]
      rfl
    · rw [List.count_append]
      omega

theorem matched (h : Nests depth s) (hclosed : ∀ opened, openRules opened s = some opened)
    (hdepth : depth + [rule].count .object ≤ depth') (p q : Position) :
    Nests depth' (⟨.entered, rule, p⟩ :: (s ++ [⟨.matched, rule, q⟩])) := by
  intro opened before hbefore
  rw [← List.cons_append] at hbefore
  rcases List.prefix_concat_iff.1 hbefore with rfl | hbefore
  · refine ⟨[], ?_, Nat.zero_le _⟩
    rw [List.cons_append, openRules, openRules_append, hclosed]
    simp [openRules]
  · exact h.enter hdepth p opened before hbefore

end Nests

namespace Parse

theorem openRules_of_ok {o : Outcome α} (h : o.IsBracketed) {r : α × Cursor}
    (hr : o.result = .ok r) (opened : List Rule) : openRules opened (o.trace ()) = some opened := by
  have ho := h opened
  rwa [hr] at ho

theorem nests_traced {p : Parse α} {rule : Rule} {depth depth' : Nat} {c : Cursor}
    (hclosed : ∀ r, (p.run c).result = .ok r →
      ∀ opened, openRules opened ((p.run c).trace ()) = some opened)
    (hn : Nests depth ((p.run c).trace ())) (hdepth : depth + [rule].count .object ≤ depth') :
    Nests depth' (((traced rule p).run c).trace ()) := by
  cases hr : (p.run c).result with
  | error f =>
    rw [trace_traced_of_error rule hr]
    exact hn.enter hdepth _
  | ok r =>
    rw [trace_traced_of_ok rule hr]
    exact hn.matched (hclosed r hr) hdepth _ _

theorem congruence_nests (depth : Nat) :
    Congruence fun {α} (o _ : Outcome α) => o.IsBracketed ∧ Nests depth (o.trace ()) where
  flat {_ p} hp c := by
    refine ⟨congruence_isBracketed.flat hp c, ?_⟩
    rw [hp.trace c]
    exact .nil depth
  bind {_ _ p _ next _} hp hn c := by
    have hall : Related (fun o _ => o.IsBracketed) (p >>= next) (p >>= next) :=
      congruence_isBracketed.bind (fun c => (hp c).1) fun a c => (hn a c).1
    refine ⟨hall c, ?_⟩
    obtain ⟨hbracketed, hnests⟩ := hp c
    cases hr : (p.run c).result with
    | error f => rwa [trace_bind_of_error _ hr]
    | ok r =>
      rw [trace_bind_of_ok _ hr]
      exact hnests.append (openRules_of_ok hbracketed hr) (hn r.1 r.2).2
  traced {_ p _ rule} hrule hp c := by
    refine ⟨isBracketed_traced hrule (hp c).1,
      nests_traced (fun _ hr => openRules_of_ok (hp c).1 hr) (hp c).2 ?_⟩
    simp [hrule]

theorem nests_selection {p : Parse α} {depth : Nat} {c : Cursor} (hb : (p.run c).IsBracketed)
    (hn : Nests depth ((p.run c).trace ())) :
    Nests (depth + 1) (((traced .object (inside p)).run c).trace ()) :=
  nests_traced (p := inside p) (fun _ hr => openRules_of_ok (o := p.run c) hb
    (result_inside_eq_ok hr)) hn (Nat.le_refl _)

theorem nests_selectionAfter (limit : Nat) : (room : Nat) → (name : String) →
    Related (fun o _ => o.IsBracketed ∧ Nests (room + 1) (o.trace ()))
      (selectionAfter limit room name) (selectionAfter limit room name)
  | 0, _ => fun c => by
    have hfail : ((fail (.tooDeep limit) : Parse Selection).run c).IsBracketed :=
      fun _ => ⟨[], rfl, rfl⟩
    exact ⟨isBracketed_selection hfail, nests_selection hfail (.nil 0)⟩
  | room + 1, name => fun c => by
    obtain ⟨hbracketed, hnests⟩ :=
      (congruence_nests (room + 1)).body (nests_selectionAfter limit room) name c
    exact ⟨isBracketed_selection hbracketed, nests_selection hbracketed hnests⟩

theorem nests_document (limit room : Nat) (c : Cursor) :
    Nests (room + 1) (((document limit room).run c).trace ()) := by
  have h := (congruence_nests (room + 1)).document (nests_selectionAfter limit room) c
  exact h.2

theorem congruence_opened (opened : Nat) :
    Congruence fun {α} (o _ : Outcome α) =>
      ∀ f, o.result = .error f → f.IsRefusal → f.opened = opened where
  flat hp c f hr hrefusal := ((hp.failure c f hr).2 hrefusal).elim
  bind hp hn c f hr hrefusal := by
    rcases result_bind_eq_error hr with hf | ⟨a, d, -, hf⟩
    · exact hp c f hf hrefusal
    · exact hn a d f hf hrefusal
  traced _ hp c f hr hrefusal := hp c f (by rwa [result_traced] at hr) hrefusal

/-- A refusal finds one selection open for which there was no room. -/
theorem opened_selectionAfter (limit : Nat) : (room : Nat) → (name : String) →
    Related (fun o _ => ∀ f, o.result = .error f → f.IsRefusal → f.opened = room + 1)
      (selectionAfter limit room name) (selectionAfter limit room name)
  | 0, _ => fun c f hr _ => by
    rw [selectionAfter, result_traced] at hr
    obtain ⟨g, hg, rfl⟩ := result_inside_eq_error hr
    obtain rfl := Except.error.inj hg
    rfl
  | room + 1, name => fun c f hr hrefusal => by
    rw [selectionAfter, result_traced] at hr
    obtain ⟨g, hg, rfl⟩ := result_inside_eq_error hr
    exact congrArg (· + 1)
      ((congruence_opened (room + 1)).body (opened_selectionAfter limit room) name c g hg hrefusal)

theorem opened_of_isRefusal {limit room : Nat} {c : Cursor} {f : Failure}
    (hf : ((document limit room).run c).result = .error f) (h : f.IsRefusal) :
    f.opened = room + 1 :=
  (congruence_opened (room + 1)).document (opened_selectionAfter limit room) c f hf h

end Parse

end QueryMarkup
