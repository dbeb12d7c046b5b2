import QueryMarkup.Proofs.Reading.Lexeme

/-!
# What is read was spelled

Every rule that returns a value has passed over a text whose tokens the grammar derives for that
value.
-/

namespace QueryMarkup.Parse

variable {α β : Type}

/-- Whatever is read, the text that was passed over spells tokens that stand for it. -/
def Finds (p : Parse α) (Stands : List Token → α → Prop) : Prop :=
  ∀ c d a, (p.run c).result = .ok (a, d) →
    ∃ passed tokens, c.rest = passed ++ d.rest ∧ Spells passed tokens ∧ Stands tokens a

theorem Finds.pure {a : α} {T : List Token → α → Prop} (h : T [] a) : Finds (pure a) T := by
  intro c d b hr
  obtain ⟨rfl, rfl⟩ := Prod.mk.inj (Except.ok.inj hr)
  exact ⟨[], [], rfl, .nil, h⟩

theorem Finds.bind {p : Parse α} {next : α → Parse β} {S : List Token → α → Prop}
    {T : List Token → β → Prop} (hp : Finds p S)
    (hn : ∀ s a, S s a → Finds (next a) fun t b => T (s ++ t) b) : Finds (p >>= next) T := by
  intro c e b hr
  obtain ⟨a, d, ha, hb⟩ := result_bind_eq_ok hr
  obtain ⟨u, s, hc, hu, hs⟩ := hp c d a ha
  obtain ⟨v, t, hd, hv, ht⟩ := hn s a hs d e b hb
  exact ⟨u ++ v, s ++ t, by rw [hc, hd, List.append_assoc], hu.append hv, ht⟩

theorem Finds.mono {p : Parse α} {S T : List Token → α → Prop} (hp : Finds p S)
    (h : ∀ s a, S s a → T s a) : Finds p T := by
  intro c d a hr
  obtain ⟨u, s, hc, hu, hs⟩ := hp c d a hr
  exact ⟨u, s, hc, hu, h s a hs⟩

theorem Finds.map {p : Parse α} {S : List Token → α → Prop} {T : List Token → β → Prop}
    (f : α → β) (hp : Finds p S) (h : ∀ s a, S s a → T s (f a)) :
    Finds (do return f (← p)) T :=
  hp.bind fun s a hs => .pure (by simpa using h s a hs)

theorem Finds.congr {p q : Parse α} {T : List Token → α → Prop} (hq : Finds q T)
    (h : ∀ c, (p.run c).result = (q.run c).result) : Finds p T :=
  fun c d a hr => hq c d a (h c ▸ hr)

theorem Finds.traced {p : Parse α} {T : List Token → α → Prop} (rule : Rule) (h : Finds p T) :
    Finds (traced rule p) T :=
  h.congr (result_traced rule p)

theorem Finds.inside {p : Parse α} {T : List Token → α → Prop} (h : Finds p T) :
    Finds (inside p) T := by
  intro c d a hr
  exact h c d a (result_inside_eq_ok hr)

/-! ## Signs, names and literals -/

theorem rest_eq_bare (c : Cursor) :
    c.rest = c.rest.takeWhile isBlank ++ c.bare.rest := by
  rw [Cursor.rest_bare, List.takeWhile_append_dropWhile]

theorem rest_eq_of_bare {c d : Cursor} {word : List Char} (h : c.bare.rest = word ++ d.rest) :
    c.rest = (c.rest.takeWhile isBlank ++ word) ++ d.rest := by
  rw [List.append_assoc, ← h]
  exact rest_eq_bare c

theorem passed_sign {sign : Char} (hs : sign ∈ Token.signs) {c : Cursor}
    (h : c.bare.rest.head? = some sign) :
    ∃ passed, c.rest = passed ++ (c.bare.drop 1).rest ∧ Spells passed [.sign sign] := by
  obtain ⟨t, ht⟩ := List.head?_eq_some_iff.1 h
  have hc : c.bare.rest = [sign] ++ (c.bare.drop 1).rest := by
    rw [Cursor.rest_drop_one ht, ht]
    rfl
  exact ⟨_, rest_eq_of_bare hc, (Spells.single (.sign hs)).blanks (blanks_takeWhile _)⟩

theorem finds_blanks : Finds blanks fun t _ => t = [] := by
  intro c d b hr
  obtain ⟨rfl, rfl⟩ := Prod.mk.inj (Except.ok.inj hr)
  exact ⟨_, [], rest_eq_bare c, .done (blanks_takeWhile _), rfl⟩

theorem finds_look : Finds look fun t _ => t = [] := by
  intro c d b hr
  rw [result_look] at hr
  obtain ⟨rfl, rfl⟩ := Prod.mk.inj (Except.ok.inj hr)
  exact ⟨[], [], rfl, .nil, rfl⟩

theorem finds_eat {sign : Char} (hs : sign ∈ Token.signs) :
    Finds (eat sign) fun t b => t = if b then [.sign sign] else [] := by
  intro c d b hr
  rw [result_eat] at hr
  split at hr
  · rename_i hh
    obtain ⟨rfl, rfl⟩ := Prod.mk.inj (Except.ok.inj hr)
    obtain ⟨passed, hc, hp⟩ := passed_sign hs hh
    exact ⟨passed, [.sign sign], hc, hp, rfl⟩
  · obtain ⟨rfl, rfl⟩ := Prod.mk.inj (Except.ok.inj hr)
    exact ⟨_, [], rest_eq_bare c, .done (blanks_takeWhile _), rfl⟩

theorem finds_expect {sign : Char} (hs : sign ∈ Token.signs) (what : Expected) :
    Finds (expect sign what) fun t _ => t = [.sign sign] := by
  refine (finds_eat hs).bind fun s b hb => ?_
  cases b with
  | true => exact .pure (by simp [hb])
  | false =>
    intro c d a hr
    rw [if_neg Bool.false_ne_true, result_expected] at hr
    cases hr

/-- A name that is read stands behind the blanks. -/
theorem identifier_sound {c d : Cursor} {n : String}
    (h : (identifier.run c).result = .ok (n, d)) :
    Identifier.isIdentifier n.toList = true ∧
      c.rest = (c.rest.takeWhile isBlank ++ n.toList) ++ d.rest := by
  rw [result_identifier] at h
  split at h
  · rename_i hh
    obtain ⟨rfl, rfl⟩ := Prod.mk.inj (Except.ok.inj h)
    rw [String.toList_ofList]
    refine ⟨?_, rest_eq_of_bare ?_⟩
    · cases ht : c.bare.rest with
      | nil => simp [ht] at hh
      | cons x t =>
        have hx : Identifier.isStart x = true := by simpa [ht] using hh
        rw [List.takeWhile_cons_of_pos (Identifier.isPart_of_isStart hx)]
        simp only [Identifier.isIdentifier, hx, Bool.true_and, List.all_eq_true]
        exact fun y hy => List.mem_takeWhile_imp hy
    · rw [Cursor.rest_drop_takeWhile, List.takeWhile_append_dropWhile]
  · cases h

theorem finds_identifier : Finds identifier fun t n => t = [.name n] := by
  intro c d n hr
  obtain ⟨hn, hc⟩ := identifier_sound hr
  exact ⟨_, [.name n], hc, (Spells.single (.name hn)).blanks (blanks_takeWhile _), rfl⟩

theorem finds_literal : Finds literal fun t l => ∃ x, t = [.literal x] ∧ x.Denotes l := by
  intro c d l hr
  rw [literal, result_bind_of_ok _ (result_blanks c), result_check] at hr
  cases hx : (lexeme.run c.bare).result with
  | error f => rw [hx] at hr; cases hr
  | ok r =>
    obtain ⟨x, e⟩ := r
    simp only [hx] at hr
    cases hm : x.meaning with
    | error cause => rw [hm] at hr; cases hr
    | ok l' =>
      simp only [hm] at hr
      obtain ⟨rfl, rfl⟩ := Prod.mk.inj (Except.ok.inj hr)
      have hd := Lexeme.meaning_eq_ok_iff.1 hm
      obtain ⟨word, hw, hs⟩ := lexeme_sound hx hd
      exact ⟨_, [.literal x], rest_eq_of_bare hw,
        (Spells.single (.literal hs)).blanks (blanks_takeWhile _), x, rfl, hd⟩

theorem finds_finish : Finds finish fun t _ => t = [] := by
  intro c d a hr
  rw [result_finish] at hr
  split at hr
  · obtain ⟨rfl, rfl⟩ := Prod.mk.inj (Except.ok.inj hr)
    exact ⟨_, [], rest_eq_bare c, .done (blanks_takeWhile _), rfl⟩
  · cases hr

theorem rest_of_finish {c d : Cursor} (h : (finish.run c).result = .ok ((), d)) :
    d.rest = [] := by
  rw [result_finish] at h
  split at h
  · rename_i hb
    obtain ⟨-, rfl⟩ := Prod.mk.inj (Except.ok.inj h)
    exact hb
  · cases h

/-! ## Lists and rules -/

section
variable {item : Parse α} {Item : List Token → α → Prop}

/-- An item with a sign in front of it. -/
def Behind (sign : Char) (Item : List Token → α → Prop) (s : List Token) (a : α) : Prop :=
  ∃ t, s = .sign sign :: t ∧ Item t a

theorem finds_afterEach {sign : Char} (hs : sign ∈ Token.signs) (hi : Finds item Item) :
    Finds (afterEach sign item) (Grammar.Repeated (Behind sign Item)) := by
  intro c d as
  refine afterEach_induction (P := fun c r => ∀ d as, r = .ok (as, d) →
    ∃ passed tokens, c.rest = passed ++ d.rest ∧ Spells passed tokens ∧
      Grammar.Repeated (Behind sign Item) tokens as) ?_ ?_ ?_ c d as
  · rintro c - d as ⟨⟩
    exact ⟨_, [], rest_eq_bare c, .done (blanks_takeWhile _), .nil⟩
  · rintro c f - - d as ⟨⟩
  · intro c a d hh ha ih e as hr
    cases ho : ((afterEach sign item).run d).result with
    | error f => rw [ho] at hr; cases hr
    | ok r =>
      obtain ⟨others, e'⟩ := r
      rw [ho] at hr
      obtain ⟨rfl, rfl⟩ := Prod.mk.inj (Except.ok.inj hr)
      obtain ⟨passed, hc, hp⟩ := passed_sign hs hh
      obtain ⟨u, s, hu, hus, hs'⟩ := hi _ _ _ ha
      obtain ⟨v, t, hv, hvt, ht⟩ := ih _ _ ho
      refine ⟨(passed ++ u) ++ v, ([.sign sign] ++ s) ++ t, ?_, (hp.append hus).append hvt,
        .cons ⟨s, rfl, hs'⟩ ht⟩
      rw [hc, hu, hv]
      simp only [List.append_assoc]

theorem separated_of_repeated {s t : List Token} {a : α} {as : List α} (ha : Item s a)
    (h : Grammar.Repeated (Behind ',' Item) t as) : Grammar.Separated Item (s ++ t) (a :: as) := by
  induction h generalizing s a with
  | nil =>
    rw [List.append_nil]
    exact .single ha
  | cons hb _ ih =>
    obtain ⟨u, rfl, hu⟩ := hb
    exact .cons ha (ih hu)

theorem finds_commaSeparated (hi : Finds item Item) :
    Finds (commaSeparated item) (Grammar.Separated Item) :=
  hi.bind fun _ _ ha => (finds_afterEach (by decide) hi).map _ fun _ _ => separated_of_repeated ha

end

section
variable {Means : Lexeme → Literal → Prop} (hM : ∀ {x l}, x.Denotes l → Means x l)
include hM

theorem finds_pair : Finds pair (Grammar.IsPair Means) := by
  refine finds_identifier.bind fun s n hs => ?_
  refine (finds_expect (by decide) _).bind fun t _ ht => ?_
  refine finds_literal.map (n, ·) fun u l hu => ?_
  obtain ⟨x, rfl, hx⟩ := hu
  subst hs ht
  exact .intro (hM hx)

/-- What stands between the parentheses of an argument list. -/
theorem finds_someArguments :
    Finds someArguments fun s a => Grammar.IsArguments Means (.sign '(' :: (s ++ [.sign ')'])) a := by
  intro c d a hr
  rw [result_someArguments] at hr
  split at hr
  · refine Finds.map (fun pairs => Arguments.named (.ofList pairs))
      (finds_commaSeparated (finds_pair hM)) (fun s pairs hs => ?_) c d a hr
    exact .named hs (OrderedMap.collects_ofList pairs)
  · refine Finds.map Arguments.positional finds_literal (fun s l hs => ?_) c d a hr
    obtain ⟨x, rfl, hx⟩ := hs
    exact .positional (hM hx)

theorem finds_arguments :
    Finds arguments fun s a => Grammar.IsArguments Means (.sign '(' :: s) a := by
  refine .traced _ ((finds_eat (by decide)).bind fun s b hs => ?_)
  cases b with
  | true =>
    subst hs
    exact .pure .none
  | false =>
    subst hs
    refine (finds_someArguments hM).bind fun t a ha => ?_
    refine (finds_expect (by decide) _).bind fun u _ hu => .pure ?_
    subst hu
    simpa using ha

theorem finds_filter : Finds filter fun s f => Grammar.IsFilter Means (.sign '.' :: s) f := by
  refine .traced _ (finds_identifier.bind fun s n hs => ?_)
  refine (finds_expect (by decide) _).bind fun t _ ht => ?_
  refine (finds_arguments hM).map (fun a => Filter.mk n a.filterValue) fun u a ha => ?_
  subst hs ht
  exact .intro ha

theorem finds_params : Finds params (Grammar.IsParams Means) := by
  refine (finds_eat (by decide)).bind fun s b hs => ?_
  cases b with
  | true =>
    subst hs
    exact (finds_arguments hM).map _ fun t a ha => .present ha
  | false =>
    subst hs
    exact .pure .absent

theorem finds_headerAfter (n : String) :
    Finds (headerAfter n) fun s header => Grammar.IsHeader Means (.name n :: s) header := by
  refine .traced _ ((finds_params hM).bind fun s p hs => ?_)
  refine (finds_afterEach (by decide) (finds_filter hM)).map _ fun t filters ht => .intro hs ?_
  refine ht.imp fun u f hu => ?_
  obtain ⟨v, rfl, hv⟩ := hu
  exact hv

omit hM in
theorem finds_property {Nested : List Token → Selection → Prop} {after : String → Parse Selection}
    (h : ∀ n, Finds (after n) fun s x => Nested (.name n :: s) x) :
    Finds (property after) (Grammar.IsProperty Nested) := by
  refine .traced _ (finds_identifier.bind fun s n hs => ?_)
  refine finds_blanks.bind fun t _ ht => finds_look.bind fun u next hu => ?_
  subst hs ht hu
  split
  · exact (h n).map _ fun v x hx => .selection hx
  · exact .pure .field

theorem finds_selectionAfter (limit : Nat) : (room : Nat) → (n : String) →
    Finds (selectionAfter limit room n) fun s x => Grammar.IsObject Means room (.name n :: s) x
  | 0, n => by
    intro c d a hr
    rw [selectionAfter, result_traced] at hr
    cases result_inside_eq_ok hr
  | room + 1, n => by
    refine .traced _ (.inside ((finds_headerAfter hM n).bind fun s header hs => ?_))
    refine (finds_expect (by decide) _).bind fun t _ ht => ?_
    refine (finds_commaSeparated (finds_property (finds_selectionAfter limit room))).bind
      fun u properties hu => ?_
    refine (finds_expect (by decide) _).bind fun v _ hv => .pure ?_
    subst ht hv
    simpa [Grammar.IsObject] using Grammar.IsSelection.intro hs hu

theorem finds_object (limit room : Nat) :
    Finds (object limit room) (Grammar.IsObject Means room) := by
  refine finds_identifier.bind fun s n hs => ?_
  subst hs
  exact finds_selectionAfter hM limit room n

theorem finds_document (limit room : Nat) :
    Finds (document limit room) (Grammar.IsDocument Means room) := by
  refine .traced _ ((finds_expect (by decide) _).bind fun s _ hs => ?_)
  refine (finds_commaSeparated (finds_object hM limit room)).bind fun t selections ht => ?_
  refine (finds_expect (by decide) _).bind fun u _ hu => ?_
  refine finds_finish.map _ fun v _ hv => ?_
  subst hs hu hv
  simpa using Grammar.IsDocument.intro ht

end

theorem rest_of_document {limit room : Nat} {c e : Cursor} {d : Document}
    (h : ((document limit room).run c).result = .ok (d, e)) : e.rest = [] := by
  rw [document, result_traced] at h
  obtain ⟨_, _, -, h⟩ := result_bind_eq_ok h
  obtain ⟨_, _, -, h⟩ := result_bind_eq_ok h
  obtain ⟨_, _, -, h⟩ := result_bind_eq_ok h
  obtain ⟨_, e', hf, h⟩ := result_bind_eq_ok h
  obtain ⟨-, rfl⟩ := Prod.mk.inj (Except.ok.inj h)
  exact rest_of_finish hf

end QueryMarkup.Parse
