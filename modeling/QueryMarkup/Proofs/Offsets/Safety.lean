import QueryMarkup.Proofs.Offsets.Rules
import QueryMarkup.Proofs.Sessions.Depth
import QueryMarkup.Proofs.Text.Utf8

/-!
# Reading by offsets never breaks off

Whatever is read, by whatever rule and however often, the machine has a result, and it is that of
the reading: no slice is out of place, no number drops below zero, no loop or call goes on for too
long.
-/

namespace QueryMarkup.Checked

theorem document_eq {s : Session} {text : String} (hs : s.IsAt text) {m : Machine}
    (hm : m.IsAt s.cursor s.depth) :
    ∃ m', Run.document text.toList s.limit m = some (s.result, m') ∧
      m'.IsAt s.advance.cursor s.advance.depth := by
  have hdepth : s.depth ≤ s.cursor.position.offset := by
    rw [← hm.depth, ← hm.position]
    exact m.depth_le
  have hagrees : Agrees text.toList _ _ _ _ := agrees_document s.limit hdepth
  cases hr : s.outcome.result with
  | ok result =>
    obtain ⟨d, c⟩ := result
    rw [Session.result, hr, Session.advance_of_ok hr]
    exact hagrees.ok hs.2 hm hr
  | error f =>
    rw [Session.result, hr, Session.advance_of_error hr, hs.1]
    exact hagrees.error hs.2 hm hr

theorem results?_eq {s : Session} {text : String} (hs : s.IsAt text) {m : Machine}
    (hm : m.IsAt s.cursor s.depth) (count : Nat) :
    ∃ m', results? text.toList s.limit count m = some (s.results count, m') ∧
      m'.IsAt (Session.advance^[count] s).cursor (Session.advance^[count] s).depth := by
  induction count generalizing s m with
  | zero => exact ⟨m, rfl, hm⟩
  | succ count ih =>
    obtain ⟨m₁, hm₁, hat₁⟩ := document_eq hs hm
    obtain ⟨m₂, hm₂, hat₂⟩ := ih hs.advance hat₁
    rw [Session.limit_advance] at hm₂
    refine ⟨m₂, ?_, hat₂⟩
    rw [results?, hm₁, Option.bind_eq_bind, Option.bind_some]
    dsimp only
    rw [hm₂]
    rfl

/-- Whatever rules are matched in a row, by a machine that comes from anywhere. -/
theorem exists_matches? {text : List Char} (limit : Nat) (rules : List Rule) {c : Cursor}
    (hc : (Cursor.start text).Reaches c) {m : Machine} (hm : m.position = c.position) :
    ∃ results m', matches? text limit rules m = some (results, m') := by
  induction rules generalizing c m with
  | nil => exact ⟨[], m, rfl⟩
  | cons rule rules ih =>
    have hdepth : m.depth ≤ c.position.offset := hm ▸ m.depth_le
    obtain ⟨m₁, d, hm₁, hd, hposition⟩ := (agrees_whole limit rule hdepth).ends hc ⟨hm, rfl⟩
    obtain ⟨others, m₂, hothers⟩ := ih (hc.trans hd) hposition
    rw [matches?, hm₁, Option.bind_eq_bind, Option.bind_some]
    dsimp only
    rw [hothers]
    exact ⟨_, m₂, rfl⟩

theorem isAt_start (text : List Char) : Machine.start.IsAt (.start text) 0 := ⟨rfl, rfl⟩

theorem loadWith?_eq (options : LoadOptions) (text : String) :
    loadWith? options text = some (Document.loadWith options text) := by
  obtain ⟨m, hm, -⟩ := document_eq (Session.isAt_start text options.maxDepth)
    (isAt_start text.toList)
  have hm : Run.document text.toList options.maxDepth .start = _ := hm
  rw [loadWith?, hm]
  rfl

theorem recognize?_eq (rule : Rule) (text : String) :
    recognize? rule text = some (recognize rule text) := by
  obtain ⟨m, -, hm, -⟩ := (agrees_whole maxNesting rule (Nat.zero_le _)).ends
    (.refl (.start text.toList)) (isAt_start text.toList)
  rw [Nat.sub_zero] at hm
  rw [recognize?, hm, recognize]
  cases ((Parse.whole maxNesting maxNesting rule).run (.start text.toList)).result <;> rfl

theorem loadBytes?_eq (bytes : List UInt8) :
    loadBytes? bytes = some (Document.loadBytes bytes) := by
  obtain ⟨rest, hbytes, -, -⟩ := Utf8.exists_eq_encode_append bytes
  rcases hdecode : Utf8.decode bytes with ⟨front, _ | fault⟩
  · rw [loadBytes?, Document.loadBytes, hdecode]
    exact loadWith?_eq {} _
  · rw [hdecode] at hbytes
    have hbytes : bytes = Utf8.encode front ++ rest := hbytes
    have hsize := Utf8.length_encode front
    have hle : byteSize front ≤ bytes.length := by
      rw [hbytes, List.length_append, hsize]
      exact Nat.le_add_right _ _
    have hcut : Utf8.decode (bytes.take (byteSize front)) = (front, none) := by
      rw [hbytes, ← hsize, List.take_left, Utf8.decode_encode]
    rw [loadBytes?, Document.loadBytes, hdecode]
    dsimp only
    rw [guard_of_pos hle, hcut, Option.bind_eq_bind, Option.bind_some]
    dsimp only
    rw [slice?_lastLine, Option.bind_eq_bind, Option.bind_some]
    rfl

/-- Reading by offsets never breaks off, and where it is compared it comes to what reading does. -/
theorem never_breaksOff :
    (∀ (text : String) (limit count : Nat), ∃ m, results? text.toList limit count .start =
      some ((Session.start text.toList limit).results count, m)) ∧
    (∀ (text : String) (limit : Nat) (rules : List Rule), ∃ results m,
      matches? text.toList limit rules .start = some (results, m)) ∧
    (∀ (options : LoadOptions) (text : String),
      loadWith? options text = some (Document.loadWith options text)) ∧
    (∀ (rule : Rule) (text : String), recognize? rule text = some (recognize rule text)) ∧
    ∀ bytes : List UInt8, loadBytes? bytes = some (Document.loadBytes bytes) := by
  refine ⟨fun text limit count => ?_, fun text limit rules => ?_, loadWith?_eq, recognize?_eq,
    loadBytes?_eq⟩
  · obtain ⟨m, hm, -⟩ := results?_eq (Session.isAt_start text limit) (isAt_start text.toList) count
    exact ⟨m, hm⟩
  · exact exists_matches? limit rules (.refl (.start text.toList)) rfl

end QueryMarkup.Checked
