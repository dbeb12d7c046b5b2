/-!
# Ordered maps

Named values in the order in which their names first came. Giving a name a second value keeps its
place. No name comes twice, which is part of the type.
-/

namespace QueryMarkup

structure OrderedMap (α : Type) where
  entries : List (String × α)
  nodup_keys : (entries.map Prod.fst).Nodup

namespace OrderedMap

variable {α : Type}

/-- Gives `key` a value, in place or at the end, and tells the value it had. -/
def exchangeIn (key : String) (value : α) : List (String × α) → Option α × List (String × α)
  | [] => (none, [(key, value)])
  | (k, v) :: rest =>
    if k = key then (some v, (k, value) :: rest)
    else
      let (old, rest) := exchangeIn key value rest
      (old, (k, v) :: rest)

theorem keys_exchangeIn (key : String) (value : α) (entries : List (String × α)) :
    (exchangeIn key value entries).2.map Prod.fst =
      if key ∈ entries.map Prod.fst then entries.map Prod.fst
      else entries.map Prod.fst ++ [key] := by
  induction entries with
  | nil => simp [exchangeIn]
  | cons e rest ih =>
    obtain ⟨k, v⟩ := e
    by_cases h : k = key
    · simp [exchangeIn, h]
    · have h' : ¬ key = k := fun e => h e.symm
      simp only [exchangeIn, h, if_false, List.map_cons, ih, List.mem_cons, h', false_or]
      split <;> simp

theorem nodup_keys_exchangeIn {key : String} {value : α} {entries : List (String × α)}
    (h : (entries.map Prod.fst).Nodup) :
    ((exchangeIn key value entries).2.map Prod.fst).Nodup := by
  rw [keys_exchangeIn]
  split
  · exact h
  · rename_i hk
    exact List.nodup_append.2 ⟨h, by simp, fun a ha b hb => by
      rw [List.mem_singleton.1 hb]
      exact fun e => hk (e ▸ ha)⟩

/-! ## Maps -/

def empty : OrderedMap α := ⟨[], List.nodup_nil⟩

/-- The map with the new value, and the value it replaces. -/
def exchange (m : OrderedMap α) (key : String) (value : α) : Option α × OrderedMap α :=
  let r := exchangeIn key value m.entries
  (r.1, ⟨r.2, nodup_keys_exchangeIn m.nodup_keys⟩)

def insert (m : OrderedMap α) (key : String) (value : α) : OrderedMap α :=
  (m.exchange key value).2

/-- Pairs inserted one after another. -/
def ofList (pairs : List (String × α)) : OrderedMap α :=
  pairs.foldl (fun m pair => m.insert pair.1 pair.2) empty

def get? (m : OrderedMap α) (key : String) : Option α := m.entries.lookup key

def contains (m : OrderedMap α) (key : String) : Bool := (m.get? key).isSome

def keys (m : OrderedMap α) : List String := m.entries.map Prod.fst

def values (m : OrderedMap α) : List α := m.entries.map Prod.snd

def size (m : OrderedMap α) : Nat := m.entries.length

def isEmpty (m : OrderedMap α) : Bool := m.entries.isEmpty

/-- Equality up to order, by an equality of values. -/
def equal (same : α → α → Bool) (m n : OrderedMap α) : Bool :=
  m.size == n.size && m.entries.all fun entry =>
    match n.get? entry.1 with
    | some value => same entry.2 value
    | none => false

end OrderedMap

end QueryMarkup
