/-!
# Ordered maps

A map from texts that remembers the order in which its keys came. Setting a present key
keeps the key's place; `setLast` moves it to the end.

* `keys_nodup`: every key stands once, whatever the history.
* `get?_insert`, `get?_insertNew`, `get?_erase`, `get?_setLast`: what each operation does
  to a look-up.
* `keys_insert`, `keys_erase`, `keys_setLast`: what it does to the order.
-/

namespace HookStyle

/-! ## Entry lists -/

namespace Entries

variable {α : Type}

def keys (es : List (String × α)) : List String := es.map Prod.fst

/-- Sets the value of a key: in its place, or at the end when the key is new. -/
def insert (key : String) (value : α) : List (String × α) → List (String × α)
  | [] => [(key, value)]
  | (k, v) :: es => if k = key then (k, value) :: es else (k, v) :: insert key value es

/-- The entries of all other keys. -/
def erase (key : String) (es : List (String × α)) : List (String × α) :=
  es.filter fun e => e.1 ≠ key

@[simp] theorem keys_nil : keys ([] : List (String × α)) = [] := rfl

@[simp] theorem keys_cons (e : String × α) (es : List (String × α)) :
    keys (e :: es) = e.1 :: keys es := rfl

@[simp] theorem keys_append (es fs : List (String × α)) :
    keys (es ++ fs) = keys es ++ keys fs := by simp [keys]

theorem mem_keys {key : String} {es : List (String × α)} :
    key ∈ keys es ↔ ∃ v, (key, v) ∈ es := by
  simp [keys]

/-- A known key keeps its place, a new one comes last. -/
theorem keys_insert (key : String) (value : α) (es : List (String × α)) :
    keys (insert key value es) = if key ∈ keys es then keys es else keys es ++ [key] := by
  induction es with
  | nil => rfl
  | cons e es ih =>
    obtain ⟨k, v⟩ := e
    by_cases h : k = key
    · simp [insert, h]
    · have h' : ¬ key = k := fun e => h e.symm
      simp only [insert, h, if_false, keys_cons, ih, List.mem_cons, h', false_or]
      split <;> rfl

theorem keys_erase (key : String) (es : List (String × α)) :
    keys (erase key es) = (keys es).filter (· ≠ key) := by
  simp [keys, erase, List.filter_map, Function.comp_def]

theorem nodup_insert {key : String} {value : α} {es : List (String × α)} (h : (keys es).Nodup) :
    (keys (insert key value es)).Nodup := by
  rw [keys_insert]
  split
  · exact h
  next hk =>
    rw [List.nodup_append]
    refine ⟨h, by simp, ?_⟩
    intro a ha b hb e
    simp only [List.mem_singleton] at hb
    exact hk (hb ▸ e ▸ ha)

theorem nodup_erase {key : String} {es : List (String × α)} (h : (keys es).Nodup) :
    (keys (erase key es)).Nodup := by
  rw [keys_erase]
  exact h.filter _

theorem lookup_cons (k : String) (e : String × α) (es : List (String × α)) :
    (e :: es).lookup k = if k = e.1 then some e.2 else es.lookup k := by
  obtain ⟨k', v⟩ := e
  by_cases h : k = k'
  · subst h
    simp
  · simp [List.lookup_cons, beq_eq_false_iff_ne.mpr h, h]

/-- Only the key that is inserted changes its value. -/
theorem lookup_insert (key k : String) (value : α) (es : List (String × α)) :
    (insert key value es).lookup k = if k = key then some value else es.lookup k := by
  induction es with
  | nil => simp [insert, lookup_cons]
  | cons e es ih =>
    obtain ⟨k', v⟩ := e
    by_cases h : k' = key
    · subst h
      by_cases hk : k = k' <;> simp [insert, lookup_cons, hk]
    · by_cases hk : k = k'
      · subst hk
        simp [insert, h]
      · simp [insert, lookup_cons, h, hk, ih]

/-- An erased key is not found, and no other key is lost. -/
theorem lookup_erase (key k : String) (es : List (String × α)) :
    (erase key es).lookup k = if k = key then none else es.lookup k := by
  induction es with
  | nil => simp [erase]
  | cons e es ih =>
    obtain ⟨k', v⟩ := e
    unfold erase at ih ⊢
    by_cases h : k' = key
    · subst h
      by_cases hk : k = k'
      · subst hk
        simpa using ih
      · simpa [lookup_cons, hk] using ih
    · rw [List.filter_cons_of_pos (by simpa using h), lookup_cons, lookup_cons, ih]
      by_cases hk : k = k'
      · subst hk
        simp [h]
      · simp [hk]

theorem lookup_isSome {key : String} {es : List (String × α)} :
    (es.lookup key).isSome ↔ key ∈ keys es := by
  induction es with
  | nil => simp
  | cons e es ih =>
    by_cases h : key = e.1
    · simp [lookup_cons, h]
    · simp [lookup_cons, h, ih]

/-- With no key repeated, an entry is what its key leads to. -/
theorem lookup_of_mem {key : String} {value : α} {es : List (String × α)}
    (hn : (keys es).Nodup) (h : (key, value) ∈ es) : es.lookup key = some value := by
  induction es with
  | nil => cases h
  | cons e es ih =>
    rw [keys_cons, List.nodup_cons] at hn
    rw [lookup_cons]
    rcases List.mem_cons.mp h with rfl | he
    · simp
    · have hk : key ≠ e.1 := fun hk => hn.1 (hk ▸ mem_keys.mpr ⟨value, he⟩)
      rw [if_neg hk, ih hn.2 he]

/-- What a key leads to is one of the entries. -/
theorem mem_of_lookup {key : String} {value : α} {es : List (String × α)}
    (h : es.lookup key = some value) : (key, value) ∈ es := by
  induction es with
  | nil => cases h
  | cons e es ih =>
    rw [lookup_cons] at h
    split at h
    next hk =>
      cases h
      exact hk ▸ List.mem_cons_self
    next => exact List.mem_cons_of_mem _ (ih h)

theorem keys_filterMap_sublist {β : Type} (f : α → Option β) (es : List (String × α)) :
    (keys (es.filterMap fun e => (f e.2).map fun b => (e.1, b))).Sublist (keys es) := by
  induction es with
  | nil => exact List.Sublist.refl _
  | cons e es ih =>
    rw [List.filterMap_cons]
    cases f e.2 with
    | none => exact ih.cons _
    | some b => exact ih.cons_cons _

end Entries

/-! ## The map -/

/-- A map from texts that keeps the order of its keys. -/
structure OrderedMap (α : Type) where
  entries : List (String × α)
  keys_nodup : (Entries.keys entries).Nodup

namespace OrderedMap

variable {α β : Type}

@[ext] theorem ext {m n : OrderedMap α} (h : m.entries = n.entries) : m = n := by
  cases m
  cases n
  cases h
  rfl

def empty : OrderedMap α := ⟨[], List.nodup_nil⟩

instance : EmptyCollection (OrderedMap α) := ⟨empty⟩

instance : Inhabited (OrderedMap α) := ⟨empty⟩

def keys (m : OrderedMap α) : List String := Entries.keys m.entries

def size (m : OrderedMap α) : Nat := m.entries.length

def isEmpty (m : OrderedMap α) : Bool := m.entries.isEmpty

def get? (m : OrderedMap α) (key : String) : Option α := m.entries.lookup key

def contains (m : OrderedMap α) (key : String) : Bool := (m.get? key).isSome

/-- Sets the value of a key, in its place when the key is present, else at the end. -/
def insert (m : OrderedMap α) (key : String) (value : α) : OrderedMap α :=
  ⟨Entries.insert key value m.entries, Entries.nodup_insert m.keys_nodup⟩

/-- Sets the value of a key that is not present yet; a present key is left as it is. -/
def insertNew (m : OrderedMap α) (key : String) (value : α) : OrderedMap α :=
  if m.contains key then m else m.insert key value

def erase (m : OrderedMap α) (key : String) : OrderedMap α :=
  ⟨Entries.erase key m.entries, Entries.nodup_erase m.keys_nodup⟩

/-- Sets the value of a key and moves the key to the end. -/
def setLast (m : OrderedMap α) (key : String) (value : α) : OrderedMap α :=
  (m.erase key).insert key value

/-- Sets the given entries one after the other. -/
def insertAll (m : OrderedMap α) (es : List (String × α)) : OrderedMap α :=
  es.foldl (fun acc e => acc.insert e.1 e.2) m

/-- The map of a list of entries: a repeated key has its first place and its last value. -/
def ofList (es : List (String × α)) : OrderedMap α := empty.insertAll es

def single (key : String) (value : α) : OrderedMap α := ⟨[(key, value)], by simp⟩

/-- The entries that `f` keeps, with their new values. -/
def filterMap (f : α → Option β) (m : OrderedMap α) : OrderedMap β where
  entries := m.entries.filterMap fun e => (f e.2).map fun b => (e.1, b)
  keys_nodup := by
    exact (Entries.keys_filterMap_sublist f m.entries).nodup m.keys_nodup

/-- Two maps with the same keys, in any order, and values that `same` takes for equal. -/
def sameEntries (same : α → α → Bool) (m n : OrderedMap α) : Bool :=
  m.size == n.size && m.entries.all fun e => (n.get? e.1).any (same e.2)

/-! ## Look-up -/

@[simp] theorem get?_empty (key : String) : (empty : OrderedMap α).get? key = none := rfl

@[simp] theorem get?_insert (m : OrderedMap α) (key k : String) (value : α) :
    (m.insert key value).get? k = if k = key then some value else m.get? k :=
  Entries.lookup_insert key k value m.entries

@[simp] theorem get?_erase (m : OrderedMap α) (key k : String) :
    (m.erase key).get? k = if k = key then none else m.get? k :=
  Entries.lookup_erase key k m.entries

@[simp] theorem get?_setLast (m : OrderedMap α) (key k : String) (value : α) :
    (m.setLast key value).get? k = if k = key then some value else m.get? k := by
  unfold setLast
  rw [get?_insert, get?_erase]
  split <;> rfl

/-- A key that has a value already keeps it. -/
theorem get?_insertNew (m : OrderedMap α) (key k : String) (value : α) :
    (m.insertNew key value).get? k
      = if k = key ∧ m.get? key = none then some value else m.get? k := by
  unfold insertNew contains
  cases h : m.get? key with
  | none => simp
  | some v => simp

theorem contains_iff {m : OrderedMap α} {key : String} : m.contains key ↔ key ∈ m.keys :=
  Entries.lookup_isSome

theorem get?_of_mem {m : OrderedMap α} {key : String} {value : α}
    (h : (key, value) ∈ m.entries) : m.get? key = some value :=
  Entries.lookup_of_mem m.keys_nodup h

theorem mem_of_get? {m : OrderedMap α} {key : String} {value : α}
    (h : m.get? key = some value) : (key, value) ∈ m.entries :=
  Entries.mem_of_lookup h

/-! ## Order -/

@[simp] theorem keys_empty : (empty : OrderedMap α).keys = [] := rfl

theorem keys_insert (m : OrderedMap α) (key : String) (value : α) :
    (m.insert key value).keys = if key ∈ m.keys then m.keys else m.keys ++ [key] :=
  Entries.keys_insert key value m.entries

theorem keys_erase (m : OrderedMap α) (key : String) :
    (m.erase key).keys = m.keys.filter (· ≠ key) :=
  Entries.keys_erase key m.entries

/-- The key comes last, also when it had a place before. -/
theorem keys_setLast (m : OrderedMap α) (key : String) (value : α) :
    (m.setLast key value).keys = m.keys.filter (· ≠ key) ++ [key] := by
  unfold setLast
  rw [keys_insert, keys_erase, if_neg (by simp)]

end OrderedMap

end HookStyle
