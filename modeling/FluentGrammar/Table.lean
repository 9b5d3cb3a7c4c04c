/-!
# Tables

Finite maps from texts that remember the order in which their keys came in. A value that is stored
under a key already there takes the place of the old one, so the order of the keys is the order of
their first arrival.

* `Table.get?`, `Table.insert`, `Table.modify`: look up, store, change in place.
* `Table.get?_insert`, `Table.keys_insert`: what storing does to the values and to the keys.
-/

namespace FluentGrammar

/-- Entries in order of arrival, no two of which have the same key. -/
structure Table (α : Type) where
  entries : List (String × α)
  nodup : (entries.map Prod.fst).Nodup
deriving DecidableEq

namespace Table

variable {α : Type}

instance : EmptyCollection (Table α) := ⟨⟨[], by simp⟩⟩

instance : Inhabited (Table α) := ⟨∅⟩

/-- The keys in order of arrival. -/
def keys (t : Table α) : List String :=
  t.entries.map Prod.fst

/-- The values in the order of their keys. -/
def values (t : Table α) : List α :=
  t.entries.map Prod.snd

/-- The value stored under a key. -/
def get? (t : Table α) (key : String) : Option α :=
  t.entries.lookup key

/-- A key under which something is stored. -/
def contains (t : Table α) (key : String) : Bool :=
  (t.get? key).isSome

/-- The number of entries. -/
def size (t : Table α) : Nat :=
  t.entries.length

/-- The table with the value under `key` changed by `f`. -/
def modify (t : Table α) (key : String) (f : α → α) : Table α where
  entries := t.entries.map fun e => (e.1, if e.1 = key then f e.2 else e.2)
  nodup := by simpa [Function.comp_def] using t.nodup

/-- The table with `value` stored under `key`, in the place of the old value if there is one and
at the end otherwise. -/
def insert (t : Table α) (key : String) (value : α) : Table α :=
  if h : key ∈ t.entries.map Prod.fst then
    t.modify key fun _ => value
  else
    { entries := t.entries ++ [(key, value)]
      nodup := by
        rw [List.map_append, List.nodup_append]
        exact ⟨t.nodup, by simp, by simpa using fun a b hab heq => h (by
          subst heq; exact List.mem_map.mpr ⟨_, hab, rfl⟩)⟩ }

/-- The table with `value` stored under `key` unless something is there already. -/
def insertNew (t : Table α) (key : String) (value : α) : Table α :=
  if t.contains key then t else t.insert key value

/-! ## Keys -/

theorem entries_insert_of_not_mem {t : Table α} {key : String} (h : key ∉ t.keys) (value : α) :
    (t.insert key value).entries = t.entries ++ [(key, value)] := by
  rw [insert, dif_neg (show key ∉ t.entries.map Prod.fst from h)]

@[simp] theorem keys_empty : (∅ : Table α).keys = [] := rfl

@[simp] theorem keys_modify (t : Table α) (key : String) (f : α → α) :
    (t.modify key f).keys = t.keys := by
  simp [keys, modify, Function.comp_def]

theorem keys_insert (t : Table α) (key : String) (value : α) :
    (t.insert key value).keys = if key ∈ t.keys then t.keys else t.keys ++ [key] := by
  unfold insert
  split <;> rename_i h
  · rw [keys_modify, if_pos (show key ∈ t.keys from h)]
  · rw [if_neg (show key ∉ t.keys from h)]
    simp [keys]

theorem nodup_keys (t : Table α) : t.keys.Nodup := t.nodup

/-! ## Look-up -/

theorem get?_eq_none_iff {t : Table α} {key : String} : t.get? key = none ↔ key ∉ t.keys := by
  obtain ⟨es, h⟩ := t
  simp only [get?, keys]
  clear h
  induction es with
  | nil => simp
  | cons e es ih =>
    obtain ⟨k, v⟩ := e
    rw [List.lookup_cons, List.map_cons, List.mem_cons, not_or, ← ih]
    by_cases hk : key = k
    · simp [hk]
    · have : (key == k) = false := by simpa using hk
      simp [this, hk]

theorem contains_iff {t : Table α} {key : String} : t.contains key = true ↔ key ∈ t.keys := by
  rw [contains, Option.isSome_iff_ne_none, Ne, get?_eq_none_iff, Decidable.not_not]

theorem exists_get?_of_mem_keys {t : Table α} {key : String} (h : key ∈ t.keys) :
    ∃ value, t.get? key = some value :=
  Option.ne_none_iff_exists'.mp fun hnone => get?_eq_none_iff.mp hnone h

theorem mem_entries_of_get? {t : Table α} {key : String} {value : α} (h : t.get? key = some value) :
    (key, value) ∈ t.entries := by
  obtain ⟨es, hn⟩ := t
  simp only [get?] at h ⊢
  clear hn
  induction es with
  | nil => simp at h
  | cons e es ih =>
    obtain ⟨k, v⟩ := e
    rw [List.lookup_cons] at h
    by_cases hk : key = k
    · simp only [hk, BEq.rfl, Option.some.injEq] at h
      simp [hk, h]
    · have : (key == k) = false := by simpa using hk
      rw [this] at h
      exact List.mem_cons_of_mem _ (ih h)

theorem get?_eq_some_iff {t : Table α} {key : String} {value : α} :
    t.get? key = some value ↔ (key, value) ∈ t.entries := by
  refine ⟨mem_entries_of_get?, ?_⟩
  obtain ⟨es, hn⟩ := t
  simp only [get?]
  induction es with
  | nil => simp
  | cons e es ih =>
    obtain ⟨k, v⟩ := e
    obtain ⟨hk, hes⟩ := List.nodup_cons.mp hn
    intro hm
    rw [List.lookup_cons]
    rcases List.mem_cons.mp hm with he | hm
    · simp [Prod.mk.inj he]
    · have : (key == k) = false := by
        simpa using fun he : key = k => hk (he ▸ List.mem_map.mpr ⟨_, hm, rfl⟩)
      rw [this]
      exact ih hes hm

theorem get?_modify (t : Table α) (key other : String) (f : α → α) :
    (t.modify key f).get? other = if other = key then (t.get? other).map f else t.get? other := by
  obtain ⟨es, hn⟩ := t
  simp only [get?, modify]
  clear hn
  induction es with
  | nil => simp
  | cons e es ih =>
    obtain ⟨k, v⟩ := e
    simp only [List.map_cons, List.lookup_cons]
    by_cases ho : other = k
    · subst ho
      by_cases hk : other = key <;> simp [hk]
    · have : (other == k) = false := by simpa using ho
      simp only [this, ih]

theorem get?_insert (t : Table α) (key other : String) (value : α) :
    (t.insert key value).get? other = if other = key then some value else t.get? other := by
  unfold insert
  split <;> rename_i h
  · rw [get?_modify]
    split <;> rename_i ho
    · subst ho
      obtain ⟨v, hv⟩ := exists_get?_of_mem_keys h
      simp [hv]
    · rfl
  · have hn : t.entries.lookup key = none := get?_eq_none_iff.mpr h
    simp only [get?, List.lookup_append, List.lookup_cons, List.lookup_nil]
    by_cases ho : other = key
    · subst ho
      simp [hn]
    · have : (other == key) = false := by simpa using ho
      simp [this, ho]

end Table

end FluentGrammar
