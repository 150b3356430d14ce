/-!
# Keyed lists

Lists of key and value pairs read as finite maps with an order: `List.lookup` finds the first value
of a key, `insert` replaces a value where it stands or appends a new pair, `erase` takes a pair out
and leaves the order of the others. `insert` and `erase` keep keys distinct.
-/

namespace BuildGraph.Keyed

variable {α : Type _}

/-- The keys of a keyed list, in order. -/
def keys (members : List (String × α)) : List String :=
  members.map Prod.fst

/-- Puts a value under a key: in place if the key is there, at the end otherwise. -/
def insert (key : String) (value : α) : List (String × α) → List (String × α)
  | [] => [(key, value)]
  | (k, v) :: rest => if k = key then (k, value) :: rest else (k, v) :: insert key value rest

/-- Takes the first pair with the key out. -/
def erase (key : String) : List (String × α) → List (String × α)
  | [] => []
  | (k, v) :: rest => if k = key then rest else (k, v) :: erase key rest

theorem lookup_isSome_iff {key : String} {members : List (String × α)} :
    (members.lookup key).isSome ↔ key ∈ keys members := by
  induction members with
  | nil => simp [keys]
  | cons m rest ih =>
    obtain ⟨k, v⟩ := m
    by_cases h : key = k
    · subst h; simp [keys]
    · have hb : (key == k) = false := by simpa using h
      simp only [List.lookup_cons, hb, keys, List.map_cons, List.mem_cons, h, false_or]
      exact ih

theorem lookup_eq_none_iff {key : String} {members : List (String × α)} :
    members.lookup key = none ↔ key ∉ keys members := by
  rw [← lookup_isSome_iff]
  cases members.lookup key <;> simp

/-- What is found after a pair was added was there before, or is that pair. -/
theorem lookup_append_singleton {key other : String} {value found : α} {members : List (String × α)}
    (h : (members ++ [(key, value)]).lookup other = some found) :
    members.lookup other = some found ∨ other = key ∧ value = found := by
  rw [List.lookup_append, Option.or_eq_some_iff] at h
  rcases h with hold | ⟨-, hnew⟩
  · exact .inl hold
  · by_cases hkey : other = key
    · exact .inr ⟨hkey, by simpa [hkey] using hnew⟩
    · have hne : (other == key) = false := by simpa using hkey
      simp [List.lookup_cons, hne] at hnew

/-- A new key goes to the end of the keys, a known one leaves them alone. -/
theorem keys_insert (key : String) (value : α) (members : List (String × α)) :
    keys (insert key value members) =
      if key ∈ keys members then keys members else keys members ++ [key] := by
  induction members with
  | nil => simp [keys, insert]
  | cons m rest ih =>
    obtain ⟨k, v⟩ := m
    by_cases h : k = key
    · subst h; simp [keys, insert]
    · have h' : key ≠ k := fun e => h e.symm
      simp only [insert, if_neg h]
      simp only [keys] at ih
      simp only [keys, List.map_cons, ih]
      by_cases hm : key ∈ rest.map Prod.fst <;> simp [hm, h']

/-- After `insert` the key has the new value and every other key its old one. -/
theorem lookup_insert (key other : String) (value : α) (members : List (String × α)) :
    (insert key value members).lookup other =
      if other = key then some value else members.lookup other := by
  induction members with
  | nil =>
    by_cases h : other = key
    · simp [insert, h]
    · have hb : (other == key) = false := by simpa using h
      simp [insert, List.lookup_cons, hb, h]
  | cons m rest ih =>
    obtain ⟨k, v⟩ := m
    by_cases hk : k = key
    · subst hk
      by_cases h : other = k
      · simp [insert, h]
      · have hb : (other == k) = false := by simpa using h
        simp [insert, List.lookup_cons, hb, h]
    · simp only [insert, if_neg hk]
      by_cases h : other = k
      · subst h; simp [hk]
      · have hb : (other == k) = false := by simpa using h
        simpa [List.lookup_cons, hb] using ih

/-- Putting a value where it stands changes nothing. -/
theorem insert_of_lookup {key : String} {value : α} {members : List (String × α)}
    (h : members.lookup key = some value) : insert key value members = members := by
  induction members with
  | nil => cases h
  | cons m rest ih =>
    obtain ⟨k, v⟩ := m
    by_cases hk : k = key
    · subst hk
      obtain rfl : v = value := by simpa using h
      rw [insert, if_pos rfl]
    · have hb : (key == k) = false := by simpa using Ne.symm hk
      rw [List.lookup_cons, hb] at h
      rw [insert, if_neg hk, ih h]

theorem mem_of_mem_insert {key : String} {value : α} {members : List (String × α)}
    {member : String × α} (h : member ∈ insert key value members) :
    member.2 = value ∨ member ∈ members := by
  induction members with
  | nil =>
    obtain rfl := List.mem_singleton.1 h
    exact .inl rfl
  | cons first rest ih =>
    obtain ⟨k, v⟩ := first
    rw [insert] at h
    split at h
    · rcases List.mem_cons.1 h with rfl | hrest
      · exact .inl rfl
      · exact .inr (List.mem_cons_of_mem _ hrest)
    · rcases List.mem_cons.1 h with rfl | hrest
      · exact .inr List.mem_cons_self
      · exact (ih hrest).imp_right (List.mem_cons_of_mem _)

theorem nodup_keys_insert (key : String) (value : α) {members : List (String × α)}
    (h : (keys members).Nodup) : (keys (insert key value members)).Nodup := by
  rw [keys_insert]
  split
  · exact h
  · next hk => exact (List.perm_append_singleton _ _).nodup_iff.2 (List.nodup_cons.2 ⟨hk, h⟩)

/-- Erasing a key leaves the other pairs in their order. -/
theorem erase_sublist (key : String) (members : List (String × α)) :
    (erase key members).Sublist members := by
  induction members with
  | nil => exact .slnil
  | cons m rest ih =>
    obtain ⟨k, v⟩ := m
    by_cases h : k = key
    · simp [erase, h]
    · simpa [erase, h] using ih

theorem nodup_keys_erase (key : String) {members : List (String × α)}
    (h : (keys members).Nodup) : (keys (erase key members)).Nodup :=
  h.sublist ((erase_sublist key members).map _)

/-- Taking a key out undoes what was put under it. -/
theorem erase_insert (key : String) (value : α) (members : List (String × α)) :
    erase key (insert key value members) = erase key members := by
  induction members with
  | nil => simp [insert, erase]
  | cons m rest ih =>
    obtain ⟨k, v⟩ := m
    by_cases hk : k = key
    · simp [insert, erase, hk]
    · simp [insert, erase, hk, ih]

/-- `erase` leaves every other key its value. -/
theorem lookup_erase_of_ne {key other : String} (h : other ≠ key) (members : List (String × α)) :
    (erase key members).lookup other = members.lookup other := by
  induction members with
  | nil => rfl
  | cons m rest ih =>
    obtain ⟨k, v⟩ := m
    by_cases hk : k = key
    · have hb : (other == k) = false := by simpa [hk] using h
      simp [erase, hk, List.lookup_cons, hk ▸ hb]
    · simp only [erase, if_neg hk, List.lookup_cons, ih]

/-- After `erase` the key is gone and every other key keeps its value, if keys were distinct. -/
theorem lookup_erase (key other : String) {members : List (String × α)}
    (h : (keys members).Nodup) :
    (erase key members).lookup other =
      if other = key then none else members.lookup other := by
  induction members with
  | nil => simp [erase]
  | cons m rest ih =>
    obtain ⟨k, v⟩ := m
    simp only [keys, List.map_cons, List.nodup_cons] at h
    by_cases hk : k = key
    · subst hk
      simp only [erase, if_pos]
      by_cases ho : other = k
      · subst ho
        simpa using lookup_eq_none_iff.2 h.1
      · have hb : (other == k) = false := by simpa using ho
        simp [List.lookup_cons, hb, ho]
    · simp only [erase, if_neg hk]
      by_cases ho : other = k
      · subst ho; simp [hk]
      · have hb : (other == k) = false := by simpa using ho
        simpa [List.lookup_cons, hb] using ih h.2

end BuildGraph.Keyed
