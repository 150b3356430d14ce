import BuildGraph.Proofs.Document.Kept
import Mathlib.Data.List.Induction

/-!
# Keyed lists of pairs

`Keyed.ofPairs` says what putting pairs into a keyed list, one after the other, comes to: a key
stands where it is met first, with the value that it is met with last.
-/

namespace BuildGraph

namespace Keyed

variable {α : Type}

/-- Each key of the pairs once, where it is met first, with the value that it is met with last. -/
def ofPairs (pairs : List (String × α)) : List (String × α) :=
  (keys pairs).eraseDups.filterMap fun key => (pairs.reverse.lookup key).map (key, ·)

theorem ext {a b : List (String × α)} (hkeys : keys a = keys b) (hdistinct : (keys a).Nodup)
    (hvalues : ∀ key, a.lookup key = b.lookup key) : a = b := by
  induction a generalizing b with
  | nil => exact (List.map_eq_nil_iff.1 hkeys.symm).symm
  | cons first rest ih =>
    cases b with
    | nil => cases hkeys
    | cons other others =>
      obtain ⟨k, v⟩ := first
      obtain ⟨k', v'⟩ := other
      obtain ⟨rfl, hrest⟩ := List.cons.inj hkeys
      obtain ⟨hk, hdistinct⟩ := List.nodup_cons.1 hdistinct
      have hv : v = v' := by simpa using hvalues k
      rw [hv, ih hrest hdistinct fun key => ?_]
      by_cases hkey : key = k
      · have hk' : k ∉ keys others := (congrArg (k ∉ ·) hrest).mp hk
        rw [hkey, lookup_eq_none_iff.2 hk, lookup_eq_none_iff.2 hk']
      · have hne : (key == k) = false := by simpa using hkey
        have hvalue := hvalues key
        rwa [List.lookup_cons, List.lookup_cons, hne] at hvalue

theorem eraseDups_concat (names : List String) (n : String) :
    (names ++ [n]).eraseDups = if n ∈ names then names.eraseDups else names.eraseDups ++ [n] := by
  rw [List.eraseDups_append]
  by_cases h : n ∈ names
  · simp [h, List.removeAll]
  · simp [h, List.removeAll, List.eraseDups_cons]

theorem nodup_eraseDups (names : List String) : names.eraseDups.Nodup := by
  induction names using List.reverseRecOn with
  | nil => exact List.nodup_nil
  | append_singleton names n ih =>
    rw [eraseDups_concat]
    split
    · exact ih
    · next h =>
      have hn : n ∉ names.eraseDups := fun hmem => h (List.mem_eraseDups.1 hmem)
      exact (List.perm_append_singleton _ _).nodup_iff.2 (List.nodup_cons.2 ⟨hn, ih⟩)

theorem keys_filterMap (names : List String) (value : String → Option α) :
    keys (names.filterMap fun n => (value n).map (n, ·)) =
      names.filter fun n => (value n).isSome := by
  induction names with
  | nil => rfl
  | cons n rest ih =>
    cases h : value n with
    | none => simpa [h] using ih
    | some v =>
      simp only [keys] at ih
      simp [h, keys, ih]

theorem lookup_filterMap (names : List String) (value : String → Option α) (key : String) :
    (names.filterMap fun n => (value n).map (n, ·)).lookup key =
      if key ∈ names then value key else none := by
  induction names with
  | nil => rfl
  | cons n rest ih =>
    by_cases hkey : key = n
    · subst hkey
      cases h : value key with
      | none => simp [h, ih]
      | some v => simp [h]
    · have hne : (key == n) = false := by simpa using hkey
      cases h : value n with
      | none => simp [h, ih, hkey]
      | some v => simp [h, ih, hkey, List.lookup_cons, hne]

theorem keys_ofPairs (pairs : List (String × α)) :
    keys (ofPairs pairs) = (keys pairs).eraseDups := by
  rw [ofPairs, keys_filterMap, List.filter_eq_self]
  intro key hkey
  rw [lookup_isSome_iff, keys, List.map_reverse, List.mem_reverse]
  exact List.mem_eraseDups.1 hkey

theorem nodup_keys_ofPairs (pairs : List (String × α)) : (keys (ofPairs pairs)).Nodup :=
  keys_ofPairs pairs ▸ nodup_eraseDups _

theorem lookup_ofPairs (pairs : List (String × α)) (key : String) :
    (ofPairs pairs).lookup key = pairs.reverse.lookup key := by
  rw [ofPairs, lookup_filterMap]
  split
  · rfl
  · next h =>
    refine (lookup_eq_none_iff.2 fun hkey => h ?_).symm
    rw [keys, List.map_reverse, List.mem_reverse] at hkey
    exact List.mem_eraseDups.2 hkey

/-- One more pair puts its value where the key is, or behind the others. -/
theorem ofPairs_concat (pairs : List (String × α)) (key : String) (value : α) :
    ofPairs (pairs ++ [(key, value)]) = insert key value (ofPairs pairs) := by
  have hconcat : keys (pairs ++ [(key, value)]) = keys pairs ++ [key] := List.map_append
  refine ext ?_ (nodup_keys_ofPairs _) fun other => ?_
  · rw [keys_insert, keys_ofPairs, keys_ofPairs, hconcat, eraseDups_concat]
    by_cases h : key ∈ keys pairs
    · rw [if_pos h, if_pos (List.mem_eraseDups.2 h)]
    · rw [if_neg h, if_neg fun hmem => h (List.mem_eraseDups.1 hmem)]
  · rw [lookup_insert, lookup_ofPairs, lookup_ofPairs, List.reverse_concat, List.lookup_cons]
    by_cases h : other = key
    · simp [h]
    · have hne : (other == key) = false := by simpa using h
      rw [hne, if_neg h]

theorem isEmpty_ofPairs (pairs : List (String × α)) : (ofPairs pairs).isEmpty = pairs.isEmpty := by
  cases pairs with
  | nil => rfl
  | cons first rest =>
    have hkeys := keys_ofPairs (first :: rest)
    rw [show keys (first :: rest) = first.1 :: keys rest from rfl, List.eraseDups_cons] at hkeys
    cases h : ofPairs (first :: rest) with
    | nil =>
      rw [h] at hkeys
      cases hkeys
    | cons => rfl

theorem mem_of_mem_ofPairs {pairs : List (String × α)} {pair : String × α}
    (h : pair ∈ ofPairs pairs) : pair ∈ pairs := by
  obtain ⟨key, -, hvalue⟩ := List.mem_filterMap.1 h
  obtain ⟨value, hlookup, rfl⟩ := Option.map_eq_some_iff.1 hvalue
  exact List.mem_reverse.1 (mem_of_lookup hlookup)

end Keyed

end BuildGraph
