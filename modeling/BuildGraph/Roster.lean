/-!
# Rosters

Lists of things that have names. `Named.put` puts a thing in the place of the one of its name, or at
the end if there is none; `Named.find?` finds a thing by its name. A `Roster` is such a list in which
no name occurs twice, so that it is at once a list with an order and a finite map from names.
-/

namespace BuildGraph

/-- Things that have a name. -/
class Named (α : Type) where
  name : α → String

namespace Named

variable {α : Type} [Named α]

/-- The names of a list of things. -/
def names (xs : List α) : List String := xs.map name

/-- The first thing of the name `n`. -/
def find? (xs : List α) (n : String) : Option α := xs.find? (name · == n)

/-- Puts `x` in the place of the first thing of its name, or at the end. -/
def put (x : α) : List α → List α
  | [] => [x]
  | y :: rest => if name y = name x then x :: rest else y :: put x rest

theorem find?_isSome_iff {xs : List α} {n : String} : (find? xs n).isSome ↔ n ∈ names xs := by
  simp [find?, names, List.find?_isSome]

theorem find?_eq_none_iff {xs : List α} {n : String} : find? xs n = none ↔ n ∉ names xs := by
  rw [← find?_isSome_iff, Option.isSome_iff_ne_none, Classical.not_not]

theorem find?_cons (x : α) (xs : List α) (n : String) :
    find? (x :: xs) n = if name x = n then some x else find? xs n := by
  by_cases h : name x = n <;> simp [find?, h]

theorem name_of_find? {xs : List α} {n : String} {x : α} (h : find? xs n = some x) :
    name x = n := by
  simpa [find?] using List.find?_some h

theorem mem_of_find? {xs : List α} {n : String} {x : α} (h : find? xs n = some x) : x ∈ xs :=
  List.mem_of_find?_eq_some h

/-- A new name goes to the end of the names, a known one leaves them alone. -/
theorem names_put (x : α) (xs : List α) :
    names (put x xs) = if name x ∈ names xs then names xs else names xs ++ [name x] := by
  induction xs with
  | nil => simp [names, put]
  | cons y rest ih =>
    by_cases h : name y = name x
    · simp [names, put, h]
    · have h' : name x ≠ name y := fun e => h e.symm
      simp only [names] at ih
      simp only [put, if_neg h, names, List.map_cons, ih]
      by_cases hm : name x ∈ rest.map name <;> simp [hm, h']

/-- After `put` the name has the new thing and every other name its old one. -/
theorem find?_put (x : α) (xs : List α) (n : String) :
    find? (put x xs) n = if name x = n then some x else find? xs n := by
  induction xs with
  | nil => by_cases h : name x = n <;> simp [find?, put, h]
  | cons y rest ih =>
    by_cases hy : name y = name x
    · by_cases h : name x = n
      · simp [find?, put, hy, h]
      · simp [find?, put, hy, h]
    · simp only [find?] at ih
      by_cases h : name y = n
      · subst h
        have : ¬name x = name y := fun e => hy e.symm
        simp [find?, put, hy, this]
      · simp [find?, put, hy, h, ih]

/-- A thing of a new name goes to the end. -/
theorem put_of_not_mem {x : α} {xs : List α} (h : name x ∉ names xs) : put x xs = xs ++ [x] := by
  induction xs with
  | nil => rfl
  | cons y rest ih =>
    obtain ⟨hne, hrest⟩ := not_or.1 (mt List.mem_cons.2 h)
    rw [put, if_neg fun heq => hne heq.symm, ih hrest, List.cons_append]

/-- A thing of a name that is there takes its place. -/
theorem put_eq_map {x : α} {xs : List α} (hx : name x ∈ names xs) (hxs : (names xs).Nodup) :
    put x xs = xs.map fun y => if name y = name x then x else y := by
  induction xs with
  | nil => cases hx
  | cons y rest ih =>
    obtain ⟨hnew, hrest⟩ := List.nodup_cons.1 hxs
    by_cases h : name y = name x
    · have hothers : rest.map (fun z => if name z = name x then x else z) = rest := by
        refine (List.map_congr_left fun z hz => ?_).trans (List.map_id rest)
        have hne : name z ≠ name x := fun heq =>
          hnew ((heq.trans h.symm) ▸ List.mem_map_of_mem hz)
        rw [if_neg hne, id]
      rw [put, if_pos h, List.map_cons, if_pos h, hothers]
    · have hlater : name x ∈ names rest := (List.mem_cons.1 hx).resolve_left fun heq => h heq.symm
      rw [put, if_neg h, List.map_cons, if_neg h, ih hlater hrest]

/-- `put` brings in nothing but the new thing. -/
theorem mem_of_mem_put {x y : α} {xs : List α} (h : y ∈ put x xs) : y = x ∨ y ∈ xs := by
  induction xs with
  | nil => simpa [put] using h
  | cons z rest ih =>
    rw [put] at h
    split at h
    · rcases List.mem_cons.1 h with rfl | hr
      · exact .inl rfl
      · exact .inr (List.mem_cons_of_mem _ hr)
    · rcases List.mem_cons.1 h with rfl | hr
      · exact .inr List.mem_cons_self
      · exact (ih hr).imp_right (List.mem_cons_of_mem _)

/-- Where no name occurs twice, what is in a list is found under its name. -/
theorem find?_name_of_mem {x : α} {xs : List α} (hxs : (names xs).Nodup) (h : x ∈ xs) :
    find? xs (name x) = some x := by
  induction xs with
  | nil => cases h
  | cons y rest ih =>
    obtain ⟨hnew, hrest⟩ := List.nodup_cons.1 hxs
    rw [find?_cons]
    rcases List.mem_cons.1 h with rfl | hlater
    · rw [if_pos rfl]
    · have hne : name y ≠ name x := fun heq => hnew (heq ▸ List.mem_map_of_mem hlater)
      rw [if_neg hne, ih hrest hlater]

/-- Where no name occurs twice, names tell the orders of the same things apart. -/
theorem eq_of_names_eq {xs ys : List α} (hnames : names xs = names ys) (hys : (names ys).Nodup)
    (hsubset : xs ⊆ ys) : xs = ys := by
  have hlength : xs.length = ys.length := by
    simpa only [names, List.length_map] using congrArg List.length hnames
  refine List.ext_getElem hlength fun i hi hi' => ?_
  have hname : name xs[i] = name ys[i] := by
    have hat := congrArg (·[i]?) hnames
    simpa [names, hi, hi'] using hat
  have hfound := find?_name_of_mem hys (hsubset (List.getElem_mem hi))
  rw [hname, find?_name_of_mem hys (List.getElem_mem hi')] at hfound
  exact (Option.some.inj hfound).symm

theorem nodup_names_put (x : α) {xs : List α} (h : (names xs).Nodup) :
    (names (put x xs)).Nodup := by
  rw [names_put]
  split
  · exact h
  · next hn => exact (List.perm_append_singleton _ _).nodup_iff.2 (List.nodup_cons.2 ⟨hn, h⟩)

end Named

/-- A list of things of distinct names. -/
structure Roster (α : Type) [Named α] where
  /-- The things, in order. -/
  toList : List α
  /-- No name occurs twice. -/
  nodup : (Named.names toList).Nodup
  deriving DecidableEq

namespace Roster

variable {α : Type} [Named α]

/-- The roster of nothing. -/
def empty : Roster α := ⟨[], by simp [Named.names]⟩

instance : Inhabited (Roster α) := ⟨empty⟩

/-- The names, in order. -/
def names (r : Roster α) : List String := Named.names r.toList

/-- The thing of the name `n`. -/
def find? (r : Roster α) (n : String) : Option α := Named.find? r.toList n

/-- Puts `x` in the place of the thing of its name, or at the end. -/
def put (r : Roster α) (x : α) : Roster α :=
  ⟨Named.put x r.toList, Named.nodup_names_put x r.nodup⟩

/-- Changes every thing, but for its name. -/
def map (r : Roster α) (f : α → α) (h : ∀ x, Named.name (f x) = Named.name x) : Roster α :=
  ⟨r.toList.map f, by
    have : Named.names (r.toList.map f) = Named.names r.toList := by
      simp [Named.names, Function.comp_def, h]
    rw [this]
    exact r.nodup⟩

@[simp] theorem toList_empty : (empty : Roster α).toList = [] := rfl

@[simp] theorem toList_put (r : Roster α) (x : α) : (r.put x).toList = Named.put x r.toList := rfl

theorem find?_isSome_iff {r : Roster α} {n : String} : (r.find? n).isSome ↔ n ∈ r.names :=
  Named.find?_isSome_iff

@[simp] theorem find?_put (r : Roster α) (x : α) (n : String) :
    (r.put x).find? n = if Named.name x = n then some x else r.find? n :=
  Named.find?_put x r.toList n

theorem find?_put_self {r : Roster α} {x : α} {n : String} (h : Named.name x = n) :
    (r.put x).find? n = some x := by
  rw [find?_put, if_pos h]

theorem find?_put_of_ne {r : Roster α} {x : α} {n : String} (h : Named.name x ≠ n) :
    (r.put x).find? n = r.find? n := by
  rw [find?_put, if_neg h]

/-- `put` loses no name. -/
theorem find?_put_isSome (x : α) {r : Roster α} {n : String} (h : (r.find? n).isSome) :
    ((r.put x).find? n).isSome := by
  rw [find?_put]
  split
  · rfl
  · exact h

/-- A thing of a free name goes to the end. -/
theorem toList_put_of_free {r : Roster α} {x : α} (h : r.find? (Named.name x) = none) :
    (r.put x).toList = r.toList ++ [x] :=
  Named.put_of_not_mem fun hn => by simpa [h] using find?_isSome_iff.2 hn

/-- A thing of a name that is there takes its place. -/
theorem toList_put_of_mem {r : Roster α} {x : α} (h : Named.name x ∈ r.names) :
    (r.put x).toList = r.toList.map fun y => if Named.name y = Named.name x then x else y :=
  Named.put_eq_map h r.nodup

theorem eq_of_toList_eq {r s : Roster α} (h : r.toList = s.toList) : r = s := by
  cases r
  cases s
  congr

theorem names_put (r : Roster α) (x : α) :
    (r.put x).names = if Named.name x ∈ r.names then r.names else r.names ++ [Named.name x] :=
  Named.names_put x r.toList

/-- What is in a roster is found under its name. -/
theorem find?_name_of_mem {r : Roster α} {x : α} (h : x ∈ r.toList) :
    r.find? (Named.name x) = some x :=
  Named.find?_name_of_mem r.nodup h

theorem mem_toList_iff {r : Roster α} {x : α} :
    x ∈ r.toList ↔ r.find? (Named.name x) = some x :=
  ⟨find?_name_of_mem, Named.mem_of_find?⟩

/-- After `put` a roster holds the new thing and the old things of other names. -/
theorem mem_put_iff {r : Roster α} {x y : α} :
    y ∈ (r.put x).toList ↔ y = x ∨ Named.name x ≠ Named.name y ∧ y ∈ r.toList := by
  rw [mem_toList_iff, find?_put, mem_toList_iff]
  by_cases h : Named.name x = Named.name y
  · simp [h, eq_comm]
  · have hne : y ≠ x := by
      rintro rfl
      exact h rfl
    simp [h, hne]

/-- What holds of the new thing and of the old things holds of all after `put`. -/
theorem forall_mem_put {p : α → Prop} {r : Roster α} {x : α} (hx : p x)
    (hr : ∀ y ∈ r.toList, p y) : ∀ y ∈ (r.put x).toList, p y := by
  intro y hy
  rcases mem_put_iff.1 hy with rfl | ⟨-, hold⟩
  · exact hx
  · exact hr y hold

end Roster

end BuildGraph
