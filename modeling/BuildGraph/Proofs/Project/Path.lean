import BuildGraph.Project.Path

/-!
# Normal forms of paths

The normal form of a relative path goes up by `..` first and then down by names (`Settled`). Following
such components takes nothing away again, so a normal form is its own normal form.
-/

namespace BuildGraph.Path

/-- What can stand between two slashes of a relative path in normal form. -/
structure IsComponent (c : String) : Prop where
  nonempty : c ≠ ""
  moves : c ≠ "."
  slashless : '/' ∉ c.toList

/-- Whether a trail, the last component first, only goes up before it goes down. -/
def Settled (trail : List String) : Prop :=
  trail.Pairwise fun later earlier => later = parent → earlier = parent

theorem Settled.follow {trail : List String} (h : Settled trail) (c : String) :
    Settled (follow trail c) := by
  cases trail with
  | nil => exact List.pairwise_singleton _ _
  | cons last before =>
    rw [Path.follow]
    split
    · exact (List.pairwise_cons.1 h).2
    · next hkept =>
      refine List.pairwise_cons.2 ⟨?_, h⟩
      rintro earlier hearlier rfl
      have hlast : last = parent := by simpa using hkept
      rcases List.mem_cons.1 hearlier with rfl | hbefore
      · exact hlast
      · exact (List.pairwise_cons.1 h).1 earlier hbefore hlast

theorem Settled.foldl_follow {trail : List String} (h : Settled trail) (cs : List String) :
    Settled (cs.foldl Path.follow trail) := by
  induction cs generalizing trail with
  | nil => exact h
  | cons c cs ih => exact ih (h.follow c)

/-- Following the components of a settled trail only goes on. -/
theorem Settled.foldl_reverse {trail : List String} (h : Settled trail) :
    trail.reverse.foldl Path.follow [] = trail := by
  induction trail with
  | nil => rfl
  | cons c trail ih =>
    rw [List.reverse_cons, List.foldl_append, ih (List.pairwise_cons.1 h).2]
    cases trail with
    | nil => rfl
    | cons last before =>
      have hkept : ¬(c = parent && last != parent) = true := by
        have := (List.pairwise_cons.1 h).1 last List.mem_cons_self
        simpa using this
      exact if_neg hkept

theorem mem_of_mem_follow {trail : List String} {c x : String} (h : x ∈ follow trail c) :
    x = c ∨ x ∈ trail := by
  cases trail with
  | nil => exact .inl (List.mem_singleton.1 h)
  | cons last before =>
    rw [follow] at h
    split at h
    · exact .inr (List.mem_cons_of_mem _ h)
    · exact List.mem_cons.1 h

/-- Following components brings in no others. -/
theorem forall_mem_foldl_follow {p : String → Prop} {trail cs : List String}
    (htrail : ∀ c ∈ trail, p c) (hcs : ∀ c ∈ cs, p c) : ∀ c ∈ cs.foldl follow trail, p c := by
  induction cs generalizing trail with
  | nil => exact htrail
  | cons c cs ih =>
    refine ih ?_ fun x hx => hcs x (List.mem_cons_of_mem _ hx)
    intro x hx
    rcases mem_of_mem_follow hx with rfl | hold
    · exact hcs x List.mem_cons_self
    · exact htrail x hold

theorem not_mem_of_mem_splitOn {c : Char} {cs part : List Char} (h : part ∈ cs.splitOn c) :
    c ∉ part := by
  rw [List.splitOn_eq_splitOnP] at h
  induction cs generalizing part with
  | nil =>
    rw [List.splitOnP_nil, List.mem_singleton] at h
    rw [h]
    exact List.not_mem_nil
  | cons first rest ih =>
    rw [List.splitOnP_cons_eq_if_modifyHead] at h
    split at h
    · rcases List.mem_cons.1 h with rfl | hrest
      · exact List.not_mem_nil
      · exact ih hrest
    · next hfirst =>
      cases hparts : List.splitOnP (· == c) rest with
      | nil => exact absurd hparts (List.splitOnP_ne_nil _ _)
      | cons next parts =>
        rw [hparts] at h ih
        rcases List.mem_cons.1 h with rfl | hparts
        · intro hmem
          rcases List.mem_cons.1 hmem with rfl | hnext
          · exact hfirst (by simp)
          · exact ih List.mem_cons_self hnext
        · exact ih (List.mem_cons_of_mem _ hparts)

theorem isComponent_of_mem_components {path c : String} (hpath : isAbsolute path = false)
    (hc : c ∈ components path) : IsComponent c := by
  simp only [components, hpath, Bool.false_eq_true, if_false, List.mem_filter, List.mem_map,
    Bool.and_eq_true, bne_iff_ne] at hc
  obtain ⟨⟨part, hpart, rfl⟩, hnonempty, hmoves⟩ := hc
  refine ⟨hnonempty, hmoves, ?_⟩
  rw [String.toList_ofList]
  exact not_mem_of_mem_splitOn hpart

/-- A joined path begins with its first component, so not with a slash. -/
theorem isAbsolute_join {parts : List String} (hparts : ∀ c ∈ parts, IsComponent c) :
    isAbsolute (join parts) = false := by
  rw [isAbsolute, join, String.toList_intercalate]
  cases parts with
  | nil => rfl
  | cons first rest =>
    have hfirst := hparts first List.mem_cons_self
    cases hcs : first.toList with
    | nil => exact absurd (String.toList_eq_nil_iff.1 hcs) hfirst.nonempty
    | cons c cs =>
      have hc : c ≠ '/' := by
        rintro rfl
        exact hfirst.slashless (hcs ▸ List.mem_cons_self)
      cases rest <;> simp [List.intercalate, hcs, hc]

/-- The components of a joined path are the components it was joined from. -/
theorem components_join {parts : List String} (hparts : ∀ c ∈ parts, IsComponent c) :
    components (join parts) = parts := by
  have hsplit : (((join parts).toList.splitOn '/').map String.ofList).filter
      (fun c => c != "" && c != ".") = parts := by
    rw [join, String.toList_intercalate]
    cases hnil : parts with
    | nil => simp
    | cons first rest =>
      rw [← hnil]
      have hslash : ∀ cs ∈ parts.map String.toList, '/' ∉ cs := by
        intro cs hcs
        obtain ⟨c, hc, rfl⟩ := List.mem_map.1 hcs
        exact (hparts c hc).slashless
      have hall : ∀ c ∈ parts, (c != "" && c != ".") = true := by
        intro c hc
        simpa using ⟨(hparts c hc).nonempty, (hparts c hc).moves⟩
      have hback : String.ofList ∘ String.toList = id := funext fun _ => String.ofList_toList
      have hparts' : (parts.map String.toList) ≠ [] := by simp [hnil]
      rw [show ("/" : String).toList = ['/'] from rfl, List.splitOn_intercalate '/' hslash hparts',
        List.map_map, hback, List.map_id, List.filter_eq_self.2 hall]
  rw [components, isAbsolute_join hparts, if_neg Bool.false_ne_true]
  exact hsplit

/-- The components of the normal form of a relative path lead up and then down. -/
theorem settled_normalParts (path : String) : Settled (normalParts path).reverse := by
  rw [normalParts, List.reverse_reverse]
  exact Settled.foldl_follow List.Pairwise.nil _

theorem isComponent_of_mem_normalParts {path c : String} (hpath : isAbsolute path = false)
    (hc : c ∈ normalParts path) : IsComponent c :=
  forall_mem_foldl_follow (fun _ h => absurd h List.not_mem_nil)
    (fun _ h => isComponent_of_mem_components hpath h) c (List.mem_reverse.1 hc)

/-- The normal form of a relative path is in normal form. -/
theorem normalize_normalize {path : String} (hpath : isAbsolute path = false) :
    normalize (normalize path) = normalize path := by
  have hparts : ∀ c ∈ normalParts path, IsComponent c :=
    fun c => isComponent_of_mem_normalParts hpath
  have hsettled := (settled_normalParts path).foldl_reverse
  rw [List.reverse_reverse] at hsettled
  have hagain : normalParts (normalize path) = normalParts path := by
    rw [normalParts, normalize, components_join hparts, hsettled, List.reverse_reverse]
  rw [normalize, hagain, normalize]

end BuildGraph.Path
