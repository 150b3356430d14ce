import BuildGraph.Element.Declaration
import BuildGraph.Proofs.Outcome
import BuildGraph.Proofs.Project.Path

/-!
# What a file declares

The dependencies in the file of an element belong to that element, and each names another file by the
normal form of its path together with the element of that file. No list of them names a file twice.
-/

namespace BuildGraph

/-- A dependency of the element `owner` on the element that a file declares. -/
structure Dependency.NamesFile (owner : String) (dep : Dependency) : Prop where
  owner : dep.owner = owner
  file : ∃ file, dep.filename = some file ∧ Path.normalize file = file ∧
    Path.stem? file = some dep.name

/-- Dependencies of the element `owner` on elements of different files. -/
structure Dependency.NameFiles (owner : String) (deps : List Dependency) : Prop where
  names : ∀ dep ∈ deps, dep.NamesFile owner
  distinct : (deps.map Dependency.filename).Nodup

/-- Whether all dependencies of an element are on the elements of files. -/
structure Element.NamesFiles (e : Element) : Prop where
  base : Dependency.NameFiles e.name e.baseDeps
  variants : ∀ v ∈ e.variants, Dependency.NameFiles e.name v.deps

namespace Element

theorem stem?_of_nameOfFile {file name : String} {place : Option Provenance}
    (h : nameOfFile file place = .ok name) : Path.stem? file = some name := by
  rw [nameOfFile] at h
  split at h
  · next hstem => exact Except.ok.inj h ▸ hstem
  · cases h

theorem NamesFiles.of_mem {e : Element} (h : e.NamesFiles) {dep : Dependency}
    (hdep : dep ∈ e.declaredDeps) : dep.NamesFile e.name := by
  rcases List.mem_append.1 hdep with hbase | hvariant
  · exact h.base.names dep hbase
  · obtain ⟨v, hv, hdep⟩ := List.mem_flatMap.1 hvariant
    exact (h.variants v hv).names dep hdep

end Element

namespace Dependency

variable {owner : String}

theorem read_namesFile {item : Node} {dep : Dependency} (h : read .file owner item = .ok dep) :
    dep.NamesFile owner := by
  simp only [read, resolveTarget, bind_eq_ok_iff, pure_eq_ok_iff] at h
  obtain ⟨request, -, ⟨name, filename⟩, htarget, rfl⟩ := h
  split at htarget
  · cases htarget
  · next hrelative =>
    simp only [bind_eq_ok_iff, pure_eq_ok_iff, Prod.mk.injEq] at htarget
    obtain ⟨_, hname, rfl, rfl⟩ := htarget
    exact ⟨rfl, _, rfl, Path.normalize_normalize (eq_false_of_ne_true hrelative),
      Element.stem?_of_nameOfFile hname⟩

theorem readList_nameFiles {items : List Node} {before deps : List Dependency}
    (h : readList .file owner items before = .ok deps) (hbefore : NameFiles owner before) :
    NameFiles owner deps := by
  induction items generalizing before with
  | nil => exact Except.ok.inj h ▸ hbefore
  | cons item rest ih =>
    simp only [readList, bind_eq_ok_iff] at h
    obtain ⟨dep, hdep, _, hnew, hrest⟩ := h
    refine ih hrest ⟨?_, ?_⟩
    · intro d hd
      rcases List.mem_append.1 hd with hold | hlast
      · exact hbefore.names d hold
      · exact List.mem_singleton.1 hlast ▸ read_namesFile hdep
    · have hfree : dep.filename ∉ before.map Dependency.filename := by
        intro hmem
        obtain ⟨d, hd, hsame⟩ := List.mem_map.1 hmem
        have hany : before.any (sameTarget .file dep) = true :=
          List.any_eq_true.2 ⟨d, hd, by simp [sameTarget, hsame]⟩
        rw [checkNew, if_pos hany] at hnew
        cases hnew
      rw [List.map_append]
      exact (List.perm_append_singleton _ _).nodup_iff.2
        (List.nodup_cons.2 ⟨hfree, hbefore.distinct⟩)

theorem take_nameFiles {document data : Node} {deps : List Dependency}
    (h : take .file owner document = .ok (deps, data)) : NameFiles owner deps := by
  simp only [take, bind_eq_ok_iff, pure_eq_ok_iff, Prod.mk.injEq] at h
  obtain ⟨taken, -, _, hlist, rfl, -⟩ := h
  exact readList_nameFiles hlist ⟨fun _ hnil => absurd hnil List.not_mem_nil, List.nodup_nil⟩

end Dependency

namespace Variant

variable {archs : Architectures} {owner : String}

theorem read_nameFiles {before : List Variant} {item : Node} {v : Variant}
    (h : read archs .file owner before item = .ok v) : Dependency.NameFiles owner v.deps := by
  simp only [read, bind_eq_ok_iff, pure_eq_ok_iff] at h
  obtain ⟨_, -, _, -, _, -, _, -, _, -, ⟨deps, data⟩, hdeps, rfl⟩ := h
  exact Dependency.take_nameFiles hdeps

theorem readList_nameFiles {items : List Node} {before variants : List Variant}
    (h : readList archs .file owner items before = .ok variants)
    (hbefore : ∀ v ∈ before, Dependency.NameFiles owner v.deps) :
    ∀ v ∈ variants, Dependency.NameFiles owner v.deps := by
  induction items generalizing before with
  | nil => exact Except.ok.inj h ▸ hbefore
  | cons item rest ih =>
    obtain ⟨variant, hvariant, hrest⟩ := bind_eq_ok_iff.1 h
    refine ih hrest fun v hv => ?_
    rcases List.mem_append.1 hv with hold | hlast
    · exact hbefore v hold
    · exact List.mem_singleton.1 hlast ▸ read_nameFiles hvariant

theorem take_nameFiles {document data : Node} {variants : List Variant}
    (h : take archs .file owner document = .ok (variants, data)) :
    ∀ v ∈ variants, Dependency.NameFiles owner v.deps := by
  simp only [take, bind_eq_ok_iff, pure_eq_ok_iff, Prod.mk.injEq] at h
  obtain ⟨taken, -, _, hlist, rfl, -⟩ := h
  exact readList_nameFiles hlist fun _ hnil => absurd hnil List.not_mem_nil

end Variant

namespace Element

variable {archs : Architectures} {name filename : String} {document : Node} {e : Element}

theorem ofDocument_name {scope : DependencyScope}
    (h : ofDocument archs scope name filename document = .ok e) : e.name = name := by
  simp only [ofDocument, bind_eq_ok_iff, pure_eq_ok_iff] at h
  obtain ⟨kind, -, document, -, deps, -, variants, -, rfl⟩ := h
  rfl

theorem ofDocument_filename {scope : DependencyScope}
    (h : ofDocument archs scope name filename document = .ok e) : e.filename = filename := by
  simp only [ofDocument, bind_eq_ok_iff, pure_eq_ok_iff] at h
  obtain ⟨kind, -, document, -, deps, -, variants, -, rfl⟩ := h
  rfl

theorem ofDocument_namesFiles (h : ofDocument archs .file name filename document = .ok e) :
    e.NamesFiles := by
  simp only [ofDocument, bind_eq_ok_iff, pure_eq_ok_iff] at h
  obtain ⟨_, -, _, -, ⟨deps, _⟩, hdeps, ⟨variants, _⟩, hvariants, rfl⟩ := h
  exact ⟨Dependency.take_nameFiles hdeps, Variant.take_nameFiles hvariants⟩

end Element

end BuildGraph
