import BuildGraph.Proofs.Document.Union
import BuildGraph.Proofs.Project.Session
import Mathlib.Data.List.Forall2
import Mathlib.Data.List.Perm.Basic

/-!
# The order of includes

Splicing fragments into a document is joining what they come to by themselves (`splices_iff`). So the
order in which a document names its fragments decides neither whether they can be spliced in, nor what
is then where in the document, apart from the order of members and the places of mappings that several
fragments have (`process_permuted`).
-/

namespace BuildGraph.Include

/-- The file that a value names as a fragment. -/
def fileIn? : Node.Value → Option String
  | .scalar value =>
    value.asString?.bind fun path => if path = "" then none else some (Path.normalize path)
  | _ => none

/-- A document with a list of includes. -/
def withList (document : Node) (list : List Node) (place : Provenance) : Node :=
  document.insert key (.sequence list place)

/-- Whether two of the files are fragments that both have something at a path. -/
def SharedBy (files : Files) (names : List String) (path : List String) : Prop :=
  ∃ first ∈ names, ∃ second ∈ names, first ≠ second ∧ ∃ data other, Expands files first data ∧
    Expands files second other ∧ (data.at? path).isSome = true ∧ (other.at? path).isSome = true

/-- Whether a document itself has nothing at a path and several of the fragments that it names do. -/
def FromSeveral (files : Files) (document : Node) (path : List String) : Prop :=
  (document.erase key).at? path = none ∧
    ∃ named, entries document = .ok named ∧ SharedBy files (named.map Entry.file) path

/-- Whether two outcomes of including are both failures, or documents that agree at every path. -/
inductive Alike (loose : List String → Prop) :
    Except LoadError (Node × Fragments) → Except LoadError (Node × Fragments) → Prop
  | fail (e e' : LoadError) : Alike loose (.error e) (.error e')
  | agree {result other : Node} (done done' : Fragments) :
    (∀ path, Node.Agrees (loose path) (result.at? path) (other.at? path)) →
    Alike loose (.ok (result, done)) (.ok (other, done'))

variable {files : Files} {named others : List Entry} {document result : Node} {done : Fragments}
  {list : List Node} {place : Provenance}

section Splices

/-- Fragments are spliced into a document by joining what each of them comes to. -/
theorem splices_iff : Splices files named document result ↔
    ∃ datas, List.Forall₂ (Expands files) (named.map Entry.file) datas ∧
      Node.Joins document datas result := by
  constructor
  · intro h
    induction h with
    | nil => exact ⟨[], .nil, .nil _⟩
    | @cons _ _ inner text fragment data _ _ _ htext hparse hinner hdata honto _ _ ih =>
      obtain ⟨datas, hdatas, hjoins⟩ := ih
      exact ⟨data :: datas, .cons ⟨text, fragment, htext, hparse, inner, hinner, hdata⟩ hdatas,
        .cons (Layer.onto_eq_ok_iff.1 honto) hjoins⟩
  · rintro ⟨datas, hdatas, hjoins⟩
    induction named generalizing document datas with
    | nil =>
      cases hdatas
      cases hjoins
      exact .nil
    | cons entry rest ih =>
      cases hdatas with
      | cons hdata hrest =>
        cases hjoins with
        | cons hmid hjoins => exact .of_expands hdata (Layer.onto_eq_ok_iff.2 hmid) (ih _ hrest hjoins)

theorem Splices.hasDistinctKeys (h : Splices files named document result)
    (hdocument : document.HasDistinctKeys) : result.HasDistinctKeys :=
  h.kept Node.isKept_hasDistinctKeys hdocument fun _ _ _ _ _ hparse =>
    Node.hasDistinctKeys_of_parseDocument hparse

theorem Expands.hasDistinctKeys {file : String} {data : Node} (h : Expands files file data) :
    data.HasDistinctKeys := by
  obtain ⟨text, fragment, -, hparse, inner, -, hdata⟩ := h
  exact hdata.hasDistinctKeys ((Node.hasDistinctKeys_of_parseDocument hparse).erase key)

/-- What fragments have in different places comes from different files. -/
theorem sharedBy_of_shared {names : List String} {datas : List Node} {path : List String}
    (hdatas : List.Forall₂ (Expands files) names datas) (h : Node.Shared datas path) :
    SharedBy files names path := by
  obtain ⟨data, hdata, other, hother, value, found, hvalue, hfound, hplace⟩ := h
  obtain ⟨first, hfirst, hexpands⟩ := exists_of_forall₂_right hdatas hdata
  obtain ⟨second, hsecond, hexpands'⟩ := exists_of_forall₂_right hdatas hother
  refine ⟨first, hfirst, second, hsecond, ?_, data, other, hexpands, hexpands', ?_, ?_⟩
  · rintro rfl
    obtain rfl := hexpands.unique hexpands'
    exact hplace (congrArg Node.place (Option.some.inj (hvalue.symm.trans hfound)))
  · rw [hvalue, Option.isSome_some]
  · rw [hfound, Option.isSome_some]

/-- Fragments that can be spliced into a document can be spliced into it in any order. -/
theorem Splices.permuted (hperm : (named.map Entry.file).Perm (others.map Entry.file))
    (hdocument : document.HasDistinctKeys) (h : Splices files named document result) :
    ∃ other, Splices files others document other ∧ ∀ path,
      Node.Agrees (document.at? path = none ∧ SharedBy files (named.map Entry.file) path)
        (result.at? path) (other.at? path) := by
  obtain ⟨datas, hdatas, hjoins⟩ := splices_iff.1 h
  obtain ⟨datas', hdatas', hsame⟩ := List.perm_comp_forall₂ hperm.symm hdatas
  have hkeys : ∀ data ∈ datas, data.HasDistinctKeys := fun data hdata =>
    (exists_of_forall₂_right hdatas hdata).elim fun _ hexpands => hexpands.2.hasDistinctKeys
  obtain ⟨other, hother, hagrees⟩ := hjoins.permuted hsame.symm hdocument hkeys
  exact ⟨other, splices_iff.2 ⟨datas', hdatas', hother⟩, fun path =>
    (hagrees path).imp fun hloose => ⟨hloose.1, sharedBy_of_shared hdatas hloose.2⟩⟩

end Splices

section Entries

theorem read_eq_ok_iff {item : Node} {entry : Entry} : Entry.read item = .ok entry ↔
    fileIn? item.value = some entry.file ∧ item.place = entry.place := by
  obtain ⟨file, place⟩ := entry
  cases item with
  | scalar value p =>
    rw [Entry.read, Node.asString?, Node.value, fileIn?]
    cases value.asString? with
    | none => simp
    | some path => by_cases hpath : path = "" <;> simp [hpath, Node.place]
  | sequence => simp [Entry.read, Node.asString?, Node.value, fileIn?]
  | mapping => simp [Entry.read, Node.asString?, Node.value, fileIn?]

/-- Items are read as entries if their values name files, and the entries are about these. -/
theorem exists_mapM_read_iff {names : List String} :
    (∃ named, list.mapM Entry.read = .ok named ∧ named.map Entry.file = names) ↔
      List.Forall₂ (fun value file => fileIn? value = some file) (list.map Node.value) names := by
  induction list generalizing names with
  | nil =>
    constructor
    · rintro ⟨named, hnamed, rfl⟩
      obtain rfl := pure_eq_ok_iff.1 hnamed
      exact .nil
    · intro h
      cases h
      exact ⟨[], rfl, rfl⟩
  | cons item rest ih =>
    simp only [List.mapM_cons, bind_eq_ok_iff, pure_eq_ok_iff, List.map_cons]
    constructor
    · rintro ⟨_, ⟨entry, hentry, later, hlater, rfl⟩, rfl⟩
      exact .cons (read_eq_ok_iff.1 hentry).1 (ih.1 ⟨later, hlater, rfl⟩)
    · intro h
      cases h with
      | @cons _ file _ _ hfile hrest =>
        obtain ⟨later, hlater, rfl⟩ := ih.2 hrest
        exact ⟨_, ⟨⟨file, item.place⟩, read_eq_ok_iff.2 ⟨hfile, rfl⟩, later, hlater, rfl⟩, rfl⟩

theorem items_withList (document : Node) (list : List Node) (place : Provenance) :
    items (withList document list place) = if document.isMapping then list else [] := by
  cases document with
  | mapping members p =>
    rw [items, withList, Node.insert, Node.get?, Node.members, Keyed.lookup_insert, if_pos rfl]
    rfl
  | scalar => rfl
  | sequence => rfl

theorem erase_withList (document : Node) (list : List Node) (place : Provenance) :
    (withList document list place).erase key = document.erase key := by
  cases document with
  | mapping members p => exact congrArg (Node.mapping · p) (Keyed.erase_insert key _ members)
  | scalar => rfl
  | sequence => rfl

variable {others : List Node} {place' : Provenance}

/-- A list in another order names the same files. -/
theorem entries_permuted (hperm : (list.map Node.value).Perm (others.map Node.value))
    (h : entries (withList document list place) = .ok named) :
    ∃ named', entries (withList document others place') = .ok named' ∧
      (named.map Entry.file).Perm (named'.map Entry.file) := by
  rw [entries, items_withList] at h ⊢
  by_cases hmapping : document.isMapping = true
  · rw [if_pos hmapping] at h ⊢
    obtain ⟨names, hnames, hsame⟩ := List.perm_comp_forall₂ hperm.symm
      (exists_mapM_read_iff.1 ⟨named, h, rfl⟩)
    obtain ⟨named', hnamed', rfl⟩ := exists_mapM_read_iff.2 hnames
    exact ⟨named', hnamed', hsame.symm⟩
  · rw [if_neg hmapping] at h ⊢
    exact ⟨named, h, .refl _⟩

end Entries

section Process

variable {others : List Node} {place' : Provenance}

/-- What a document comes to in a session is what it comes to by itself. -/
theorem exists_process_iff (hkept : Kept files [] done) :
    (∃ done', process files document done = .ok (result, done')) ↔
      Processes files document result := by
  constructor
  · rintro ⟨done', h⟩
    exact (process_processes h hkept.sound).1
  · rintro ⟨named, hnamed, hsplices⟩
    obtain ⟨done', h⟩ := hsplices.exists_splice hkept fun _ _ => List.not_mem_nil
    rw [process_eq]
    exact ⟨done', bind_eq_ok_iff.2 ⟨named, hnamed, h⟩⟩

theorem Processes.permuted (hdocument : document.HasDistinctKeys)
    (hperm : (list.map Node.value).Perm (others.map Node.value))
    (h : Processes files (withList document list place) result) :
    ∃ other, Processes files (withList document others place') other ∧ ∀ path,
      Node.Agrees (FromSeveral files (withList document list place) path) (result.at? path)
        (other.at? path) := by
  obtain ⟨named, hnamed, hsplices⟩ := h
  obtain ⟨named', hnamed', hfiles⟩ := entries_permuted hperm hnamed
  rw [erase_withList] at hsplices
  obtain ⟨other, hother, hagrees⟩ := hsplices.permuted hfiles (hdocument.erase key)
  refine ⟨other, ⟨named', hnamed', by rwa [erase_withList]⟩, fun path => (hagrees path).imp ?_⟩
  rintro ⟨hnone, hshared⟩
  exact ⟨by rwa [erase_withList], named, hnamed, hshared⟩

/-- In which order a document lists its includes does not matter. It can be processed with both lists or
with neither, and comes to the same up to the order of members and the places of mappings that several
fragments have and the document itself does not. -/
theorem process_permuted {earlier results : List Node}
    (h : processAll files earlier [] = .ok (results, done)) (hdocument : document.HasDistinctKeys)
    (hperm : (list.map Node.value).Perm (others.map Node.value)) :
    Alike (FromSeveral files (withList document list place))
      (process files (withList document list place) done)
      (process files (withList document others place') done) := by
  have hkept : Kept files [] done := kept_processAll h kept_nil
  cases hresult : process files (withList document list place) done with
  | ok final =>
    obtain ⟨result, last⟩ := final
    obtain ⟨other, hother, hagrees⟩ :=
      ((exists_process_iff hkept).1 ⟨last, hresult⟩).permuted hdocument hperm
    obtain ⟨last', hlast'⟩ := (exists_process_iff hkept).2 hother
    rw [hlast']
    exact .agree last last' hagrees
  | error e =>
    cases hother : process files (withList document others place') done with
    | error e' => exact .fail e e'
    | ok final =>
      obtain ⟨other, last⟩ := final
      obtain ⟨result, hprocesses, -⟩ :=
        ((exists_process_iff hkept).1 ⟨last, hother⟩).permuted hdocument hperm.symm
      obtain ⟨last', hlast'⟩ := (exists_process_iff hkept).2 hprocesses
      cases hresult.symm.trans hlast'

/-- Two fragments that extend the same mapping, and a third one. -/
def sharingFiles : Files :=
  [("a.yml", "config:\n  debug: 1\n"), ("b.yml", "config:\n  jobs: 4\n"), ("c.yml", "public: 3\n")]

/-- The document that includes the third fragment, with other includes in place of it. -/
def documentWithList (names : List String) : Node :=
  withList (documentWith "c.yml") (names.map fun name => .scalar (.string name) (.fileStart "app.bst"))
    (.fileStart "app.bst")

/-- Whichever fragment comes first gives the mapping under `config` its place. -/
theorem documentWithList_permuted : ∃ results done,
    processAll sharingFiles [documentWith "c.yml"] [] = .ok (results, done) ∧
      Alike (FromSeveral sharingFiles (documentWithList ["a.yml", "b.yml"]))
        (process sharingFiles (documentWithList ["a.yml", "b.yml"]) done)
        (process sharingFiles (documentWithList ["b.yml", "a.yml"]) done) ∧
      (fun final => (final.1.get? "config").map Node.place) <$>
          process sharingFiles (documentWithList ["a.yml", "b.yml"]) done =
        .ok (some ⟨"a.yml", 2, 2⟩) ∧
      (fun final => (final.1.get? "config").map Node.place) <$>
          process sharingFiles (documentWithList ["b.yml", "a.yml"]) done =
        .ok (some ⟨"b.yml", 2, 2⟩) := by
  have hkeys : (documentWith "c.yml").HasDistinctKeys := by
    simp [documentWith, Node.HasDistinctKeys, Node.MembersHaveDistinctKeys, Keyed.keys]
  have hcompute : processAll sharingFiles [documentWith "c.yml"] [] = .ok
      ([.mapping [("kind", .scalar (.string "manual") (.fileStart "app.bst")),
        ("public", .scalar (.int 3) ⟨"c.yml", 1, 8⟩)] (.fileStart "app.bst")],
      [("c.yml", .mapping [("public", .scalar (.int 3) ⟨"c.yml", 1, 8⟩)] ⟨"c.yml", 1, 0⟩)]) := by
    decide +kernel
  refine ⟨_, _, hcompute, process_permuted hcompute hkeys (.swap _ _ _), ?_, ?_⟩
  · decide +kernel
  · decide +kernel

end Process

end BuildGraph.Include
