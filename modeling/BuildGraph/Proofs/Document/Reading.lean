import BuildGraph.Document.Build
import BuildGraph.Proofs.Document.Pairs

/-!
# Documents read by recursion

A document as it is written down is a tree (`Yaml.Tree`), and its events are properly nested.
`Tree.read` reads a tree node by node: collections from their parts, and aliases from the nodes that
were completed before. Building a document from its events comes to the same (`ofEvents_eq_read`).
-/

namespace BuildGraph

namespace Yaml

/-- A node as it is written down. A collection holds the nodes between its start and its end; those
of a mapping are keys and values in turn. -/
inductive Tree
  | scalar (text : String) (style : Style) (anchor : Option Nat) (mark : Mark)
  | alias (anchor : Nat) (mark : Mark)
  | sequence (anchor : Option Nat) (mark : Mark) (items : List Tree) (close : Mark)
  | mapping (anchor : Option Nat) (mark : Mark) (children : List Tree) (close : Mark)

namespace Tree

mutual
/-- The events of a node: those of its parts stand between its own. -/
def events : Tree → List MarkedEvent
  | .scalar text style anchor mark => [⟨.scalar text style anchor, mark⟩]
  | .alias anchor mark => [⟨.alias anchor, mark⟩]
  | .sequence anchor mark items close =>
    ⟨.sequenceStart anchor, mark⟩ :: (eventsOf items ++ [⟨.sequenceEnd, close⟩])
  | .mapping anchor mark children close =>
    ⟨.mappingStart anchor, mark⟩ :: (eventsOf children ++ [⟨.mappingEnd, close⟩])

/-- The events of nodes, one after the other. -/
def eventsOf : List Tree → List MarkedEvent
  | [] => []
  | tree :: rest => tree.events ++ eventsOf rest
end

/-- Where a node starts in a file. -/
def place (file : String) : Tree → Provenance
  | .scalar _ _ _ mark | .alias _ mark | .sequence _ mark _ _ | .mapping _ mark _ _ =>
    ⟨file, mark.line, mark.column⟩

/-- The text of a key. Only scalars are keys, in whatever style. -/
def keyText (file : String) : Tree → Except ParseError String
  | .scalar text _ _ _ => .ok text
  | tree => .error (.nonScalarKey (tree.place file))

/-- Where a mapping is located: at its own start, or at its first key if that precedes it. -/
def mappingPlace (start : Provenance) (file : String) : List Tree → Provenance
  | [] => start
  | key :: _ => if (key.place file).precedes start then key.place file else start

/-- The anchored nodes that are completed, the last one first. -/
abbrev Anchored := List (Nat × Node)

/-- Adds a node that is completed. -/
def Anchored.add (known : Anchored) (node : Node) : Option Nat → Anchored
  | some anchor => (anchor, node) :: known
  | none => known

mutual
/-- Reads a node of a file. -/
def read (file : String) : Tree → Anchored → Except ParseError (Node × Anchored)
  | tree@(.scalar text style anchor _), known =>
    let node := .scalar (.ofText style text) (tree.place file)
    pure (node, known.add node anchor)
  | tree@(.alias anchor _), known =>
    match known.lookup anchor with
    | some node => pure (node, known)
    | none => .error (.unknownAnchor (tree.place file))
  | tree@(.sequence anchor _ items _), known => do
    let (nodes, known) ← readItems file items known
    let node := .sequence nodes (tree.place file)
    pure (node, known.add node anchor)
  | tree@(.mapping anchor _ children _), known => do
    let (pairs, known) ← readPairs file children known
    let node := .mapping (Keyed.ofPairs pairs) (mappingPlace (tree.place file) file children)
    pure (node, known.add node anchor)

/-- Reads the items of a sequence. -/
def readItems (file : String) : List Tree → Anchored → Except ParseError (List Node × Anchored)
  | [], known => pure ([], known)
  | item :: rest, known => do
    let (node, known) ← read file item known
    let (nodes, known) ← readItems file rest known
    pure (node :: nodes, known)

/-- Reads keys and values in turn. A key is no node, so its anchor stands for nothing; one without a
value is left out. -/
def readPairs (file : String) :
    List Tree → Anchored → Except ParseError (List (String × Node) × Anchored)
  | [], known => pure ([], known)
  | [key], known => do
    let _ ← keyText file key
    pure ([], known)
  | key :: value :: rest, known => do
    let text ← keyText file key
    let (node, known) ← read file value known
    let (pairs, known) ← readPairs file rest known
    pure ((text, node) :: pairs, known)
end

end Tree

end Yaml

open Yaml

namespace Builder

variable {b : Builder} {start : Provenance} {anchor : Option Nat} {stack : List OpenCollection}

theorem complete_eq (b : Builder) (anchor : Option Nat) (node : Node) :
    b.complete anchor node =
      { b with anchors := Tree.Anchored.add b.anchors node anchor }.place node := by
  cases anchor <;> rfl

/-- Where a key is awaited, a scalar is taken as one and nothing else is let in. -/
theorem foldlM_key (h : b.awaitsKey = true) (tree : Tree) (rest : List MarkedEvent) :
    (tree.events ++ rest).foldlM step b = (do
      let text ← tree.keyText b.file
      rest.foldlM step (b.takeKey text (tree.place b.file))) := by
  cases tree with
  | scalar | «alias» =>
    simp only [Tree.events, List.singleton_append, List.foldlM_cons, step, h]
    rfl
  | sequence | mapping =>
    simp only [Tree.events, List.cons_append, List.foldlM_cons, step, h]
    rfl

theorem takeKey_ofPairs {b : Builder} {pairs : List (String × Node)}
    (h : b.stack = .mapping start anchor (Keyed.ofPairs pairs) none :: stack) (key : Tree)
    (rest : List Tree) (text : String) :
    b.takeKey text (key.place b.file) = { b with
      stack := .mapping
        (if pairs.isEmpty then Tree.mappingPlace start b.file (key :: rest) else start)
        anchor (Keyed.ofPairs pairs) (some text) :: stack } := by
  simp only [takeKey, h, Keyed.isEmpty_ofPairs, Tree.mappingPlace]
  cases pairs.isEmpty <;> simp

mutual

/-- Building on with the events of a node completes what reading the node gives. -/
theorem foldlM_events (tree : Tree) {b : Builder} (h : b.awaitsKey = false) :
    tree.events.foldlM step b = (do
      let (node, known) ← tree.read b.file b.anchors
      { b with anchors := known }.place node) := by
  match tree with
  | .scalar text style anchor mark =>
    have hstep : b.step ⟨.scalar text style anchor, mark⟩ =
        b.complete anchor (.scalar (.ofText style text) (b.locate mark)) := by
      simp only [step, h, Bool.false_eq_true, if_false]
    rw [Tree.events, List.foldlM_cons, hstep, complete_eq]
    exact bind_pure _
  | .alias anchor mark =>
    rw [Tree.events, List.foldlM_cons, Tree.read]
    simp only [step, h, Bool.false_eq_true, if_false]
    cases hknown : b.anchors.lookup anchor with
    | none => rfl
    | some node => exact bind_pure _
  | .sequence anchor mark items close =>
    have hstep : b.step ⟨.sequenceStart anchor, mark⟩ =
        .ok { b with stack := .sequence (b.locate mark) anchor [] :: b.stack } := by
      simp only [step, h, Bool.false_eq_true, if_false]
    rw [Tree.events, List.foldlM_cons, hstep, Tree.read, bind_assoc]
    refine (foldlM_items items rfl).trans (bind_congr fun ⟨nodes, known⟩ => ?_)
    exact complete_eq _ _ _
  | .mapping anchor mark children close =>
    have hstep : b.step ⟨.mappingStart anchor, mark⟩ = .ok { b with
        stack := .mapping (b.locate mark) anchor (Keyed.ofPairs []) none :: b.stack } := by
      simp only [step, h, Bool.false_eq_true, if_false]
      rfl
    rw [Tree.events, List.foldlM_cons, hstep, Tree.read, bind_assoc]
    refine (foldlM_pairs children rfl).trans (bind_congr fun ⟨pairs, known⟩ => ?_)
    exact complete_eq _ _ _

/-- Building on with the events of items, and then with the end of their sequence. -/
theorem foldlM_items (items : List Tree) {b : Builder} {start : Provenance} {anchor : Option Nat}
    {nodes : List Node} {stack : List OpenCollection} {close : Mark}
    (h : b.stack = .sequence start anchor nodes :: stack) :
    (Tree.eventsOf items ++ ([⟨.sequenceEnd, close⟩] : List MarkedEvent)).foldlM step b = (do
      let (more, known) ← Tree.readItems b.file items b.anchors
      { b with stack, anchors := known }.complete anchor (.sequence (nodes ++ more) start)) := by
  match items with
  | [] =>
    have hstep : b.step ⟨.sequenceEnd, close⟩ =
        { b with stack }.complete anchor (.sequence nodes start) := by
      simp only [step, h]
    rw [Tree.eventsOf, List.nil_append, List.foldlM_cons, hstep, Tree.readItems, pure_bind]
    simp only [List.append_nil]
    exact bind_pure _
  | item :: rest =>
    have hkey : b.awaitsKey = false := by simp only [awaitsKey, h]
    have hplace (node : Node) (known : Tree.Anchored) : { b with anchors := known }.place node =
        .ok { b with
          stack := .sequence start anchor (nodes ++ [node]) :: stack
          anchors := known } := by
      simp only [place, h]
    rw [Tree.eventsOf, List.append_assoc, List.foldlM_append, foldlM_events item hkey,
      Tree.readItems, bind_assoc, bind_assoc]
    refine bind_congr fun ⟨node, known⟩ => ?_
    dsimp only
    rw [hplace, bind_assoc]
    refine (foldlM_items rest rfl).trans (bind_congr fun ⟨more, known⟩ => ?_)
    simp only [pure_bind, List.append_assoc, List.singleton_append]

/-- Building on with the events of keys and values, and then with the end of their mapping. -/
theorem foldlM_pairs (children : List Tree) {b : Builder} {start : Provenance} {anchor : Option Nat}
    {pairs : List (String × Node)} {stack : List OpenCollection} {close : Mark}
    (h : b.stack = .mapping start anchor (Keyed.ofPairs pairs) none :: stack) :
    (Tree.eventsOf children ++ ([⟨.mappingEnd, close⟩] : List MarkedEvent)).foldlM step b = (do
      let (more, known) ← Tree.readPairs b.file children b.anchors
      { b with stack, anchors := known }.complete anchor (.mapping (Keyed.ofPairs (pairs ++ more))
        (if pairs.isEmpty then Tree.mappingPlace start b.file children else start))) := by
  have hkey : b.awaitsKey = true := by simp only [awaitsKey, h]
  match children with
  | [] =>
    have hstep : b.step ⟨.mappingEnd, close⟩ =
        { b with stack }.complete anchor (.mapping (Keyed.ofPairs pairs) start) := by
      simp only [step, h]
    rw [Tree.eventsOf, List.nil_append, List.foldlM_cons, hstep, Tree.readPairs, pure_bind]
    simp only [List.append_nil, Tree.mappingPlace, ite_self]
    exact bind_pure _
  | [key] =>
    rw [Tree.eventsOf, Tree.eventsOf, List.append_nil, foldlM_key hkey, Tree.readPairs, bind_assoc]
    refine bind_congr fun text => ?_
    rw [takeKey_ofPairs h key []]
    simp only [pure_bind, List.append_nil, List.foldlM_cons, step]
    exact bind_pure _
  | key :: value :: rest =>
    rw [Tree.eventsOf, List.append_assoc, foldlM_key hkey, Tree.readPairs, bind_assoc]
    refine bind_congr fun text => ?_
    rw [takeKey_ofPairs h key (value :: rest), Tree.eventsOf, List.append_assoc, List.foldlM_append,
      foldlM_events value rfl, bind_assoc, bind_assoc]
    refine bind_congr fun ⟨node, known⟩ => ?_
    simp only [place, ← Keyed.ofPairs_concat]
    refine (foldlM_pairs rest rfl).trans ?_
    rw [bind_assoc]
    refine bind_congr fun ⟨more, known⟩ => ?_
    simp [List.append_assoc]

end

end Builder

namespace ParseError

/-- Whether an error tells of the structure of a document in a file: a key that is no scalar, or an
alias for nothing that is completed. -/
def IsStructural (file : String) (e : ParseError) : Prop :=
  ∃ place : Provenance, place.file = file ∧ (e = nonScalarKey place ∨ e = unknownAnchor place)

end ParseError

/-- Whether a property is one of all nodes in a file whose parts have it. -/
structure Node.IsHereditary (file : String) (q : Node → Prop) : Prop where
  scalar (value : Scalar) (place : Provenance) : place.file = file → q (.scalar value place)
  sequence (items : List Node) (place : Provenance) : place.file = file →
    (∀ item ∈ items, q item) → q (.sequence items place)
  mapping (members : List (String × Node)) (place : Provenance) : place.file = file →
    (Keyed.keys members).Nodup → (∀ member ∈ members, q member.2) → q (.mapping members place)

namespace Yaml.Tree

variable {file : String} {e : ParseError}

theorem file_place (file : String) (tree : Tree) : (tree.place file).file = file := by
  cases tree <;> rfl

theorem file_mappingPlace (file : String) (tree : Tree) (children : List Tree) :
    (mappingPlace (tree.place file) file children).file = file := by
  cases children with
  | nil => exact tree.file_place file
  | cons key rest =>
    rw [mappingPlace]
    split
    · exact key.file_place file
    · exact tree.file_place file

theorem isStructural_of_keyText {key : Tree} (h : key.keyText file = .error e) :
    e.IsStructural file := by
  cases key with
  | scalar => cases h
  | «alias» | sequence | mapping => exact ⟨_, rfl, .inl (Except.error.inj h).symm⟩

mutual

theorem isStructural_of_read (tree : Tree) {known : Anchored}
    (h : tree.read file known = .error e) : e.IsStructural file := by
  match tree with
  | .scalar text style anchor mark =>
    rw [read] at h
    cases h
  | .alias anchor mark =>
    rw [read] at h
    split at h
    · cases h
    · exact ⟨_, rfl, .inr (Except.error.inj h).symm⟩
  | .sequence anchor mark items close =>
    rw [read, bind_eq_error_iff] at h
    rcases h with hitems | ⟨read, -, h⟩
    · exact isStructural_of_readItems items hitems
    · cases h
  | .mapping anchor mark children close =>
    rw [read, bind_eq_error_iff] at h
    rcases h with hpairs | ⟨read, -, h⟩
    · exact isStructural_of_readPairs children hpairs
    · cases h

theorem isStructural_of_readItems (items : List Tree) {known : Anchored}
    (h : readItems file items known = .error e) : e.IsStructural file := by
  match items with
  | [] =>
    rw [readItems] at h
    cases h
  | item :: rest =>
    rw [readItems, bind_eq_error_iff] at h
    rcases h with hitem | ⟨⟨node, known⟩, -, h⟩
    · exact isStructural_of_read item hitem
    · rcases bind_eq_error_iff.1 h with hrest | ⟨read, -, h⟩
      · exact isStructural_of_readItems rest hrest
      · cases h

theorem isStructural_of_readPairs (children : List Tree) {known : Anchored}
    (h : readPairs file children known = .error e) : e.IsStructural file := by
  match children with
  | [] =>
    rw [readPairs] at h
    cases h
  | [key] =>
    rw [readPairs, bind_eq_error_iff] at h
    rcases h with hkey | ⟨text, -, h⟩
    · exact isStructural_of_keyText hkey
    · cases h
  | key :: value :: rest =>
    rw [readPairs, bind_eq_error_iff] at h
    rcases h with hkey | ⟨text, -, h⟩
    · exact isStructural_of_keyText hkey
    · rcases bind_eq_error_iff.1 h with hvalue | ⟨⟨node, known⟩, -, h⟩
      · exact isStructural_of_read value hvalue
      · rcases bind_eq_error_iff.1 h with hrest | ⟨read, -, h⟩
        · exact isStructural_of_readPairs rest hrest
        · cases h

end

section Hereditary

variable {q : Node → Prop}

theorem Anchored.forall_mem_add {known : Anchored} (h : ∀ entry ∈ known, q entry.2) {node : Node}
    (hnode : q node) (anchor : Option Nat) : ∀ entry ∈ known.add node anchor, q entry.2 := by
  cases anchor with
  | none => exact h
  | some number => exact List.forall_mem_cons.2 ⟨hnode, h⟩

mutual

/-- What is read has a hereditary property, if the anchored nodes have it. -/
theorem holds_of_read (hq : Node.IsHereditary file q) (tree : Tree) {known all : Anchored}
    {node : Node} (hknown : ∀ entry ∈ known, q entry.2)
    (h : tree.read file known = .ok (node, all)) : q node ∧ ∀ entry ∈ all, q entry.2 := by
  match tree with
  | .scalar text style anchor mark =>
    rw [read] at h
    obtain ⟨rfl, rfl⟩ := Prod.mk.inj (Except.ok.inj h)
    have hnode := hq.scalar (.ofText style text) ⟨file, mark.line, mark.column⟩ rfl
    exact ⟨hnode, Anchored.forall_mem_add hknown hnode anchor⟩
  | .alias anchor mark =>
    rw [read] at h
    split at h
    · next found hfound =>
      obtain ⟨rfl, rfl⟩ := Prod.mk.inj (Except.ok.inj h)
      exact ⟨hknown _ (mem_of_lookup hfound), hknown⟩
    · cases h
  | .sequence anchor mark items close =>
    rw [read, bind_eq_ok_iff] at h
    obtain ⟨⟨nodes, rest⟩, hitems, h⟩ := h
    obtain ⟨rfl, rfl⟩ := Prod.mk.inj (Except.ok.inj h)
    obtain ⟨hnodes, hrest⟩ := holds_of_readItems hq items hknown hitems
    have hnode := hq.sequence nodes ⟨file, mark.line, mark.column⟩ rfl hnodes
    exact ⟨hnode, Anchored.forall_mem_add hrest hnode anchor⟩
  | .mapping anchor mark children close =>
    rw [read, bind_eq_ok_iff] at h
    obtain ⟨⟨pairs, rest⟩, hpairs, h⟩ := h
    obtain ⟨rfl, rfl⟩ := Prod.mk.inj (Except.ok.inj h)
    obtain ⟨hvalues, hrest⟩ := holds_of_readPairs hq children hknown hpairs
    have hnode := hq.mapping (Keyed.ofPairs pairs) _
      (file_mappingPlace file (.mapping anchor mark children close) children)
      (Keyed.nodup_keys_ofPairs pairs)
      fun member hmember => hvalues member (Keyed.mem_of_mem_ofPairs hmember)
    exact ⟨hnode, Anchored.forall_mem_add hrest hnode anchor⟩

theorem holds_of_readItems (hq : Node.IsHereditary file q) (items : List Tree)
    {known all : Anchored} {nodes : List Node} (hknown : ∀ entry ∈ known, q entry.2)
    (h : readItems file items known = .ok (nodes, all)) :
    (∀ node ∈ nodes, q node) ∧ ∀ entry ∈ all, q entry.2 := by
  match items with
  | [] =>
    rw [readItems] at h
    obtain ⟨rfl, rfl⟩ := Prod.mk.inj (Except.ok.inj h)
    exact ⟨List.forall_mem_nil _, hknown⟩
  | item :: rest =>
    rw [readItems, bind_eq_ok_iff] at h
    obtain ⟨⟨first, mid⟩, hitem, h⟩ := h
    obtain ⟨⟨others, all'⟩, hothers, h⟩ := bind_eq_ok_iff.1 h
    obtain ⟨rfl, rfl⟩ := Prod.mk.inj (Except.ok.inj h)
    obtain ⟨hfirst, hmid⟩ := holds_of_read hq item hknown hitem
    obtain ⟨hrest, hall⟩ := holds_of_readItems hq rest hmid hothers
    exact ⟨List.forall_mem_cons.2 ⟨hfirst, hrest⟩, hall⟩

theorem holds_of_readPairs (hq : Node.IsHereditary file q) (children : List Tree)
    {known all : Anchored} {pairs : List (String × Node)} (hknown : ∀ entry ∈ known, q entry.2)
    (h : readPairs file children known = .ok (pairs, all)) :
    (∀ pair ∈ pairs, q pair.2) ∧ ∀ entry ∈ all, q entry.2 := by
  match children with
  | [] =>
    rw [readPairs] at h
    obtain ⟨rfl, rfl⟩ := Prod.mk.inj (Except.ok.inj h)
    exact ⟨List.forall_mem_nil _, hknown⟩
  | [key] =>
    rw [readPairs, bind_eq_ok_iff] at h
    obtain ⟨text, -, h⟩ := h
    obtain ⟨rfl, rfl⟩ := Prod.mk.inj (Except.ok.inj h)
    exact ⟨List.forall_mem_nil _, hknown⟩
  | key :: value :: rest =>
    rw [readPairs, bind_eq_ok_iff] at h
    obtain ⟨text, -, h⟩ := h
    obtain ⟨⟨node, mid⟩, hvalue, h⟩ := bind_eq_ok_iff.1 h
    obtain ⟨⟨others, all'⟩, hothers, h⟩ := bind_eq_ok_iff.1 h
    obtain ⟨rfl, rfl⟩ := Prod.mk.inj (Except.ok.inj h)
    obtain ⟨hnode, hmid⟩ := holds_of_read hq value hknown hvalue
    obtain ⟨hrest, hall⟩ := holds_of_readPairs hq rest hmid hothers
    exact ⟨List.forall_mem_cons.2 ⟨hnode, hrest⟩, hall⟩

end

end Hereditary

end Yaml.Tree

namespace Node

/-- Whether a node stands somewhere in a document, the root included. -/
inductive Holds (node : Node) : Node → Prop
  | root : Holds node node
  | item {items : List Node} {place : Provenance} {item : Node} :
    item ∈ items → Holds node item → Holds node (.sequence items place)
  | member {members : List (String × Node)} {place : Provenance} {key : String} {value : Node} :
    (key, value) ∈ members → Holds node value → Holds node (.mapping members place)

/-- Building a document from its events comes to reading its tree. -/
theorem ofEvents_eq_read (file : String) (tree : Tree) :
    ofEvents file tree.events = Prod.fst <$> tree.read file [] := by
  rw [ofEvents, Builder.foldlM_events tree rfl]
  cases tree.read file [] <;> rfl

theorem isHereditary_places (file : String) :
    IsHereditary file fun node => ∀ inner, Holds inner node → inner.place.file = file where
  scalar value place hplace inner hinner := by
    cases hinner with
    | root => exact hplace
  sequence items place hplace hitems inner hinner := by
    cases hinner with
    | root => exact hplace
    | item hitem hinner => exact hitems _ hitem inner hinner
  mapping members place hplace _ hmembers inner hinner := by
    cases hinner with
    | root => exact hplace
    | member hmember hinner => exact hmembers _ hmember inner hinner

theorem isHereditary_hasDistinctKeys (file : String) : IsHereditary file HasDistinctKeys where
  scalar _ _ _ := trivial
  sequence _ _ _ hitems := itemsHaveDistinctKeys_iff.2 hitems
  mapping _ _ _ hkeys hmembers := ⟨hkeys, membersHaveDistinctKeys_iff.2 hmembers⟩

/-- Building a document from its events gives what reading its tree gives. It fails only with the
structure of the document, and all nodes are placed in the file. -/
theorem ofEvents_reads (file : String) (tree : Tree) :
    ofEvents file tree.events = Prod.fst <$> tree.read file [] ∧
      (∀ e, ofEvents file tree.events = .error e → e.IsStructural file) ∧
      ∀ document, ofEvents file tree.events = .ok document →
        ∀ node, Holds node document → node.place.file = file := by
  rw [ofEvents_eq_read]
  refine ⟨rfl, fun e he => ?_, fun document hdocument => ?_⟩
  · cases hread : tree.read file [] with
    | ok => rw [hread] at he; cases he
    | error e' =>
      rw [hread] at he
      exact Except.error.inj he ▸ tree.isStructural_of_read hread
  · obtain ⟨⟨node, known⟩, hread, rfl⟩ := map_eq_ok_iff.1 hdocument
    exact (tree.holds_of_read (isHereditary_places file) (List.forall_mem_nil _) hread).1

end Node

end BuildGraph
