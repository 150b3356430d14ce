import BuildGraph.Document.Parse
import BuildGraph.Proofs.Document.Reading
import BuildGraph.Proofs.Document.Scalar

/-!
# The nesting of events

Whatever is told of a text is properly nested: it is the events of one tree, or nothing. A goal of
the grammar stands for the events that are still missing (`Goal.Tells`), a whole node or the rest of
an open collection with its end. Meeting a goal keeps this (`Reading.meets`).
-/

namespace BuildGraph.Yaml

namespace Goal

/-- The event that closes the collection of a goal, none for a node. -/
def closing : Goal → Option Event
  | node _ _ => none
  | blockEntry | unindentedEntry | flowEntry _ => some .sequenceEnd
  | blockKey | blockValue | pairKey | pairValue | pairEnd | flowKey _ | flowValue | missingValue =>
    some .mappingEnd

/-- Whether a goal may be met by telling events: those of a node, or of nodes and the end of their
collection. -/
def Tells (goal : Goal) (events : List MarkedEvent) : Prop :=
  match goal.closing with
  | none => ∃ tree : Tree, events = tree.events
  | some event => ∃ trees mark, events = Tree.eventsOf trees ++ [⟨event, mark⟩]

/-- Whether goals may be met, one after the other, by telling events. -/
inductive TellAll : List Goal → List MarkedEvent → Prop
  | nil : TellAll [] []
  | cons {goal : Goal} {goals : List Goal} {events others : List MarkedEvent} :
    goal.Tells events → TellAll goals others → TellAll (goal :: goals) (events ++ others)

variable {goal next : Goal} {goals others : List Goal} {events told : List MarkedEvent}

theorem TellAll.one (h : TellAll [goal] events) : goal.Tells events := by
  cases h with
  | cons hgoal hnil =>
    cases hnil
    rwa [List.append_nil]

theorem TellAll.of_append (h : TellAll (goals ++ others) events) :
    ∃ front back, events = front ++ back ∧ TellAll goals front ∧ TellAll others back := by
  induction goals generalizing events with
  | nil => exact ⟨[], events, rfl, .nil, h⟩
  | cons goal goals ih =>
    cases h with
    | @cons _ _ front events hgoal hrest =>
      obtain ⟨middle, back, rfl, hgoals, hothers⟩ := ih hrest
      exact ⟨front ++ middle, back, (List.append_assoc _ _ _).symm, .cons hgoal hgoals, hothers⟩

theorem tells_closing {event : Event} (h : goal.closing = some event) (mark : Mark) :
    goal.Tells [⟨event, mark⟩] := by
  rw [Tells, h]
  exact ⟨[], mark, rfl⟩

/-- A node in front of the rest of a collection. -/
theorem tells_cons {event : Event} (hgoal : goal.closing = some event)
    (hnext : next.closing = some event) (tree : Tree) (h : next.Tells events) :
    goal.Tells (tree.events ++ events) := by
  rw [Tells, hnext] at h
  obtain ⟨trees, mark, rfl⟩ := h
  rw [Tells, hgoal]
  exact ⟨tree :: trees, mark, (List.append_assoc _ _ _).symm⟩

/-- The rest of a sequence behind its start. -/
theorem tells_sequence {block unindented : Bool} (h : next.closing = some .sequenceEnd)
    (anchor : Option Nat) (mark : Mark) (hnext : next.Tells events) :
    (node block unindented).Tells (⟨.sequenceStart anchor, mark⟩ :: events) := by
  rw [Tells, h] at hnext
  obtain ⟨items, close, rfl⟩ := hnext
  exact ⟨.sequence anchor mark items close, rfl⟩

/-- The rest of a mapping behind its start. -/
theorem tells_mapping {block unindented : Bool} (h : next.closing = some .mappingEnd)
    (anchor : Option Nat) (mark : Mark) (hnext : next.Tells events) :
    (node block unindented).Tells (⟨.mappingStart anchor, mark⟩ :: events) := by
  rw [Tells, h] at hnext
  obtain ⟨children, close, rfl⟩ := hnext
  exact ⟨.mapping anchor mark children close, rfl⟩

end Goal

namespace Reading

open Goal

/-- Whether a goal is met on the way from one reading to another: with the events that are told and
those that may be told of the goals in its place, it is. -/
def Meets (goal : Goal) (r next : Reading) : Prop :=
  ∃ told goals, next.events = told.reverse ++ r.events ∧ next.goals = goals ++ r.goals ∧
    ∀ events, TellAll goals events → goal.Tells (told ++ events)

section Meets

variable {goal after : Goal} {goals : List Goal} {r next : Reading} {event closing : Event}
  {mark : Mark} {block unindented : Bool}

theorem Meets.of_take (h : Meets goal r.take next) : Meets goal r next := h

theorem meets_tell (h : goal.Tells [⟨event, mark⟩]) : Meets goal r (r.tell event mark) := by
  refine ⟨[⟨event, mark⟩], [], rfl, rfl, fun events hevents => ?_⟩
  cases hevents
  exact h

theorem meets_want (h : ∀ events, TellAll goals events → goal.Tells events) :
    Meets goal r (r.want goals) :=
  ⟨[], goals, rfl, rfl, h⟩

theorem meets_tell_want (h : ∀ events, after.Tells events → goal.Tells (⟨event, mark⟩ :: events)) :
    Meets goal r ((r.tell event mark).want [after]) :=
  ⟨[⟨event, mark⟩], [after], rfl, rfl, fun events hevents => h events hevents.one⟩

variable (hgoal : goal.closing = some closing) (hafter : after.closing = some closing)
include hgoal

theorem meets_close : Meets goal r (r.tell closing mark) :=
  meets_tell (tells_closing hgoal mark)

include hafter

theorem meets_missing : Meets goal r ((r.tellEmpty mark).want [after]) :=
  meets_tell_want fun _ hevents => tells_cons hgoal hafter (.scalar "" .plain none mark) hevents

theorem meets_node : Meets goal r (r.want [.node block unindented, after]) := by
  refine meets_want fun events hevents => ?_
  cases hevents with
  | cons hnode hrest =>
    obtain ⟨tree, rfl⟩ := hnode
    exact tells_cons hgoal hafter tree hrest.one

theorem meets_nodeUnless (missing : TokenKind → Bool) :
    Meets goal r (nodeUnless missing (.node block unindented) after r) := by
  rw [nodeUnless]
  split
  · exact meets_missing hgoal hafter
  · exact meets_node hgoal hafter

end Meets

section Node

variable {r next : Reading} {anchor : Option Nat} {block unindented tagged : Bool}

theorem takeAnchor_keeps (r : Reading) :
    r.takeAnchor.2.events = r.events ∧ r.takeAnchor.2.goals = r.goals := by
  rw [takeAnchor]
  split <;> exact ⟨rfl, rfl⟩

theorem takeTag_keeps (h : r.takeTag = some (tagged, next)) :
    next.events = r.events ∧ next.goals = r.goals := by
  rw [takeTag] at h
  split at h
  · split at h
    · cases h
    · cases h
      exact ⟨rfl, rfl⟩
  · cases h
    exact ⟨rfl, rfl⟩

theorem takeProperties_keeps (h : r.takeProperties = some (anchor, tagged, next)) :
    next.events = r.events ∧ next.goals = r.goals := by
  obtain ⟨hevents, hgoals⟩ := takeAnchor_keeps r
  rw [takeProperties] at h
  split at h
  · -- an anchor, and then perhaps a tag
    next heq =>
    rw [heq] at hevents hgoals
    obtain ⟨⟨tagged, after⟩, htag, h⟩ := Option.bind_eq_some_iff.1 h
    cases h
    obtain ⟨hevents', hgoals'⟩ := takeTag_keeps htag
    exact ⟨hevents'.trans hevents, hgoals'.trans hgoals⟩
  · -- a tag, and then perhaps an anchor
    next heq =>
    rw [heq] at hevents hgoals
    obtain ⟨⟨tagged, after⟩, htag, h⟩ := Option.bind_eq_some_iff.1 h
    obtain ⟨hevents', hgoals'⟩ := takeTag_keeps htag
    cases tagged with
    | false =>
      cases h
      exact ⟨hevents'.trans hevents, hgoals'.trans hgoals⟩
    | true =>
      cases h
      obtain ⟨hevents'', hgoals''⟩ := takeAnchor_keeps after
      exact ⟨hevents''.trans (hevents'.trans hevents), hgoals''.trans (hgoals'.trans hgoals)⟩

theorem meets_readContent (h : r.readContent block unindented anchor tagged = some next) :
    Meets (.node block unindented) r next := by
  have hscalar (text : String) (style : Style) (mark : Mark) :
      (Goal.node block unindented).Tells [⟨.scalar text style anchor, mark⟩] :=
    ⟨.scalar text style anchor mark, rfl⟩
  have hmissing (h : (if tagged || anchor.isSome then
      some (r.tell (.scalar "" .plain anchor) r.mark) else none) = some next) :
      Meets (.node block unindented) r next := by
    split at h
    · cases h
      exact meets_tell (hscalar _ _ _)
    · cases h
  rw [readContent] at h
  split at h
  · split at h
    · cases h
      exact meets_tell_want fun _ => tells_sequence rfl anchor r.mark
    · exact hmissing h
  · cases h
    exact (meets_tell (hscalar _ _ _)).of_take
  · cases h
    exact (meets_tell_want fun _ => tells_sequence rfl anchor r.mark).of_take
  · cases h
    exact (meets_tell_want fun _ => tells_mapping rfl anchor r.mark).of_take
  · split at h
    · cases h
      exact (meets_tell_want fun _ => tells_sequence rfl anchor r.mark).of_take
    · exact hmissing h
  · split at h
    · cases h
      exact (meets_tell_want fun _ => tells_mapping rfl anchor r.mark).of_take
    · exact hmissing h
  · exact hmissing h

theorem meets_readNode (h : r.readNode block unindented = some next) :
    Meets (.node block unindented) r next := by
  rw [readNode] at h
  split at h
  · obtain ⟨anchor, -, rfl⟩ := Option.map_eq_some_iff.1 h
    have halias : (Goal.node block unindented).Tells [⟨.alias anchor, r.mark⟩] :=
      ⟨.alias anchor r.mark, rfl⟩
    exact (meets_tell halias).of_take
  · obtain ⟨⟨anchor, tagged, after⟩, hproperties, h⟩ := Option.bind_eq_some_iff.1 h
    obtain ⟨hevents, hgoals⟩ := takeProperties_keeps hproperties
    obtain ⟨told, goals, htold, hleft, htells⟩ := meets_readContent h
    exact ⟨told, goals, hevents ▸ htold, hgoals ▸ hleft, htells⟩

end Node

section Entry

variable {goal : Goal} {r next : Reading}

/-- A pair in a flow sequence is a mapping with one key. -/
theorem meets_pair (hgoal : goal.closing = some .sequenceEnd) (mark : Mark) :
    Meets goal r ((r.tell (.mappingStart none) mark).want [.pairKey, .flowEntry false]) := by
  refine ⟨[⟨.mappingStart none, mark⟩], [.pairKey, .flowEntry false], rfl, rfl,
    fun events hevents => ?_⟩
  cases hevents with
  | cons hpair hrest =>
    obtain ⟨children, close, rfl⟩ := hpair
    exact tells_cons hgoal rfl (.mapping none mark children close) hrest.one

theorem meets_readFlowEntry (hgoal : goal.closing = some .sequenceEnd)
    (h : r.readFlowEntry = some next) : Meets goal r next := by
  rw [readFlowEntry] at h
  split at h
  · cases h
    exact (meets_close hgoal).of_take
  · cases h
    exact (meets_pair hgoal r.mark).of_take
  · cases h
    exact meets_node hgoal rfl

theorem meets_readFlowKey (hgoal : goal.closing = some .mappingEnd)
    (h : r.readFlowKey = some next) : Meets goal r next := by
  rw [readFlowKey] at h
  split at h
  · cases h
    exact (meets_nodeUnless hgoal rfl _).of_take
  · cases h
    exact meets_missing hgoal rfl
  · cases h
    exact (meets_close hgoal).of_take
  · cases h
    exact meets_node hgoal rfl

end Entry

/-- Whatever a goal is met with is told of it, or may still be told of the goals in its place. -/
theorem meets {goal : Goal} {r next : Reading} (h : r.meet goal = some next) :
    Meets goal r next := by
  cases goal with
  | node block unindented => exact meets_readNode h
  | blockEntry =>
    rw [meet] at h
    split at h
    · cases h
      exact (meets_nodeUnless rfl rfl _).of_take
    · cases h
      exact (meets_close rfl).of_take
    · cases h
  | unindentedEntry =>
    rw [meet] at h
    split at h
    · cases h
      exact (meets_nodeUnless rfl rfl _).of_take
    · cases h
      exact meets_close rfl
  | blockKey =>
    rw [meet] at h
    split at h
    · cases h
      exact (meets_nodeUnless rfl rfl _).of_take
    · cases h
      exact meets_missing rfl rfl
    · cases h
      exact (meets_close rfl).of_take
    · cases h
  | blockValue =>
    rw [meet] at h
    split at h
    · cases h
      exact (meets_nodeUnless rfl rfl _).of_take
    · cases h
      exact meets_missing rfl rfl
  | flowEntry first =>
    rw [meet] at h
    split at h
    · exact meets_readFlowEntry rfl h
    · split at h
      · exact (meets_readFlowEntry rfl h).of_take
      · cases h
  | pairKey =>
    rw [meet] at h
    split at h
    · cases h
      exact (meets_missing rfl rfl).of_take
    · cases h
      exact meets_node rfl rfl
  | pairValue =>
    rw [meet] at h
    split at h
    · cases h
      exact (meets_nodeUnless rfl rfl _).of_take
    · cases h
      exact meets_missing rfl rfl
  | pairEnd =>
    cases h
    exact meets_close rfl
  | flowKey first =>
    rw [meet] at h
    split at h
    · exact meets_readFlowKey rfl h
    · split at h
      · exact (meets_readFlowKey rfl h).of_take
      · cases h
  | flowValue =>
    rw [meet] at h
    split at h
    · split at h
      · cases h
        exact (meets_missing rfl rfl).of_take
      · cases h
        exact (meets_node rfl rfl).of_take
    · cases h
      exact meets_missing rfl rfl
  | missingValue =>
    cases h
    exact meets_missing rfl rfl

/-- A whole run tells what its goals may be met with. -/
theorem run_tells {steps : Nat} {r final : Reading} (h : run steps r = some final) :
    ∃ told, final.events = told.reverse ++ r.events ∧ TellAll r.goals told := by
  induction steps generalizing r with
  | zero => cases h
  | succ steps ih =>
    rw [run] at h
    split at h
    · next hgoals =>
      cases h
      exact ⟨[], rfl, hgoals ▸ .nil⟩
    · next goal goals hgoals =>
      obtain ⟨next, hmeet, hrun⟩ := Option.bind_eq_some_iff.1 h
      obtain ⟨told, new, hevents, hnext, htells⟩ := meets hmeet
      obtain ⟨later, hfinal, hlater⟩ := ih hrun
      rw [hnext] at hlater
      obtain ⟨front, back, rfl, hfront, hback⟩ := hlater.of_append
      refine ⟨told ++ (front ++ back), ?_, ?_⟩
      · simp [hfinal, hevents]
      · rw [hgoals, ← List.append_assoc]
        exact .cons (htells front hfront) hback

end Reading

namespace Event

/-- Whether events are properly nested, those of one document or of none. -/
def AreNested (events : List MarkedEvent) : Prop :=
  events = [] ∨ ∃ tree : Tree, events = tree.events

theorem areNested_of_node {block unindented : Bool} {told : List MarkedEvent}
    (h : Goal.TellAll [.node block unindented] told) : AreNested told :=
  .inr h.one

/-- A document is started with the goal of its root, or it is empty. -/
theorem areNested_of_start {tokens : List Token} {r : Reading} {told : List MarkedEvent}
    (h : Reading.start tokens = some r) (htold : Goal.TellAll r.goals told) :
    AreNested (r.events.reverse ++ told) := by
  obtain ⟨⟨handles, content⟩, -, h⟩ := Option.bind_eq_some_iff.1 h
  dsimp only at h
  split at h
  · -- behind a marker
    obtain rfl := Option.some.inj h
    split at htold
    · cases htold
      rw [if_pos ‹_›]
      exact .inr ⟨.scalar "" .plain none _, rfl⟩
    · rw [if_neg ‹_›]
      exact areNested_of_node htold
  · split at h
    · cases h
    · split at h
      · cases h
        cases htold
        exact .inl rfl
      · cases h
        exact areNested_of_node htold
  · cases h

theorem areNested_ofTokens {tokens : List Token} {events : List MarkedEvent}
    (h : ofTokens? tokens = some events) : AreNested events := by
  obtain ⟨start, hstart, h⟩ := Option.bind_eq_some_iff.1 h
  obtain ⟨final, hrun, h⟩ := Option.bind_eq_some_iff.1 h
  split at h
  · cases h
  · cases h
  · cases h
  · cases h
    obtain ⟨told, hevents, htold⟩ := Reading.run_tells hrun
    rw [hevents, List.reverse_append, List.reverse_reverse]
    exact areNested_of_start hstart htold

end Event

end BuildGraph.Yaml

namespace BuildGraph.Node

variable {text file : String} {document : Node}

/-- A text is malformed, or its document fails with its structure only: no end of a collection is
ever one too many. -/
theorem malformed_or_isStructural_of_parse {e : ParseError} (h : parse text file = .error e) :
    e = .malformed file ∨ e.IsStructural file := by
  rw [parse] at h
  split at h
  · next events hevents =>
    rcases Yaml.Event.areNested_ofTokens hevents with rfl | ⟨tree, rfl⟩
    · cases h
    · rw [ofEvents_eq_read] at h
      cases hread : tree.read file [] with
      | ok => rw [hread] at h; cases h
      | error e' =>
        rw [hread] at h
        exact .inr (Except.error.inj h ▸ tree.isStructural_of_read hread)
  · exact .inl (Except.error.inj h).symm

/-- A document that is read from a file has all hereditary properties. -/
theorem IsHereditary.of_parseDocument {q : Node → Prop} (hq : IsHereditary file q)
    (h : parseDocument text file = .ok document) : q document := by
  rw [parseDocument, bind_eq_ok_iff] at h
  obtain ⟨node, hparse, hroot⟩ := h
  have hempty {place : Provenance} (hplace : place.file = file) : q (emptyMapping place) :=
    hq.mapping [] place hplace List.nodup_nil (List.forall_mem_nil _)
  have hnode : q node ∧ node.place.file = file := by
    rw [parse] at hparse
    split at hparse
    · next events hevents =>
      rcases Yaml.Event.areNested_ofTokens hevents with rfl | ⟨tree, rfl⟩
      · cases hparse
        exact ⟨hempty rfl, rfl⟩
      · rw [ofEvents_eq_read, map_eq_ok_iff] at hparse
        obtain ⟨⟨read, known⟩, hread, rfl⟩ := hparse
        have hplaces := tree.holds_of_read (isHereditary_places file) (List.forall_mem_nil _) hread
        exact ⟨(tree.holds_of_read hq (List.forall_mem_nil _) hread).1, hplaces.1 _ .root⟩
    · cases hparse
  unfold expectDocument at hroot
  split at hroot
  · exact Except.ok.inj hroot ▸ hnode.1
  · exact Except.ok.inj hroot ▸ hempty hnode.2
  · cases hroot

/-- No mapping of a document that is read from a file repeats a key. -/
theorem hasDistinctKeys_of_parseDocument (h : parseDocument text file = .ok document) :
    document.HasDistinctKeys :=
  (isHereditary_hasDistinctKeys file).of_parseDocument h

theorem isHereditary_allScalars (file : String) :
    IsHereditary file (AllScalars (Scalar.IsIn file)) where
  scalar _ _ hplace := allScalars_scalar hplace
  sequence _ _ _ hitems := allScalars_sequence_iff.2 hitems
  mapping _ _ _ _ hmembers := allScalars_mapping_iff.2 hmembers

/-- The scalars of a document that is read from a file are written in the file. -/
theorem isIn_of_parseDocument (h : parseDocument text file = .ok document) :
    document.AllScalars (Scalar.IsIn file) :=
  (isHereditary_allScalars file).of_parseDocument h

end BuildGraph.Node
