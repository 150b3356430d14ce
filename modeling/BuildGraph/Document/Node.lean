import BuildGraph.Keyed
import BuildGraph.Provenance

/-!
# Documents

A document is a tree of nodes. A node is a scalar, a sequence or a mapping, and carries the place it
was declared at. Members of a mapping keep their order, so that everything derived from a document
is deterministic. `Node.HasDistinctKeys` says that no mapping in the tree repeats a key; every
operation of the library that builds nodes keeps it.
-/

namespace BuildGraph

/-- A value that is neither a sequence nor a mapping. -/
inductive Scalar
  | null
  | bool (value : Bool)
  | int (value : Int)
  | string (value : String)
  deriving DecidableEq, Repr, Inhabited

/-- A value with the place it was declared at. -/
inductive Node
  | scalar (value : Scalar) (place : Provenance)
  | sequence (items : List Node) (place : Provenance)
  | mapping (members : List (String × Node)) (place : Provenance)

instance : Inhabited Node := ⟨.scalar .null default⟩

/-- The type of a value, as diagnostics name it. -/
inductive ValueType
  | null
  | boolean
  | integer
  | string
  | sequence
  | mapping
  deriving DecidableEq, Repr, Inhabited

namespace ValueType

/-- The name of a type in messages. -/
def name : ValueType → String
  | null => "null"
  | boolean => "boolean"
  | integer => "integer"
  | string => "string"
  | sequence => "sequence"
  | mapping => "mapping"

/-- Integers are written like strings in a document (a branch named `1234` is still a branch name),
so the two are interchangeable wherever types are compared. -/
def isStringLike : ValueType → Bool
  | string | integer => true
  | _ => false

end ValueType

namespace Scalar

/-- The type of a scalar. -/
def valueType : Scalar → ValueType
  | null => .null
  | bool _ => .boolean
  | int _ => .integer
  | string _ => .string

end Scalar

namespace Node

/-- Where a node was declared. -/
def place : Node → Provenance
  | scalar _ p | sequence _ p | mapping _ p => p

/-- The type of the value of a node. -/
def valueType : Node → ValueType
  | scalar s _ => s.valueType
  | sequence _ _ => .sequence
  | mapping _ _ => .mapping

/-- A mapping without members. -/
def emptyMapping (place : Provenance) : Node :=
  .mapping [] place

/-- Whether a node is the null value. -/
def isNull : Node → Bool
  | scalar .null _ => true
  | _ => false

/-- Whether a node is a mapping. -/
def isMapping : Node → Bool
  | mapping _ _ => true
  | _ => false

theorem exists_of_isMapping {node : Node} (h : node.isMapping = true) :
    ∃ members p, node = mapping members p := by
  cases node with
  | mapping members p => exact ⟨members, p, rfl⟩
  | scalar => cases h
  | sequence => cases h

/-- Whether a node is a sequence. -/
def isSequence : Node → Bool
  | sequence _ _ => true
  | _ => false

/-- Whether a node is neither a sequence nor a mapping. -/
def isScalar : Node → Bool
  | scalar _ _ => true
  | _ => false

/-- The members of a mapping, none for any other node. -/
def members : Node → List (String × Node)
  | mapping members _ => members
  | _ => []

/-- The items of a sequence, none for any other node. -/
def items : Node → List Node
  | sequence items _ => items
  | _ => []

/-- The number of members or items; scalars have none. -/
def size : Node → Nat
  | sequence items _ => items.length
  | mapping members _ => members.length
  | scalar _ _ => 0

/-- The member under a key, if the node is a mapping that has one. -/
def get? (node : Node) (key : String) : Option Node :=
  node.members.lookup key

/-- Whether the node is a mapping with the key. -/
def hasKey (node : Node) (key : String) : Bool :=
  (node.get? key).isSome

/-- Puts a member into a mapping: in place if the key is there, at the end otherwise. Other nodes
stay as they are. -/
def insert (node : Node) (key : String) (value : Node) : Node :=
  match node with
  | mapping members p => .mapping (Keyed.insert key value members) p
  | _ => node

/-- Takes a member out of a mapping, the others keeping their order. -/
def erase (node : Node) (key : String) : Node :=
  match node with
  | mapping members p => .mapping (Keyed.erase key members) p
  | _ => node

@[simp] theorem place_erase (node : Node) (key : String) : (node.erase key).place = node.place := by
  cases node <;> rfl

/-- Taking a member out leaves the others. -/
theorem get?_erase_of_ne {key other : String} (h : other ≠ key) (node : Node) :
    (node.erase key).get? other = node.get? other := by
  cases node with
  | mapping members p => exact Keyed.lookup_erase_of_ne h members
  | scalar => rfl
  | sequence => rfl

/-- What a node holds, without its own place. -/
inductive Content
  | scalar (value : Scalar)
  | sequence (items : List Node)
  | mapping (members : List (String × Node))

instance : Inhabited Content := ⟨.scalar .null⟩

/-- The content of a node. -/
def content : Node → Content
  | scalar s _ => .scalar s
  | sequence items _ => .sequence items
  | mapping members _ => .mapping members

mutual
/-- Documents are compared together with the places of their nodes. -/
def decEq : (node other : Node) → Decidable (node = other)
  | scalar s p, scalar t q => decidable_of_iff (s = t ∧ p = q) (by simp)
  | sequence items p, sequence others q =>
    match itemsDecEq items others with
    | isTrue h => decidable_of_iff (p = q) (by simp [h])
    | isFalse h => isFalse fun heq => h (sequence.inj heq).1
  | mapping members p, mapping others q =>
    match membersDecEq members others with
    | isTrue h => decidable_of_iff (p = q) (by simp [h])
    | isFalse h => isFalse fun heq => h (mapping.inj heq).1
  | scalar _ _, sequence _ _ | scalar _ _, mapping _ _ | sequence _ _, scalar _ _
  | sequence _ _, mapping _ _ | mapping _ _, scalar _ _ | mapping _ _, sequence _ _ => isFalse nofun

/-- Items are compared one by one. -/
def itemsDecEq : (items others : List Node) → Decidable (items = others)
  | [], [] => isTrue rfl
  | [], _ :: _ | _ :: _, [] => isFalse nofun
  | item :: items, other :: others =>
    match decEq item other, itemsDecEq items others with
    | isTrue h, isTrue hs => isTrue (h ▸ hs ▸ rfl)
    | isFalse h, _ => isFalse fun heq => h (List.cons.inj heq).1
    | _, isFalse hs => isFalse fun heq => hs (List.cons.inj heq).2

/-- Members are compared one by one, together with their keys. -/
def membersDecEq : (members others : List (String × Node)) → Decidable (members = others)
  | [], [] => isTrue rfl
  | [], _ :: _ | _ :: _, [] => isFalse nofun
  | (key, value) :: members, (other, found) :: others =>
    match decEq value found, membersDecEq members others with
    | isTrue h, isTrue hs => decidable_of_iff (key = other) (by simp [h, hs])
    | isFalse h, _ => isFalse fun heq => h (Prod.mk.inj (List.cons.inj heq).1).2
    | _, isFalse hs => isFalse fun heq => hs (List.cons.inj heq).2
end

instance : DecidableEq Node := decEq

mutual
/-- No mapping anywhere in the tree repeats a key. -/
def HasDistinctKeys : Node → Prop
  | scalar _ _ => True
  | sequence items _ => ItemsHaveDistinctKeys items
  | mapping members _ => (Keyed.keys members).Nodup ∧ MembersHaveDistinctKeys members

/-- No mapping in any of the items repeats a key. -/
def ItemsHaveDistinctKeys : List Node → Prop
  | [] => True
  | item :: rest => item.HasDistinctKeys ∧ ItemsHaveDistinctKeys rest

/-- No mapping in the value of any of the members repeats a key. -/
def MembersHaveDistinctKeys : List (String × Node) → Prop
  | [] => True
  | (_, value) :: rest => value.HasDistinctKeys ∧ MembersHaveDistinctKeys rest
end

theorem itemsHaveDistinctKeys_iff {items : List Node} :
    ItemsHaveDistinctKeys items ↔ ∀ item ∈ items, item.HasDistinctKeys := by
  induction items with
  | nil => simp [ItemsHaveDistinctKeys]
  | cons item rest ih => simp [ItemsHaveDistinctKeys, ih]

theorem membersHaveDistinctKeys_iff {members : List (String × Node)} :
    MembersHaveDistinctKeys members ↔ ∀ member ∈ members, member.2.HasDistinctKeys := by
  induction members with
  | nil => simp [MembersHaveDistinctKeys]
  | cons member rest ih => simp [MembersHaveDistinctKeys, ih]

/-- What is taken out of a mapping is gone. -/
theorem get?_erase_self {node : Node} (h : node.HasDistinctKeys) (key : String) :
    (node.erase key).get? key = none := by
  cases node with
  | mapping members p =>
    have herase := Keyed.lookup_erase key key h.1
    rwa [if_pos rfl] at herase
  | scalar => rfl
  | sequence => rfl

mutual
/-- Equality of trees, values and places alike, whatever the order of the members of mappings. -/
def same : Node → Node → Bool
  | scalar s p, scalar t q => s == t && p == q
  | sequence items p, sequence others q => sameItems items others && p == q
  | mapping members p, mapping others q =>
    members.length == others.length && sameMembers members others && p == q
  | _, _ => false

/-- Item by item equality of two sequences. -/
def sameItems : List Node → List Node → Bool
  | [], [] => true
  | item :: rest, other :: others => same item other && sameItems rest others
  | _, _ => false

/-- Every one of the members has an equal one under its key among the others. -/
def sameMembers : List (String × Node) → List (String × Node) → Bool
  | [], _ => true
  | (key, value) :: rest, others =>
    (match others.lookup key with
      | some other => same value other
      | none => false) && sameMembers rest others
end

/-- The plain value of a node, without any places. -/
inductive Value
  | scalar (value : Scalar)
  | sequence (items : List Value)
  | mapping (members : List (String × Value))

mutual
/-- The value of a node with every place forgotten. -/
def value : Node → Value
  | scalar s _ => .scalar s
  | sequence items _ => .sequence (itemValues items)
  | mapping members _ => .mapping (memberValues members)

/-- The values of the items of a sequence. -/
def itemValues : List Node → List Value
  | [] => []
  | item :: rest => item.value :: itemValues rest

/-- The values of the members of a mapping, under their keys. -/
def memberValues : List (String × Node) → List (String × Value)
  | [] => []
  | (key, value) :: rest => (key, value.value) :: memberValues rest
end

end Node

end BuildGraph
