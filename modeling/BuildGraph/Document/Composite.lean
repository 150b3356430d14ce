import BuildGraph.Document.Node

/-!
# Composition of documents

`Node.composite` merges one mapping into another. Keys that the target lacks are added, mappings on
both sides are merged key by key, and any other value present on both sides is combined as the
policy says. The result is a pair: the target as the composition left it, and the error that stopped
it, if there was one. What was merged before the error stays merged.
-/

namespace BuildGraph

/-- How values present on both sides are combined. -/
inductive CompositePolicy
  /-- The source takes the place of the target, provenance included. -/
  | overwrite
  /-- Sequences are appended, target items first; other values are overwritten. -/
  | arrayAppend
  /-- The source may only add keys. -/
  | strict
  deriving DecidableEq, Repr

/-- Why a composition stopped. The path is the chain of keys down to the value at fault. -/
inductive CompositeError
  /-- The value at `path` would change its type. -/
  | typeConflict (path : List String) (expected actual : ValueType)
  /-- A strict composition met an existing key; `place` is where the new value was declared. -/
  | override (path : List String) (place : Provenance)
  deriving DecidableEq, Repr

namespace CompositeError

/-- The keys down to the value at fault, with dots between them. -/
def path : CompositeError → String
  | typeConflict keys _ _ | override keys _ => ".".intercalate keys

/-- The text of a composition error. -/
def message (e : CompositeError) : String :=
  match e with
  | typeConflict _ expected actual =>
    "Value at '" ++ e.path ++ "' is of type '" ++ expected.name ++ "', cannot composite a '" ++
      actual.name ++ "' onto it"
  | override _ place => place.text ++ ": Cannot override existing key '" ++ e.path ++ "'"

end CompositeError

namespace ValueType

/-- Whether a value may be replaced by one of another type under type safety: null never conflicts,
and strings and integers are interchangeable. -/
def compatible (expected actual : ValueType) : Bool :=
  expected == actual || expected == null || actual == null ||
    (expected.isStringLike && actual.isStringLike)

end ValueType

namespace CompositePolicy

/-- A value combined with the value already at `path`, unless both are mappings. A mapping goes onto
nothing but a mapping or a null, whatever the flag. -/
def combine (policy : CompositePolicy) (typesafe : Bool) (path : List String)
    (source target : Node) : Except CompositeError Node :=
  if policy = .strict then .error (.override path source.place)
  else if (source.isMapping && !target.isNull) ||
      (typesafe && !target.valueType.compatible source.valueType) then
    .error (.typeConflict path target.valueType source.valueType)
  else match policy, target, source with
    | .arrayAppend, .sequence items place, .sequence extra _ => .ok (.sequence (items ++ extra) place)
    | _, _, _ => .ok source

end CompositePolicy

/-- A composed value together with the error that stopped its composition, if any. -/
structure Composed (α : Type) where
  /-- The target as the composition left it. -/
  result : α
  /-- What stopped the composition. -/
  error : Option CompositeError

namespace Node

mutual
/-- Merges the value `source` into the value that the target has at `path`. -/
def compositeValue (policy : CompositePolicy) (typesafe : Bool) :
    (source : Node) → (path : List String) → (target : Node) → Composed Node
  | .mapping sources _, path, .mapping members p =>
    let merged := compositeMembers policy typesafe sources path members
    ⟨.mapping merged.result p, merged.error⟩
  | source, path, target =>
    match policy.combine typesafe path source target with
    | .ok node => ⟨node, none⟩
    | .error e => ⟨target, some e⟩

/-- Merges members one by one into the members that the target has below `path`, up to the first
error. -/
def compositeMembers (policy : CompositePolicy) (typesafe : Bool) :
    (sources : List (String × Node)) → (path : List String) → (members : List (String × Node)) →
      Composed (List (String × Node))
  | [], _, members => ⟨members, none⟩
  | (key, value) :: rest, path, members =>
    match members.lookup key with
    | none => compositeMembers policy typesafe rest path (Keyed.insert key value members)
    | some existing =>
      let merged := compositeValue policy typesafe value (path ++ [key]) existing
      let members := Keyed.insert key merged.result members
      match merged.error with
      | some e => ⟨members, some e⟩
      | none => compositeMembers policy typesafe rest path members
end

/-- Merges `source` into `target`. Both must be mappings. -/
def composite (target source : Node) (policy : CompositePolicy) (typesafe : Bool) :
    Composed Node :=
  if source.isMapping && target.isMapping then compositeValue policy typesafe source [] target
  else ⟨target, some (.typeConflict [] target.valueType source.valueType)⟩

end Node

end BuildGraph
