import BuildGraph.Document.Json
import BuildGraph.Document.Select
import BuildGraph.Proofs.Text.Decimal
import BuildGraph.Proofs.Text.Quoted

/-!
# Documents told apart by their JSON text

The JSON text of a node determines the plain value of the node. The text of a value may contain every
separator, inside its strings and between its parts, and still shows where it ends: in whatever text it
stands, there is one way to read a value from the front (`ReadsBack`).
-/

namespace BuildGraph

namespace Text

/-- The type of the value that a JSON text begins with, if it begins with a value and not with what
stands after one. -/
def valueAhead? : List Char → Option ValueType
  | [] | ',' :: _ | ']' :: _ | '}' :: _ => none
  | 'n' :: _ => some .null
  | 't' :: _ | 'f' :: _ => some .boolean
  | '"' :: _ => some .string
  | '[' :: _ => some .sequence
  | '{' :: _ => some .mapping
  | _ => some .integer

/-- Whether a text may follow a value. -/
def FollowsValue (r : List Char) : Prop := valueAhead? r = none

theorem valueAhead?_of_isDecimal {c : Char} (h : isDecimal c = true) (r : List Char) :
    valueAhead? (c :: r) = some .integer := by
  unfold valueAhead?
  split <;> simp_all [isDecimal]

theorem takeWhile_isDecimal {i : Int} {r : List Char} (hr : FollowsValue r) :
    ((toString i).toList ++ r).takeWhile isDecimal = (toString i).toList := by
  have hstop : r.takeWhile isDecimal = [] := by
    cases r with
    | nil => rfl
    | cons c r =>
      refine List.takeWhile_cons_of_neg fun hc => ?_
      rw [FollowsValue, valueAhead?_of_isDecimal hc] at hr
      cases hr
  rw [List.takeWhile_append_of_pos fun c => isDecimal_of_mem_toString, hstop, List.append_nil]

theorem toString_append_inj {i j : Int} {r s : List Char} (hr : FollowsValue r) (hs : FollowsValue s) :
    (toString i).toList ++ r = (toString j).toList ++ s ↔ i = j ∧ r = s := by
  constructor
  · intro h
    have htext : (toString i).toList = (toString j).toList := by
      rw [← takeWhile_isDecimal hr, h, takeWhile_isDecimal hs]
    -- both integers are read back from the same text
    have hvalue : some i = some j := by
      rw [← signedValue?_toString, htext, signedValue?_toString]
    exact ⟨Option.some.inj hvalue, List.append_cancel_left (htext ▸ h)⟩
  · rintro ⟨rfl, rfl⟩
    rfl

end Text

open Text

section Lists

variable {α β : Type} {text : α → List Char} {val : α → β}

/-- Whether the text of `x` shows what `x` is worth and where it ends, in front of whatever may follow. -/
def ReadsBack (text : α → List Char) (val : α → β) (x : α) : Prop :=
  ∀ y r s, FollowsValue r → FollowsValue s → (text x ++ r = text y ++ s ↔ val x = val y ∧ r = s)

/-- Whether a character closes a collection. -/
def Closes (c : Char) : Prop := c = ']' ∨ c = '}'

theorem commaSeparated_cons (part : List Char) (parts : List (List Char)) :
    commaSeparated (part :: parts) = part ++ parts.flatMap (',' :: ·) := by
  induction parts generalizing part with
  | nil => simp [commaSeparated]
  | cons next parts ih =>
    rw [commaSeparated, List.intercalate_cons_cons, List.flatMap_cons]
    have hrest := ih next
    rw [commaSeparated] at hrest
    rw [hrest, List.append_assoc, List.cons_append, List.cons_append, List.nil_append]

theorem followsValue_flatMap {c : Char} (hc : Closes c) (parts : List (List Char)) (r : List Char) :
    FollowsValue (parts.flatMap (',' :: ·) ++ c :: r) := by
  cases parts with
  | nil => rcases hc with rfl | rfl <;> rfl
  | cons part parts => rfl

/-- Texts that each follow a comma show which they are and where the last one ends. -/
theorem flatMap_comma_append_inj {c : Char} (hc : Closes c) {xs : List α}
    (hxs : ∀ x ∈ xs, ReadsBack text val x) (ys : List α) (r s : List Char) :
    (xs.map text).flatMap (',' :: ·) ++ c :: r = (ys.map text).flatMap (',' :: ·) ++ c :: s ↔
      xs.map val = ys.map val ∧ r = s := by
  have hcomma : ',' ≠ c := by rcases hc with rfl | rfl <;> decide
  induction xs generalizing ys with
  | nil =>
    cases ys with
    | nil => simp
    | cons y ys => simp [hcomma.symm]
  | cons x xs ih =>
    cases ys with
    | nil => simp [hcomma]
    | cons y ys =>
      simp only [List.map_cons, List.flatMap_cons, List.cons_append, List.append_assoc,
        List.cons.injEq, true_and]
      rw [hxs x List.mem_cons_self y _ _ (followsValue_flatMap hc _ r) (followsValue_flatMap hc _ s),
        and_assoc]
      exact and_congr_right fun _ => ih (fun x hx => hxs x (List.mem_cons_of_mem _ hx)) ys

/-- Texts with commas between them show which they are, if none of them can be taken for the end of
the collection. -/
theorem commaSeparated_append_inj {c : Char} (hc : Closes c)
    (hopens : ∀ x r, ¬FollowsValue (text x ++ r)) {xs : List α}
    (hxs : ∀ x ∈ xs, ReadsBack text val x) (ys : List α) (r s : List Char) :
    commaSeparated (xs.map text) ++ c :: r = commaSeparated (ys.map text) ++ c :: s ↔
      xs.map val = ys.map val ∧ r = s := by
  have hne (x : α) (rest t : List Char) : text x ++ rest ≠ c :: t :=
    fun h => hopens x rest (h ▸ followsValue_flatMap hc [] t)
  cases xs with
  | nil =>
    cases ys with
    | nil => simp [commaSeparated]
    | cons y ys =>
      rw [List.map_cons, commaSeparated_cons, List.append_assoc]
      exact iff_of_false (fun h => hne y _ r h.symm) (by simp)
  | cons x xs =>
    cases ys with
    | nil =>
      rw [List.map_cons, commaSeparated_cons, List.append_assoc]
      exact iff_of_false (hne x _ s) (by simp)
    | cons y ys =>
      have htail := flatMap_comma_append_inj hc hxs (y :: ys) r s
      rw [← htail]
      simp only [List.map_cons, commaSeparated_cons, List.flatMap_cons, List.cons_append,
        List.cons.injEq, true_and]

end Lists

/-- The text of a scalar begins as its type requires. -/
theorem Scalar.valueAhead?_json (s : Scalar) (r : List Char) :
    valueAhead? (s.json ++ r) = some s.valueType := by
  cases s with
  | null => rfl
  | bool b => cases b <;> rfl
  | int i =>
    rw [json]
    cases hcs : (toString i).toList with
    | nil => exact absurd hcs (toString_ne_nil i)
    | cons c cs =>
      exact valueAhead?_of_isDecimal (isDecimal_of_mem_toString (hcs ▸ List.mem_cons_self)) _
  | string t => rfl

theorem Scalar.valueType_ne (s : Scalar) : s.valueType ≠ .sequence ∧ s.valueType ≠ .mapping := by
  cases s <;> exact ⟨nofun, nofun⟩

theorem Scalar.readsBack (s : Scalar) : ReadsBack json id s := by
  intro t r r' hr hr'
  constructor
  · intro h
    have htype : s.valueType = t.valueType := by
      have hahead := congrArg valueAhead? h
      rw [valueAhead?_json, valueAhead?_json] at hahead
      exact Option.some.inj hahead
    cases s <;> cases t <;> cases htype
    case mp.null.null.refl => exact ⟨rfl, List.append_cancel_left h⟩
    case mp.bool.bool.refl b b' =>
      have hbool : b = b' := by
        have hhead := congrArg List.head? h
        cases b <;> cases b' <;> simp [json] at hhead ⊢
      subst hbool
      exact ⟨rfl, List.append_cancel_left h⟩
    case mp.int.int.refl i j =>
      obtain ⟨rfl, hrest⟩ := (toString_append_inj hr hr').1 h
      exact ⟨rfl, hrest⟩
    case mp.string.string.refl u v =>
      obtain ⟨rfl, hrest⟩ := quote_append_inj.1 h
      exact ⟨rfl, hrest⟩
  · rintro ⟨rfl, rfl⟩
    rfl

namespace Node

variable {motive : Node → Prop}

/-- Induction on documents: a node has a property if its parts having it gives it to the node. -/
@[elab_as_elim]
theorem inductOnParts (scalar : ∀ s p, motive (.scalar s p))
    (sequence : ∀ items p, (∀ item ∈ items, motive item) → motive (.sequence items p))
    (mapping : ∀ members p, (∀ member ∈ members, motive member.2) → motive (.mapping members p)) :
    ∀ node, motive node
  | .scalar s p => scalar s p
  | .sequence items p =>
    sequence items p fun item _ => inductOnParts scalar sequence mapping item
  | .mapping members p =>
    mapping members p fun member _ => inductOnParts scalar sequence mapping member.2
termination_by node => sizeOf node
decreasing_by
  · have := List.sizeOf_lt_of_mem ‹_›
    simp only [Node.sequence.sizeOf_spec]
    omega
  · have := List.sizeOf_lt_of_mem ‹member ∈ members›
    obtain ⟨key, value⟩ := member
    simp only [Node.mapping.sizeOf_spec, Prod.mk.sizeOf_spec] at this ⊢
    omega

theorem itemTexts_eq_map (items : List Node) : itemTexts items = items.map jsonChars := by
  induction items with
  | nil => rfl
  | cons item items ih => rw [itemTexts, ih, List.map_cons]

theorem itemValues_eq_map (items : List Node) : itemValues items = items.map value := by
  induction items with
  | nil => rfl
  | cons item items ih => rw [itemValues, ih, List.map_cons]

/-- The JSON text of a member. -/
def memberText (member : String × Node) : List Char :=
  Text.quote member.1 ++ ':' :: member.2.jsonChars

/-- The value of a member under its key. -/
def memberValue (member : String × Node) : String × Value := (member.1, member.2.value)

theorem memberTexts_eq_map (members : List (String × Node)) :
    memberTexts members = members.map memberText := by
  induction members with
  | nil => rfl
  | cons member members ih => rw [memberTexts, ih, List.map_cons, memberText]

theorem memberValues_eq_map (members : List (String × Node)) :
    memberValues members = members.map memberValue := by
  induction members with
  | nil => rfl
  | cons member members ih => rw [memberValues, ih, List.map_cons, memberValue]

/-- The text of a node begins as the type of its value requires. -/
theorem valueAhead?_jsonChars (node : Node) (r : List Char) :
    valueAhead? (node.jsonChars ++ r) = some node.valueType := by
  cases node with
  | scalar s p => exact s.valueAhead?_json r
  | sequence items p => rfl
  | mapping members p => rfl

theorem not_followsValue_jsonChars (node : Node) (r : List Char) :
    ¬FollowsValue (node.jsonChars ++ r) := by
  rw [FollowsValue, valueAhead?_jsonChars]
  exact Option.some_ne_none _

theorem not_followsValue_memberText (member : String × Node) (r : List Char) :
    ¬FollowsValue (memberText member ++ r) :=
  Option.some_ne_none ValueType.string

/-- A member is read back if its value is: the key ends with its quote. -/
theorem readsBack_memberText {member : String × Node}
    (h : ReadsBack jsonChars value member.2) : ReadsBack memberText memberValue member := by
  intro other r s hr hs
  rw [memberText, memberText, List.append_assoc, List.append_assoc, quote_append_inj,
    List.cons_append, List.cons_append, List.cons.injEq, h other.2 r s hr hs, memberValue, memberValue,
    Prod.mk.injEq, and_assoc]
  simp only [true_and]

/-- The type of a plain value. -/
def Value.valueType : Value → ValueType
  | scalar s => s.valueType
  | sequence _ => .sequence
  | mapping _ => .mapping

theorem valueType_value (node : Node) : node.value.valueType = node.valueType := by
  cases node <;> rfl

theorem valueType_eq_of_value_eq {a b : Node} (h : a.value = b.value) : a.valueType = b.valueType := by
  rw [← valueType_value, h, valueType_value]

/-- Nodes of different types have neither their texts nor their values in common. -/
theorem append_eq_iff_of_valueType_ne {a b : Node} {r s : List Char}
    (h : a.valueType ≠ b.valueType) :
    a.jsonChars ++ r = b.jsonChars ++ s ↔ a.value = b.value ∧ r = s := by
  refine iff_of_false (fun htext => h ?_) fun hvalue => h (valueType_eq_of_value_eq hvalue.1)
  have hahead := congrArg valueAhead? htext
  rw [valueAhead?_jsonChars, valueAhead?_jsonChars] at hahead
  exact Option.some.inj hahead

/-- In whatever text it stands, the text of a node shows the value of the node and where it ends. -/
theorem readsBack (node : Node) : ReadsBack jsonChars value node := by
  induction node using inductOnParts with
  | scalar s p =>
    intro other r t hr ht
    cases other with
    | scalar s' q =>
      rw [jsonChars, jsonChars, s.readsBack s' r t hr ht, value, value, Value.scalar.injEq, id, id]
    | sequence others q => exact append_eq_iff_of_valueType_ne s.valueType_ne.1
    | mapping others q => exact append_eq_iff_of_valueType_ne s.valueType_ne.2
  | sequence items p ih =>
    intro other r t hr ht
    cases other with
    | scalar s q => exact append_eq_iff_of_valueType_ne s.valueType_ne.1.symm
    | sequence others q =>
      have hitems := commaSeparated_append_inj (.inl rfl) not_followsValue_jsonChars ih others r t
      simp only [jsonChars, value, itemTexts_eq_map, itemValues_eq_map, List.cons_append,
        List.append_assoc, List.nil_append, List.cons.injEq, true_and, Value.sequence.injEq]
      exact hitems
    | mapping others q => exact append_eq_iff_of_valueType_ne nofun
  | mapping members p ih =>
    intro other r t hr ht
    cases other with
    | scalar s q => exact append_eq_iff_of_valueType_ne s.valueType_ne.2.symm
    | sequence others q => exact append_eq_iff_of_valueType_ne nofun
    | mapping others q =>
      have hmembers := commaSeparated_append_inj (.inr rfl) not_followsValue_memberText
        (fun member h => readsBack_memberText (ih member h)) others r t
      simp only [jsonChars, value, memberTexts_eq_map, memberValues_eq_map, List.cons_append,
        List.append_assoc, List.nil_append, List.cons.injEq, true_and, Value.mapping.injEq]
      exact hmembers

theorem json_eq_iff_value_eq (a b : Node) : a.json = b.json ↔ a.value = b.value := by
  have hchars := a.readsBack b [] [] rfl rfl
  rw [List.append_nil, List.append_nil, and_iff_left rfl] at hchars
  rw [json, json, String.ofList_inj, hchars]

/-- The value one step below. -/
def Value.child? : Value → Step → Option Value
  | mapping members, .member key => members.lookup key
  | sequence items, .item index => items[index]?
  | _, _ => none

/-- The value that a path leads to. -/
def Value.select? (v : Value) : List Step → Option Value
  | [] => some v
  | step :: path => (v.child? step).bind (select? · path)

theorem lookup_map_memberValue (key : String) (members : List (String × Node)) :
    (members.map memberValue).lookup key = (members.lookup key).map value := by
  induction members with
  | nil => rfl
  | cons member members ih =>
    rw [List.map_cons, List.lookup_cons, List.lookup_cons, ih, memberValue]
    cases key == member.1 <;> rfl

theorem child?_value (node : Node) (step : Step) :
    node.value.child? step = (node.child? step).map value := by
  cases node with
  | scalar s p => cases step <;> rfl
  | sequence items p =>
    cases step with
    | member key => rfl
    | item index =>
      rw [value, itemValues_eq_map]
      exact List.getElem?_map
  | mapping members p =>
    cases step with
    | member key =>
      rw [value, memberValues_eq_map]
      exact lookup_map_memberValue key members
    | item index => rfl

/-- A path leads to the value of what it leads to. -/
theorem select?_value (node : Node) (path : List Step) :
    node.value.select? path = (node.select? path).map value := by
  induction path generalizing node with
  | nil => rfl
  | cons step path ih =>
    rw [Value.select?, select?, child?_value]
    cases node.child? step with
    | none => rfl
    | some child => exact ih child

/-- Two nodes have one JSON text exactly if they have one plain value. So wherever one of them has an
integer, a boolean or null and the other one a string, whatever it spells, their texts differ. -/
theorem json_unambiguous (a b : Node) :
    (a.json = b.json ↔ a.value = b.value) ∧
      ∀ path s p t q, s.valueType ≠ .string → a.select? path = some (.scalar s p) →
        b.select? path = some (.scalar (.string t) q) → a.json ≠ b.json := by
  refine ⟨json_eq_iff_value_eq a b, ?_⟩
  intro path s p t q hs ha hb h
  have hvalue := congrArg (Value.select? · path) ((json_eq_iff_value_eq a b).1 h)
  simp only [select?_value, ha, hb, Option.map_some, Option.some.injEq] at hvalue
  exact hs (valueType_eq_of_value_eq hvalue)

/-- A document with one scalar inside a sequence. -/
def sized (s : Scalar) : Node :=
  .mapping [("sizes", .sequence [.scalar s default] default)] default

/-- A number deep inside a document is not written as the string that spells it. -/
theorem sized_json_ne : (sized (.int 1)).json ≠ (sized (.string "1")).json :=
  (json_unambiguous (sized (.int 1)) (sized (.string "1"))).2 [.member "sizes", .item 0] (.int 1)
    default "1" default (by decide) rfl rfl

end Node

end BuildGraph
