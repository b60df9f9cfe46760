import WebSpec.Proofs.Json
import WebSpec.Value.Node

/-!
# Published grammars keep everything

A grammar tree can be read off its published form: trees whose published forms are the same are
equal (`toJson_same_iff`). The field `type` tells leaves, functions and sequences apart; a
combination has no such field and is told by the field for its components. A field that is missing
has a meaning of its own, which no value of the field has.
-/

namespace WebSpec.Value

open Json (SameApart)

theorem LeafKind.jsonKeys_inj {kind other : LeafKind}
    (h : kind.jsonKeys.1 = other.jsonKeys.1) : kind = other := by
  cases kind <;> cases other <;> simp [jsonKeys] at h ⊢

/-- No leaf has the type of a function or of a sequence. -/
theorem LeafKind.type_ne (kind : LeafKind) :
    kind.jsonKeys.1 ≠ "function" ∧ kind.jsonKeys.1 ≠ "array" := by
  cases kind <;> decide

theorem Combinator.jsonKey_inj {combinator other : Combinator}
    (h : combinator.jsonKey = other.jsonKey) : combinator = other := by
  cases combinator <;> cases other <;> simp [jsonKey] at h ⊢

namespace Node

attribute [local simp] toJson

/-- What the published form of a tree says that it is. -/
def type? : Node → Option String
  | .leaf kind _ _ => some kind.jsonKeys.1
  | .function .. => some "function"
  | .sequence .. => some "array"
  | .combined .. => none

/-- Whether a tree may be left out. -/
def isOptional : Node → Bool
  | .leaf _ _ isOptional => isOptional
  | .function _ _ isOptional => isOptional
  | .sequence _ _ isOptional => isOptional
  | .combined _ _ isOptional => isOptional

theorem field?_type (node : Node) : node.toJson.field? "type" = node.type?.map .str := by
  cases node with
  | combined combinator => cases combinator <;> simp [type?, Combinator.jsonKey,
      List.lookup_cons]
  | _ => simp [type?]

theorem field?_optional (node : Node) :
    node.toJson.field? "optional" = Json.flag? node.isOptional := by
  cases node with
  | leaf kind => cases kind <;> simp [isOptional, LeafKind.jsonKeys, List.lookup_cons]
  | combined combinator => cases combinator <;> simp [isOptional, Combinator.jsonKey,
      List.lookup_cons]
  | _ => simp [isOptional, Repetition.toFields, List.lookup_append, List.lookup_cons]

variable {a b : Node}

theorem type?_of_same (h : SameApart [] a.toJson b.toJson) : a.type? = b.type? := by
  have same := h.field "type" List.not_mem_nil
  rw [field?_type, field?_type] at same
  exact Json.eq_of_rel_map (fun _ _ => Json.sameApart_str_iff.mp) same

theorem isOptional_of_same (h : SameApart [] a.toJson b.toJson) : a.isOptional = b.isOptional := by
  have same := h.field "optional" List.not_mem_nil
  rw [field?_optional, field?_optional] at same
  exact Json.eq_of_rel_flag same

/-- A leaf is what its type and its text say. -/
theorem leaf_inj {kind other : LeafKind} {text text' : String} {o o' : Bool}
    (h : SameApart [] (leaf kind text o).toJson (leaf other text' o').toJson) :
    leaf kind text o = leaf other text' o' := by
  obtain rfl : kind = other := LeafKind.jsonKeys_inj (Option.some.inj (type?_of_same h))
  obtain rfl : o = o' := isOptional_of_same h
  have same := h.field kind.jsonKeys.2 List.not_mem_nil
  obtain rfl : text = text' := by
    cases kind <;> simpa [LeafKind.jsonKeys, List.lookup_cons] using same
  rfl

theorem repetition_of_same {items others : List Node} {r r' : Repetition} {o o' : Bool}
    (h : SameApart [] (sequence items r o).toJson (sequence others r' o').toJson) : r = r' := by
  have least : r.least = r'.least :=
    Json.eq_of_rel_map (fun _ _ => Json.sameApart_int_iff.mp) (by
      simpa [Repetition.toFields, List.lookup_append, List.lookup_cons]
        using h.field "minItems" List.not_mem_nil)
  have greatest : r.greatest = r'.greatest :=
    Json.eq_of_rel_map (fun _ _ => Json.sameApart_int_iff.mp) (by
      simpa [Repetition.toFields, List.lookup_append, List.lookup_cons]
        using h.field "maxItems" List.not_mem_nil)
  have separator : r.separator = r'.separator :=
    Json.eq_of_rel_map (fun _ _ => Json.sameApart_str_iff.mp) (by
      simpa [Repetition.toFields, List.lookup_append, List.lookup_cons]
        using h.field "separator" List.not_mem_nil)
  cases r
  cases r'
  simp_all

theorem combinator_of_same {combinator other : Combinator} {items others : List Node} {o o' : Bool}
    (h : SameApart [] (combined combinator items o).toJson (combined other others o').toJson) :
    combinator = other := by
  have same := h.field combinator.jsonKey List.not_mem_nil
  have named (c : Combinator) : c.jsonKey ≠ "optional" := by
    cases c <;> decide
  by_contra differs
  have apart : combinator.jsonKey ≠ other.jsonKey := fun key => differs (Combinator.jsonKey_inj key)
  simp [List.lookup_cons, named, beq_eq_false_iff_ne.mpr apart] at same

mutual

/-- Trees whose published forms are the same are equal. -/
theorem eq_of_same : ∀ {a b : Node}, SameApart [] a.toJson b.toJson → a = b
  | .leaf kind text o, b, h => by
    have type := type?_of_same h
    cases b with
    | leaf => exact leaf_inj h
    | function => exact absurd (Option.some.inj type) kind.type_ne.1
    | sequence => exact absurd (Option.some.inj type) kind.type_ne.2
    | combined => cases type
  | .function name arguments o, b, h => by
    have type := type?_of_same h
    cases b with
    | leaf kind => exact absurd (Option.some.inj type).symm kind.type_ne.1
    | function name' arguments' o' =>
      obtain rfl : o = o' := isOptional_of_same h
      obtain rfl : name = name' := by
        simpa [List.lookup_cons] using h.field "name" List.not_mem_nil
      have inside : SameApart [] arguments.toJson arguments'.toJson := by
        simpa [List.lookup_cons] using h.field "arguments" List.not_mem_nil
      rw [eq_of_same inside]
    | sequence => simp [type?] at type
    | combined => cases type
  | .sequence items r o, b, h => by
    have type := type?_of_same h
    cases b with
    | leaf kind => exact absurd (Option.some.inj type).symm kind.type_ne.2
    | function => simp [type?] at type
    | sequence items' r' o' =>
      obtain rfl : o = o' := isOptional_of_same h
      obtain rfl := repetition_of_same h
      have inside : SameApart [] (.arr (listToJson items)) (.arr (listToJson items')) := by
        simpa [List.lookup_cons] using h.field "items" List.not_mem_nil
      rw [eq_of_forall₂_same inside.items]
    | combined => cases type
  | .combined combinator items o, b, h => by
    have type := type?_of_same h
    cases b with
    | combined combinator' items' o' =>
      obtain rfl : o = o' := isOptional_of_same h
      obtain rfl := combinator_of_same h
      have inside : SameApart [] (.arr (listToJson items)) (.arr (listToJson items')) := by
        simpa using h.field combinator.jsonKey List.not_mem_nil
      rw [eq_of_forall₂_same inside.items]
    | _ => cases type

theorem eq_of_forall₂_same : ∀ {items others : List Node},
    List.Forall₂ (SameApart []) (listToJson items) (listToJson others) → items = others
  | [], [], _ => rfl
  | item :: items, other :: others, h => by
    obtain _ | ⟨first, rest⟩ := h
    rw [eq_of_same first, eq_of_forall₂_same rest]
  | [], _ :: _, h => by cases h
  | _ :: _, [], h => by cases h

end

end Node

/-- Nothing is lost in the published form of a tree, whatever the tree: two trees have the same
published form only if they are equal. -/
theorem toJson_same_iff (a b : Node) : a.toJson.Same b.toJson ↔ a = b := by
  constructor
  · intro h
    exact Node.eq_of_same (Json.sameApart_nil_iff.mpr h)
  · rintro rfl
    exact .refl a.toJson

end WebSpec.Value
