import WebSpec.Proofs.Json
import WebSpec.Proofs.Idl.Part
import WebSpec.Proofs.Idl.RoundTrip

/-!
# Published definitions keep everything but fragments

What a text says can be read off the published forms of its definitions, apart from their
fragments: two parts have published forms that are alike if and only if they are equal up to
fragments (`alike_toJson_iff_of_parse`).

This needs parts such as a text gives them. A tree built by hand may have both a type and type
arguments, of which only the type arguments are published, or something to include and nothing to
add it to. `Node.Published` says what the published form of a node has in each field where its kind
is known; the kind of an includes or implements statement is the name of a field of its own
(`NodeKind.text_notMem`).
-/

namespace WebSpec.Idl

open Json (SameApart flag? text? items? setFields)

/-- Two published forms are the same up to fragments. -/
abbrev Alike : Json → Json → Prop :=
  SameApart ["fragment"]

theorem Alike.field {a b : Json} (h : Alike a b) (name : String)
    (left : name ∉ ["fragment"] := by decide) : Option.Rel Alike (a.field? name) (b.field? name) :=
  SameApart.field h name left

theorem Alike.rel {a b : Json} {name : String} {x y : Option Json} (h : Alike a b)
    (ha : a.field? name = x) (hb : b.field? name = y)
    (left : name ∉ ["fragment"] := by decide) : Option.Rel Alike x y := by
  subst ha hb
  exact h.field name left

attribute [local simp] TypeExpr.toJson ExtAttribute.toJson Argument.toJson

/-! ### Values of extended attributes -/

theorem ValueForm.eq_of_text_eq {form other : ValueForm} (plain : ∀ name, form ≠ .other name)
    (plain' : ∀ name, other ≠ .other name) (h : form.text = other.text) : form = other := by
  cases form <;> cases other <;> simp_all [text]

theorem eq_of_alike_texts {texts others : List String}
    (h : List.Forall₂ Alike (texts.map .str) (others.map .str)) : texts = others := by
  rw [List.forall₂_map_left_iff, List.forall₂_map_right_iff] at h
  exact List.forall₂_eq_eq_eq ▸ h.imp fun _ _ => Json.sameApart_str_iff.mp

theorem AttributeValue.eq_of_alike {v w : AttributeValue} (hv : v.IsPlain) (hw : w.IsPlain)
    (h : Alike v.toJson w.toJson) : v = w := by
  obtain ⟨form, content⟩ := v
  obtain ⟨form', content'⟩ := w
  have forms : form.text = form'.text := by
    simpa [toJson, List.lookup_cons] using h.field "type"
  obtain rfl : form = form' := ValueForm.eq_of_text_eq hv hw forms
  have contents := h.field "value"
  cases content <;> cases content' <;> simp [toJson, List.lookup_cons] at contents
  case text.text => rw [contents]
  case list.list => rw [eq_of_alike_texts contents.items]
  all_goals cases contents

/-! ### Types, arguments and extended attributes -/

namespace TypeExpr

/-- The name of a type with parameters. -/
def generic? : TypeExpr → Option String
  | .generic name _ _ _ => some name
  | _ => none

/-- Whether a type is any one of several types. -/
def isUnion : TypeExpr → Bool
  | .union _ _ _ => true
  | _ => false

/-- What is published of a type in the place of its name. -/
def idlType : TypeExpr → Json
  | .named name _ _ => .str name
  | .generic _ types _ _ | .union types _ _ => .arr (listToJson types)

/-- The published form of a type, field by field. -/
structure Published (t : TypeExpr) (json : Json) : Prop where
  nullable : json.field? "nullable" = some (.bool t.isNullable)
  generic : json.field? "generic" = t.generic?.map .str
  union : json.field? "union" = flag? t.isUnion
  idlType : json.field? "idlType" = some t.idlType
  attributes : json.field? "extAttrs" = items? (ExtAttribute.listToJson t.attributes)

theorem published (t : TypeExpr) : t.Published t.toJson := by
  cases t <;> constructor <;>
    simp [isNullable, generic?, isUnion, idlType, attributes, flag?, List.lookup_cons]

variable {a b : TypeExpr} (h : Alike a.toJson b.toJson)
include h

theorem isNullable_of_alike : a.isNullable = b.isNullable := by
  simpa using h.rel a.published.nullable b.published.nullable

theorem generic?_of_alike : a.generic? = b.generic? :=
  Json.eq_of_rel_map (fun _ _ => Json.sameApart_str_iff.mp)
    (h.rel a.published.generic b.published.generic)

theorem isUnion_of_alike : a.isUnion = b.isUnion :=
  Json.eq_of_rel_flag (h.rel a.published.union b.published.union)

theorem idlType_of_alike : Alike a.idlType b.idlType := by
  simpa using h.rel a.published.idlType b.published.idlType

theorem attributes_of_alike :
    List.Forall₂ Alike (ExtAttribute.listToJson a.attributes)
      (ExtAttribute.listToJson b.attributes) :=
  Json.forall₂_of_rel_items (h.rel a.published.attributes b.published.attributes)

end TypeExpr

namespace ExtAttribute

variable {name name' : String} {value value' : Option AttributeValue}
  {arguments arguments' : Option (List Argument)}

theorem field?_arguments : (toJson ⟨name, value, arguments⟩).field? "arguments" =
    arguments.map fun list => .arr (Argument.listToJson list) := by
  cases value <;> cases arguments <;> simp [List.lookup_cons]

theorem value_of_alike (plain : ∀ v ∈ value, v.IsPlain) (plain' : ∀ v ∈ value', v.IsPlain)
    (h : Alike (toJson ⟨name, value, arguments⟩) (toJson ⟨name', value', arguments'⟩)) :
    value = value' := by
  have same : Option.Rel Alike (value.map AttributeValue.toJson)
      (value'.map AttributeValue.toJson) := by
    cases arguments <;> cases arguments' <;>
      simpa [List.lookup_cons, List.lookup_append] using h.field "rhs"
  cases value <;> cases value' <;> cases same
  · rfl
  · exact congrArg some (AttributeValue.eq_of_alike (plain _ rfl) (plain' _ rfl) ‹_›)

end ExtAttribute

mutual

/-- Types whose published forms are alike are equal. -/
theorem TypeExpr.eq_of_alike : ∀ {a b : TypeExpr}, (Part.type a).Legible → (Part.type b).Legible →
    Alike a.toJson b.toJson → a = b
  | .named name n attributes, b, ha, hb, h => by
    have generic := TypeExpr.generic?_of_alike h
    have union := TypeExpr.isUnion_of_alike h
    cases b with
    | named name' n' attributes' =>
      obtain rfl : n = n' := TypeExpr.isNullable_of_alike h
      obtain rfl : name = name' := Json.sameApart_str_iff.mp (TypeExpr.idlType_of_alike h)
      obtain rfl : attributes = attributes' := ExtAttribute.eq_of_forall₂_alike
        (Part.legible_type.mp ha).2 (Part.legible_type.mp hb).2 (TypeExpr.attributes_of_alike h)
      rfl
    | generic => cases generic
    | union => cases union
  | .generic name parameters n attributes, b, ha, hb, h => by
    have generic := TypeExpr.generic?_of_alike h
    cases b with
    | generic name' parameters' n' attributes' =>
      obtain rfl : n = n' := TypeExpr.isNullable_of_alike h
      obtain rfl : name = name' := Option.some.inj generic
      have below : Alike (.arr (TypeExpr.listToJson parameters))
          (.arr (TypeExpr.listToJson parameters')) := TypeExpr.idlType_of_alike h
      obtain rfl : attributes = attributes' := ExtAttribute.eq_of_forall₂_alike
        (Part.legible_type.mp ha).2 (Part.legible_type.mp hb).2 (TypeExpr.attributes_of_alike h)
      obtain rfl : parameters = parameters' := TypeExpr.eq_of_forall₂_alike
        (Part.legible_type.mp ha).1 (Part.legible_type.mp hb).1 below.items
      rfl
    | _ => cases generic
  | .union members n attributes, b, ha, hb, h => by
    have union := TypeExpr.isUnion_of_alike h
    cases b with
    | union members' n' attributes' =>
      obtain rfl : n = n' := TypeExpr.isNullable_of_alike h
      have below : Alike (.arr (TypeExpr.listToJson members))
          (.arr (TypeExpr.listToJson members')) := TypeExpr.idlType_of_alike h
      obtain rfl : attributes = attributes' := ExtAttribute.eq_of_forall₂_alike
        (Part.legible_type.mp ha).2 (Part.legible_type.mp hb).2 (TypeExpr.attributes_of_alike h)
      obtain rfl : members = members' := TypeExpr.eq_of_forall₂_alike
        (Part.legible_type.mp ha).1 (Part.legible_type.mp hb).1 below.items
      rfl
    | _ => cases union

theorem TypeExpr.eq_of_forall₂_alike : ∀ {as bs : List TypeExpr},
    (∀ t ∈ as, (Part.type t).Legible) → (∀ t ∈ bs, (Part.type t).Legible) →
    List.Forall₂ Alike (TypeExpr.listToJson as) (TypeExpr.listToJson bs) → as = bs
  | [], [], _, _, _ => rfl
  | a :: as, b :: bs, ha, hb, h => by
    obtain _ | ⟨first, rest⟩ := h
    rw [TypeExpr.eq_of_alike (ha a List.mem_cons_self) (hb b List.mem_cons_self) first,
      TypeExpr.eq_of_forall₂_alike (fun t ht => ha t (List.mem_cons_of_mem a ht))
        (fun t ht => hb t (List.mem_cons_of_mem b ht)) rest]
  | [], _ :: _, _, _, h => by cases h
  | _ :: _, [], _, _, h => by cases h

/-- Extended attributes whose published forms are alike are equal. -/
theorem ExtAttribute.eq_of_alike : ∀ {a b : ExtAttribute}, (Part.extAttribute a).Legible →
    (Part.extAttribute b).Legible → Alike a.toJson b.toJson → a = b
  | ⟨name, value, none⟩, ⟨name', value', arguments'⟩, ha, hb, h => by
    obtain rfl : name = name' := by simpa using h.field "name"
    obtain rfl : value = value' := ExtAttribute.value_of_alike (Part.legible_extAttribute.mp ha).1
      (Part.legible_extAttribute.mp hb).1 h
    have lists := h.rel ExtAttribute.field?_arguments ExtAttribute.field?_arguments
    cases arguments' <;> cases lists
    rfl
  | ⟨name, value, some arguments⟩, ⟨name', value', arguments'⟩, ha, hb, h => by
    obtain rfl : name = name' := by simpa using h.field "name"
    obtain rfl : value = value' := ExtAttribute.value_of_alike (Part.legible_extAttribute.mp ha).1
      (Part.legible_extAttribute.mp hb).1 h
    have lists := h.rel ExtAttribute.field?_arguments ExtAttribute.field?_arguments
    cases arguments' with
    | none => cases lists
    | some arguments' =>
      have below : Alike (.arr (Argument.listToJson arguments))
          (.arr (Argument.listToJson arguments')) := by
        simpa using lists
      obtain rfl : arguments = arguments' := Argument.eq_of_forall₂_alike
        (Part.legible_extAttribute.mp ha).2 (Part.legible_extAttribute.mp hb).2 below.items
      rfl

theorem ExtAttribute.eq_of_forall₂_alike : ∀ {as bs : List ExtAttribute},
    (∀ t ∈ as, (Part.extAttribute t).Legible) → (∀ t ∈ bs, (Part.extAttribute t).Legible) →
    List.Forall₂ Alike (ExtAttribute.listToJson as) (ExtAttribute.listToJson bs) → as = bs
  | [], [], _, _, _ => rfl
  | a :: as, b :: bs, ha, hb, h => by
    obtain _ | ⟨first, rest⟩ := h
    rw [ExtAttribute.eq_of_alike (ha a List.mem_cons_self) (hb b List.mem_cons_self) first,
      ExtAttribute.eq_of_forall₂_alike (fun t ht => ha t (List.mem_cons_of_mem a ht))
        (fun t ht => hb t (List.mem_cons_of_mem b ht)) rest]
  | [], _ :: _, _, _, h => by cases h
  | _ :: _, [], _, _, h => by cases h

/-- Arguments whose published forms are alike are equal. -/
theorem Argument.eq_of_alike : ∀ {a b : Argument}, (Part.argument a).Legible →
    (Part.argument b).Legible → Alike a.toJson b.toJson → a = b
  | ⟨name, type, isOptional, isVariadic, default, attributes⟩,
    ⟨name', type', isOptional', isVariadic', default', attributes'⟩, ha, hb, h => by
    obtain ⟨inside, adorned⟩ := Part.legible_argument.mp ha
    obtain ⟨inside', adorned'⟩ := Part.legible_argument.mp hb
    have field (key : String) (left : key ∉ ["fragment"] := by decide) := h.field key left
    simp only [Argument.toJson, Json.field?_obj, List.lookup_append] at field
    obtain rfl : name = name' := by simpa using field "name"
    have types : Alike type.toJson type'.toJson := by
      simpa [List.lookup_cons] using field "idlType"
    obtain rfl : isOptional = isOptional' := by simpa [List.lookup_cons] using field "optional"
    obtain rfl : isVariadic = isVariadic' := by simpa [List.lookup_cons] using field "variadic"
    obtain rfl : default = default' :=
      Json.eq_of_rel_map (fun _ _ => Json.sameApart_str_iff.mp)
        (by simpa [List.lookup_cons] using field "default")
    have adornments : List.Forall₂ Alike (ExtAttribute.listToJson attributes)
        (ExtAttribute.listToJson attributes') :=
      Json.forall₂_of_rel_items (by simpa [List.lookup_cons] using field "extAttrs")
    obtain rfl := TypeExpr.eq_of_alike inside inside' types
    obtain rfl := ExtAttribute.eq_of_forall₂_alike adorned adorned' adornments
    rfl

theorem Argument.eq_of_forall₂_alike : ∀ {as bs : List Argument},
    (∀ t ∈ as, (Part.argument t).Legible) → (∀ t ∈ bs, (Part.argument t).Legible) →
    List.Forall₂ Alike (Argument.listToJson as) (Argument.listToJson bs) → as = bs
  | [], [], _, _, _ => rfl
  | a :: as, b :: bs, ha, hb, h => by
    obtain _ | ⟨first, rest⟩ := h
    rw [Argument.eq_of_alike (ha a List.mem_cons_self) (hb b List.mem_cons_self) first,
      Argument.eq_of_forall₂_alike (fun t ht => ha t (List.mem_cons_of_mem a ht))
        (fun t ht => hb t (List.mem_cons_of_mem b ht)) rest]
  | [], _ :: _, _, _, h => by cases h
  | _ :: _, [], _, _, h => by cases h

end

/-! ### Nodes -/

theorem NodeKind.text_inj {kind other : NodeKind} (h : kind.text = other.text) : kind = other := by
  have read (k : NodeKind) : ofText? k.text = some k := by
    cases k <;> decide
  have same := read kind
  rw [h, read other] at same
  exact (Option.some.inj same).symm

/-- The names of the fields that any node may have. -/
def fieldNames : List String :=
  ["type", "name", "partial", "inheritance", "target", "idlType", "arguments", "special",
   "readonly", "required", "value", "members", "extAttrs", "fragment"]

/-- No kind is the name of a field of its own. -/
theorem NodeKind.text_notMem (kind : NodeKind) : kind.text ∉ fieldNames := by
  cases kind <;> decide

/-- The published form of a node, field by field. -/
structure Node.Published (node : Node) (own : NodeKind) (json : Json) : Prop where
  kind : json.field? "type" = some (.str own.text)
  name : json.field? "name" = text? node.name
  isPartial : json.field? "partial" = flag? node.isPartial
  inheritance : json.field? "inheritance" = text? (node.inheritance.getD "")
  target : json.field? "target" = text? node.target
  includes : node.target ≠ "" → json.field? own.text = some (.str node.includes)
  type : json.field? "idlType" = (items? (TypeExpr.listToJson node.typeArguments)).or
    (node.type.map TypeExpr.toJson)
  arguments : json.field? "arguments" = items? (Argument.listToJson node.arguments)
  special : json.field? "special" = text? node.special
  isReadonly : json.field? "readonly" = flag? node.isReadonly
  isRequired : json.field? "required" = flag? node.isRequired
  value : json.field? "value" = node.value.map .str
  members : json.field? "members" = items? (Node.listToJson node.members)
  attributes : json.field? "extAttrs" = items? (ExtAttribute.listToJson node.attributes)
  others : ∀ key ∉ own.text :: fieldNames, json.field? key = none

theorem Node.published {node : Node} {kind : NodeKind} (hk : node.kind = .known kind) :
    node.Published kind node.toJson := by
  obtain ⟨_, name, isPartial, inheritance, members, attributes, arguments, type, typeArguments,
    special, isReadonly, isRequired, value, target, includes, fragment⟩ := node
  obtain rfl := hk
  have apart : ∀ key ∈ fieldNames, key ≠ kind.text ∧ kind.text ≠ key := fun key member =>
    ⟨fun same => kind.text_notMem (same ▸ member), fun same => kind.text_notMem (same ▸ member)⟩
  simp only [fieldNames, List.forall_mem_cons] at apart
  rw [toJson]
  change Published _ kind (.obj (Json.setFields _ []))
  by_cases adds : target = "" <;> constructor <;>
    simp +contextual [Json.lookup_setFields, Json.lookup_cons, List.lookup_append,
      optionalTextField, Kind.text, fieldNames, adds, apart]

/-- The published form of a type is no list, -/
theorem not_alike_arr (t : TypeExpr) (items : List Json) :
    ¬ Alike t.toJson (.arr items) ∧ ¬ Alike (.arr items) t.toJson := by
  constructor <;> intro h <;> cases t <;> cases h

/-- so the type of a node can be told from type arguments. -/
theorem eq_of_rel_types {type type' : Option TypeExpr}
    {typeArguments typeArguments' : List TypeExpr}
    (one : typeArguments ≠ [] → type = none) (one' : typeArguments' ≠ [] → type' = none)
    (legible : ∀ t ∈ type, (Part.type t).Legible) (legible' : ∀ t ∈ type', (Part.type t).Legible)
    (all : ∀ t ∈ typeArguments, (Part.type t).Legible)
    (all' : ∀ t ∈ typeArguments', (Part.type t).Legible)
    (h : Option.Rel Alike
      ((items? (TypeExpr.listToJson typeArguments)).or (type.map TypeExpr.toJson))
      ((items? (TypeExpr.listToJson typeArguments')).or (type'.map TypeExpr.toJson))) :
    type = type' ∧ typeArguments = typeArguments' := by
  cases typeArguments with
  | nil =>
    cases typeArguments' with
    | nil =>
      refine ⟨?_, rfl⟩
      cases type <;> cases type' <;> cases h
      · rfl
      · exact congrArg some (TypeExpr.eq_of_alike (legible _ rfl) (legible' _ rfl) ‹_›)
    | cons t' rest' =>
      obtain rfl := one' (by simp)
      cases type <;> cases h
      exact absurd ‹_› (not_alike_arr _ _).1
  | cons t rest =>
    obtain rfl := one (by simp)
    cases typeArguments' with
    | nil =>
      cases type' <;> cases h
      exact absurd ‹_› (not_alike_arr _ _).2
    | cons t' rest' =>
      obtain rfl := one' (by simp)
      cases h with
      | some below => exact ⟨rfl, TypeExpr.eq_of_forall₂_alike all all' below.items⟩

theorem Node.bare_eq_of_members {a b : Node} (ha : (Part.node a).Legible)
    (hb : (Part.node b).Legible) (h : Alike a.toJson b.toJson)
    (members : bareAll a.members = bareAll b.members) : a.bare = b.bare := by
  obtain ⟨plain, -, attributes, arguments, type, typeArguments⟩ := Part.legible_node.mp ha
  obtain ⟨plain', -, attributes', arguments', type', typeArguments'⟩ := Part.legible_node.mp hb
  obtain ⟨kind, hk⟩ := plain.kind
  obtain ⟨kind', hk'⟩ := plain'.kind
  have pa := Node.published hk
  have pb := Node.published hk'
  obtain rfl : kind = kind' := NodeKind.text_inj (by simpa using h.rel pa.kind pb.kind)
  have inheritance : a.inheritance = b.inheritance := by
    have same := Json.eq_of_rel_text (h.rel pa.inheritance pb.inheritance)
    have some := plain.inheritance
    have some' := plain'.inheritance
    cases ia : a.inheritance <;> cases ib : b.inheritance <;> simp_all
  have target : a.target = b.target := Json.eq_of_rel_text (h.rel pa.target pb.target)
  have includes : a.includes = b.includes := by
    by_cases adds : a.target = ""
    · rw [plain.target adds, plain'.target (target ▸ adds)]
    · have left : kind.text ∉ ["fragment"] := fun own =>
        kind.text_notMem (List.mem_singleton.mp own ▸ by decide)
      simpa using h.rel (pa.includes adds) (pb.includes (target ▸ adds)) left
  obtain ⟨types, typeLists⟩ := eq_of_rel_types plain.type plain'.type type type' typeArguments
    typeArguments' (h.rel pa.type pb.type)
  have argumentLists : a.arguments = b.arguments := Argument.eq_of_forall₂_alike arguments
    arguments' (Json.forall₂_of_rel_items (h.rel pa.arguments pb.arguments))
  have attributeLists : a.attributes = b.attributes := ExtAttribute.eq_of_forall₂_alike attributes
    attributes' (Json.forall₂_of_rel_items (h.rel pa.attributes pb.attributes))
  have name := Json.eq_of_rel_text (h.rel pa.name pb.name)
  have special := Json.eq_of_rel_text (h.rel pa.special pb.special)
  have isPartial := Json.eq_of_rel_flag (h.rel pa.isPartial pb.isPartial)
  have isReadonly := Json.eq_of_rel_flag (h.rel pa.isReadonly pb.isReadonly)
  have isRequired := Json.eq_of_rel_flag (h.rel pa.isRequired pb.isRequired)
  have value := Json.eq_of_rel_map (fun _ _ => Json.sameApart_str_iff.mp) (h.rel pa.value pb.value)
  cases a
  cases b
  simp_all [Node.bare]

mutual

/-- Nodes whose published forms are alike are equal up to fragments. -/
theorem Node.bare_eq_of_alike : ∀ {a b : Node}, (Part.node a).Legible → (Part.node b).Legible →
    Alike a.toJson b.toJson → a.bare = b.bare
  | ⟨kind, name, isPartial, inheritance, members, attributes, arguments, type, typeArguments,
      special, isReadonly, isRequired, value, target, includes, fragment⟩, b, ha, hb, h => by
    refine Node.bare_eq_of_members ha hb h ?_
    obtain ⟨⟨⟨_, hk⟩, _, _, _⟩, inside, -⟩ := Part.legible_node.mp ha
    obtain ⟨⟨⟨_, hk'⟩, _, _, _⟩, inside', -⟩ := Part.legible_node.mp hb
    have below : List.Forall₂ Alike (Node.listToJson members) (Node.listToJson b.members) :=
      Json.forall₂_of_rel_items (h.rel (Node.published hk).members (Node.published hk').members)
    exact Node.bareAll_eq_of_forall₂_alike inside inside' below

theorem Node.bareAll_eq_of_forall₂_alike : ∀ {as bs : List Node},
    (∀ n ∈ as, (Part.node n).Legible) → (∀ n ∈ bs, (Part.node n).Legible) →
    List.Forall₂ Alike (Node.listToJson as) (Node.listToJson bs) → bareAll as = bareAll bs
  | [], [], _, _, _ => rfl
  | a :: as, b :: bs, ha, hb, h => by
    obtain _ | ⟨first, rest⟩ := h
    rw [bareAll, bareAll,
      Node.bare_eq_of_alike (ha a List.mem_cons_self) (hb b List.mem_cons_self) first,
      Node.bareAll_eq_of_forall₂_alike (fun n hn => ha n (List.mem_cons_of_mem a hn))
        (fun n hn => hb n (List.mem_cons_of_mem b hn)) rest]
  | [], _ :: _, _, _, h => by cases h
  | _ :: _, [], _, _, h => by cases h

end

/-- Settings that differ in items that are alike, and in the fragment. -/
theorem alike_setFields (before behind : Json.Fields) {items others : List Json} (key : String)
    (h : List.Forall₂ Alike items others) (fragment fragment' : String) :
    Alike
      (.obj (setFields (before ++ Json.listField key items ++ behind ++
        Json.textField "fragment" fragment) []))
      (.obj (setFields (before ++ Json.listField key others ++ behind ++
        Json.textField "fragment" fragment') [])) := by
  refine Json.sameApart_obj fun name left => ?_
  have other : name ≠ "fragment" := fun same => left (List.mem_singleton.mpr same)
  have listed : Option.Rel Alike ((Json.listField key items).lookup name)
      ((Json.listField key others).lookup name) := by
    rw [Json.lookup_listField, Json.lookup_listField]
    split_ifs
    · cases h with
      | nil => exact .none
      | cons first rest => exact .some (Json.sameApart_arr (.cons first rest))
    · exact .none
  simp only [Json.lookup_setFields, List.reverse_append, Json.reverse_textField,
    Json.reverse_listField, List.lookup_nil, Option.or_none]
  refine Json.rel_lookup_append ?_ (Json.rel_lookup_append (Json.rel_refl _)
    (Json.rel_lookup_append listed (Json.rel_refl _)))
  simp only [Json.lookup_textField, if_neg other]
  exact .none

mutual

/-- The published forms of nodes that are equal up to fragments are alike. -/
theorem Node.alike_of_bare_eq : ∀ {a b : Node}, a.bare = b.bare → Alike a.toJson b.toJson
  | ⟨_, _, _, _, members, _, _, _, _, _, _, _, _, _, _, fragment⟩,
    ⟨_, _, _, _, members', _, _, _, _, _, _, _, _, _, _, fragment'⟩, h => by
    simp only [bare, Node.mk.injEq] at h
    obtain ⟨rfl, rfl, rfl, rfl, same, rfl, rfl, rfl, rfl, rfl, rfl, rfl, rfl, rfl, rfl, -⟩ := h
    rw [Node.toJson, Node.toJson]
    exact alike_setFields _ _ "members" (Node.forall₂_alike_of_bareAll_eq same) fragment fragment'

theorem Node.forall₂_alike_of_bareAll_eq : ∀ {as bs : List Node}, bareAll as = bareAll bs →
    List.Forall₂ Alike (Node.listToJson as) (Node.listToJson bs)
  | [], [], _ => .nil
  | a :: as, b :: bs, h => by
    rw [bareAll, bareAll, List.cons.injEq] at h
    exact .cons (Node.alike_of_bare_eq h.1) (Node.forall₂_alike_of_bareAll_eq h.2)
  | [], _ :: _, h => by cases h
  | _ :: _, [], h => by cases h

end

/-! ### Parts -/

namespace Part

/-- The published form of a part. -/
def toJson : Part → Json
  | .node n => n.toJson
  | .type t => t.toJson
  | .argument a => a.toJson
  | .extAttribute attr => attr.toJson

/-- A part without the fragments in it. -/
def bare : Part → Part
  | .node n => .node n.bare
  | part => part

/-- A part occurs in one of several definitions. -/
def OccursIn (p : Part) (definitions : List Node) : Prop :=
  ∃ d ∈ definitions, p.Within (.node d)

/-- Whether the published form of a part has the fields that tell definitions and members, types
and arguments from all others. -/
def marks (p : Part) : List Bool :=
  ["type", "nullable", "optional"].map fun name => (p.toJson.field? name).isSome

theorem marks_node {n : Node} (h : n.IsPlain) : marks (.node n) = [true, false, false] := by
  obtain ⟨kind, hk⟩ := h.kind
  have published := Node.published hk
  have other : "nullable" ∉ kind.text :: fieldNames ∧ "optional" ∉ kind.text :: fieldNames := by
    cases kind <;> decide
  simp [marks, toJson, published.kind, published.others _ other.1, published.others _ other.2]

theorem marks_type (t : TypeExpr) : marks (.type t) = [false, true, false] := by
  cases t <;> simp [marks, toJson, List.lookup_cons]

theorem marks_argument (a : Argument) : marks (.argument a) = [false, false, true] := by
  cases a
  simp [marks, toJson, List.lookup_append, List.lookup_cons]

theorem marks_extAttribute (attr : ExtAttribute) :
    marks (.extAttribute attr) = [false, false, false] := by
  obtain ⟨name, value, arguments⟩ := attr
  cases arguments <;>
    simp [marks, toJson, List.lookup_append, List.lookup_cons]

variable {p q : Part}

theorem marks_of_alike (h : Alike p.toJson q.toJson) : p.marks = q.marks := by
  refine List.map_congr_left fun name member => Json.isSome_eq_of_rel (h.rel rfl rfl ?_)
  revert name
  decide

/-- Parts such as a text gives them have published forms that are alike if and only if they are
equal up to fragments. -/
theorem alike_toJson_iff (hp : p.Legible) (hq : q.Legible) :
    Alike p.toJson q.toJson ↔ p.bare = q.bare := by
  constructor
  · intro h
    have marks := marks_of_alike h
    cases p <;> cases q
    case node.node => exact congrArg node (Node.bare_eq_of_alike hp hq h)
    case type.type => exact congrArg type (TypeExpr.eq_of_alike hp hq h)
    case argument.argument => exact congrArg argument (Argument.eq_of_alike hp hq h)
    case extAttribute.extAttribute => exact congrArg extAttribute (ExtAttribute.eq_of_alike hp hq h)
    case node.type | node.argument | node.extAttribute =>
      simp [marks_node (legible_node.mp hp).1, marks_type, marks_argument, marks_extAttribute]
        at marks
    case type.node | argument.node | extAttribute.node =>
      simp [marks_node (legible_node.mp hq).1, marks_type, marks_argument, marks_extAttribute]
        at marks
    all_goals simp [marks_type, marks_argument, marks_extAttribute] at marks
  · intro h
    cases p <;> cases q <;> simp only [bare, reduceCtorEq, node.injEq] at h
    case node.node => exact Node.alike_of_bare_eq h
    all_goals
      rw [h]
      exact SameApart.refl _

end Part

/-- Nothing but fragments is lost in the published form of what a text says: two definitions or
members in texts, or types, arguments or extended attributes in them, have published forms that are
alike only if they are equal up to fragments. -/
theorem alike_toJson_iff_of_parse {text other : String} {definitions others : List Node}
    (h : parse text = .ok definitions) (h' : parse other = .ok others) {p q : Part}
    (hp : p.OccursIn definitions) (hq : q.OccursIn others) :
    Alike p.toJson q.toJson ↔ p.bare = q.bare := by
  obtain ⟨d, hd, inside⟩ := hp
  obtain ⟨e, he, inside'⟩ := hq
  exact Part.alike_toJson_iff ((legible_of_parse h hd).of_within inside)
    ((legible_of_parse h' he).of_within inside')

/-- A field without a default and a field with an empty one. -/
theorem alike_toJson_iff_of_parse_fields :
    let text := "dictionary _A \x7b long _x ; long _x = \"\" ; \x7d ;"
    ∃ definitions d m n, parse text = .ok definitions ∧ d ∈ definitions ∧ d.members = [m, n] ∧
      (Part.node m).OccursIn definitions ∧ (Part.node n).OccursIn definitions ∧
      (Alike m.toJson n.toJson ↔ (Part.node m).bare = (Part.node n).bare) ∧
      ¬ Alike m.toJson n.toJson := by
  intro text
  let type : TypeExpr := .named "long" false []
  let plain : Node := { kind := .known .field, name := "x", type := some type }
  let filled : Node := { plain with value := some (quoted "") }
  let dictionary : Node := { kind := .known .dictionary, name := "A", members := [plain, filled] }
  have typed : type.WellFormed := by
    have known : ["long"] ∈ primitiveTypes := by decide
    exact .primitive known (by simp)
  have empty : IsDefaultValue (quoted "") := .quoted (by decide)
  have formed : ∀ d ∈ [dictionary], d.IsDefinition := by
    have plain_formed : plain.IsField :=
      .optional (by decide) typed rfl (by rintro _ ⟨⟩) (by rintro _ ⟨⟩)
    have filled_formed : filled.IsField :=
      .optional (by decide) typed rfl (by rintro _ ⟨⟩; exact empty) (by rintro _ ⟨⟩)
    refine List.forall_mem_singleton.mpr ⟨.dictionary (by decide) ?_ ?_, by rintro _ ⟨⟩⟩
    · rintro _ ⟨⟩
    · exact List.forall_mem_cons.mpr ⟨plain_formed, List.forall_mem_singleton.mpr filled_formed⟩
  obtain ⟨definitions, parsed, same⟩ := parse_of_spells (spells_definitions formed)
  have spelled : " ".intercalate ([dictionary].flatMap Node.words) = text := by
    decide
  rw [spelled] at parsed
  obtain ⟨d, rfl, bare⟩ : ∃ d, definitions = [d] ∧ d.bare = dictionary.bare :=
    List.map_eq_singleton_iff.mp same
  have members : d.members.map Node.bare = [plain, filled] := by
    rw [← Node.bareAll_eq_map]
    have inside := congrArg Node.members bare
    cases d
    exact inside
  obtain ⟨m, rest, both, bare_m, others⟩ := List.map_eq_cons_iff.mp members
  obtain ⟨n, rfl, bare_n⟩ := List.map_eq_singleton_iff.mp others
  have occurs : ∀ field ∈ d.members, (Part.node field).OccursIn [d] := fun field member =>
    ⟨d, List.mem_singleton_self d, .single (by simp [Part.children, member])⟩
  have occurs_m := occurs m (by simp [both])
  have occurs_n := occurs n (by simp [both])
  have iff := alike_toJson_iff_of_parse parsed parsed occurs_m occurs_n
  refine ⟨[d], d, m, n, parsed, List.mem_singleton_self d, both, occurs_m, occurs_n, iff, ?_⟩
  refine mt iff.mp ?_
  rw [Part.bare, Part.bare, bare_m, bare_n]
  simp [plain, filled]

end WebSpec.Idl
