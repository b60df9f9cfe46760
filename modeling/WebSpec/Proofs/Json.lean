import Mathlib.Data.List.Forall2
import Mathlib.Tactic.Common
import WebSpec.Json

/-!
# When values are the same

An object is what its fields say, whatever their order: two objects are the same if each name has
the same value in both of them, or has none in either (`Json.Same`).

`Json.without` takes the fields with given names out of a value, however deep they are. Values that
are the same without them are `SameApart`; so are their items and the fields that are left
(`SameApart.items`, `SameApart.field`).
-/

namespace WebSpec.Json

variable {names : List String} {name key : String} {a b : Json}

/-- The value of the field with a name, if there is one. -/
def field? (name : String) : Json → Option Json
  | .obj fields => fields.lookup name
  | _ => none

/-- Two values are the same, where the order of fields does not matter. -/
inductive Same : Json → Json → Prop where
  | null : Same .null .null
  | bool (value : Bool) : Same (.bool value) (.bool value)
  | int (value : Int) : Same (.int value) (.int value)
  | str (value : String) : Same (.str value) (.str value)
  | arr {items others : List Json} (h : List.Forall₂ Same items others) :
      Same (.arr items) (.arr others)
  | obj {fields others : Fields}
      (h : ∀ name, Option.Rel Same (fields.lookup name) (others.lookup name)) :
      Same (.obj fields) (.obj others)

mutual

/-- A value is the same as itself. -/
theorem Same.refl : ∀ value : Json, value.Same value
  | .null => .null
  | .bool value => .bool value
  | .int value => .int value
  | .str value => .str value
  | .arr items => .arr (forall₂_same_refl items)
  | .obj fields => .obj (lookup_same_refl fields)

theorem forall₂_same_refl : ∀ items : List Json, List.Forall₂ Same items items
  | [] => .nil
  | item :: rest => .cons (Same.refl item) (forall₂_same_refl rest)

theorem lookup_same_refl : ∀ (fields : Fields) (name : String),
    Option.Rel Same (fields.lookup name) (fields.lookup name)
  | [], _ => .none
  | (key, value) :: rest, name => by
    rw [List.lookup_cons]
    split
    · exact .some (Same.refl value)
    · exact lookup_same_refl rest name

end

theorem Same.field (h : a.Same b) (name : String) :
    Option.Rel Same (a.field? name) (b.field? name) := by
  cases h with
  | obj h => exact h name
  | _ => exact .none

/-! ### Leaving fields out -/

mutual

/-- A value without the fields that have one of the given names, at any depth. -/
def without (names : List String) : Json → Json
  | .null => .null
  | .bool value => .bool value
  | .int value => .int value
  | .str value => .str value
  | .arr items => .arr (withoutAll names items)
  | .obj fields => .obj (withoutFields names fields)

/-- Several values without these fields. -/
def withoutAll (names : List String) : List Json → List Json
  | [] => []
  | item :: rest => item.without names :: withoutAll names rest

/-- The other fields, without these fields in their values. -/
def withoutFields (names : List String) : Fields → Fields
  | [] => []
  | (name, value) :: rest =>
    if name ∈ names then withoutFields names rest
    else (name, value.without names) :: withoutFields names rest

end

theorem withoutAll_eq_map (items : List Json) :
    withoutAll names items = items.map (without names) := by
  induction items with
  | nil => rfl
  | cons item rest ih => rw [withoutAll, ih, List.map_cons]

theorem lookup_withoutFields (left : name ∉ names) (fields : Fields) :
    (withoutFields names fields).lookup name = (fields.lookup name).map (without names) := by
  induction fields with
  | nil => rfl
  | cons field rest ih =>
    obtain ⟨key, value⟩ := field
    rw [withoutFields]
    by_cases here : name = key
    · subst here
      simp [left]
    · have other : (name == key) = false := by simpa using here
      split_ifs <;> simp [List.lookup_cons, other, ih]

theorem field?_without (left : name ∉ names) (value : Json) :
    (value.without names).field? name = (value.field? name).map (without names) := by
  cases value with
  | obj fields => exact lookup_withoutFields left fields
  | _ => rfl

theorem lookup_withoutFields_of_mem (gone : name ∈ names) (fields : Fields) :
    (withoutFields names fields).lookup name = none := by
  induction fields with
  | nil => rfl
  | cons field rest ih =>
    obtain ⟨key, value⟩ := field
    rw [withoutFields]
    split_ifs with also
    · exact ih
    · have other : (name == key) = false := by
        simpa using fun same : name = key => also (same ▸ gone)
      rw [List.lookup_cons, other, ih]

mutual

/-- There is nothing to leave out. -/
theorem without_nil : ∀ value : Json, value.without [] = value
  | .null | .bool _ | .int _ | .str _ => rfl
  | .arr items => congrArg Json.arr (withoutAll_nil items)
  | .obj fields => congrArg Json.obj (withoutFields_nil fields)

theorem withoutAll_nil : ∀ items : List Json, withoutAll [] items = items
  | [] => rfl
  | item :: rest => by rw [withoutAll, without_nil item, withoutAll_nil rest]

theorem withoutFields_nil : ∀ fields : Fields, withoutFields [] fields = fields
  | [] => rfl
  | (name, value) :: rest => by
    rw [withoutFields, if_neg List.not_mem_nil, without_nil value, withoutFields_nil rest]

end

/-! ### What values have in common -/

/-- Two values are the same apart from the fields with the given names. -/
def SameApart (names : List String) (a b : Json) : Prop :=
  (a.without names).Same (b.without names)

theorem sameApart_nil_iff : a.SameApart [] b ↔ a.Same b := by
  rw [SameApart, without_nil, without_nil]

@[simp] theorem sameApart_str_iff {text other : String} :
    SameApart names (.str text) (.str other) ↔ text = other :=
  ⟨fun h => by cases h; rfl, fun h => h ▸ .str text⟩

@[simp] theorem sameApart_int_iff {value other : Int} :
    SameApart names (.int value) (.int other) ↔ value = other :=
  ⟨fun h => by cases h; rfl, fun h => h ▸ .int value⟩

@[simp] theorem sameApart_bool_iff {value other : Bool} :
    SameApart names (.bool value) (.bool other) ↔ value = other :=
  ⟨fun h => by cases h; rfl, fun h => h ▸ .bool value⟩

theorem SameApart.refl (value : Json) : value.SameApart names value :=
  Same.refl _

theorem sameApart_arr {items others : List Json} (h : List.Forall₂ (SameApart names) items others) :
    SameApart names (.arr items) (.arr others) := by
  simp only [SameApart, without, withoutAll_eq_map]
  exact .arr (List.forall₂_map_left_iff.mpr (List.forall₂_map_right_iff.mpr h))

/-- Objects are the same if the fields that are left are. -/
theorem sameApart_obj {fields others : Fields}
    (h : ∀ name ∉ names, Option.Rel (SameApart names) (fields.lookup name) (others.lookup name)) :
    SameApart names (.obj fields) (.obj others) := by
  refine .obj fun name => ?_
  by_cases gone : name ∈ names
  · rw [lookup_withoutFields_of_mem gone, lookup_withoutFields_of_mem gone]
    exact .none
  · rw [lookup_withoutFields gone, lookup_withoutFields gone]
    have same := h name gone
    cases hf : fields.lookup name <;> cases ho : others.lookup name <;> rw [hf, ho] at same <;>
      cases same
    · exact .none
    · exact .some ‹_›

theorem SameApart.items {items others : List Json}
    (h : SameApart names (.arr items) (.arr others)) :
    List.Forall₂ (SameApart names) items others := by
  simp only [SameApart, without, withoutAll_eq_map] at h
  cases h with
  | arr h =>
    rw [List.forall₂_map_left_iff, List.forall₂_map_right_iff] at h
    exact h

/-- The fields that are left are the same. -/
theorem SameApart.field (h : a.SameApart names b) (name : String) (left : name ∉ names) :
    Option.Rel (SameApart names) (a.field? name) (b.field? name) := by
  have same : Option.Rel Same ((a.without names).field? name) ((b.without names).field? name) :=
    Same.field h name
  rw [field?_without left, field?_without left] at same
  cases ha : a.field? name <;> cases hb : b.field? name <;> rw [ha, hb] at same <;> cases same
  · exact .none
  · exact .some ‹_›

/-! ### Fields that may be missing -/

@[simp] theorem field?_obj (name : String) (fields : Fields) :
    (obj fields).field? name = fields.lookup name :=
  rfl

theorem lookup_cons (name key : String) (value : Json) (fields : Fields) :
    List.lookup name ((key, value) :: fields) =
      if name = key then some value else fields.lookup name := by
  by_cases here : name = key
  · simp [here]
  · simp [List.lookup_cons, here, beq_eq_false_iff_ne.mpr here]

@[simp] theorem lookup_singleton (name key : String) (value : Json) :
    List.lookup name [(key, value)] = if name = key then some value else none :=
  lookup_cons name key value []

/-- The value of a field that says that something holds. -/
def flag? (condition : Bool) : Option Json :=
  if condition then some (.bool true) else none

@[simp] theorem lookup_flag (name key : String) (condition : Bool) :
    (flag key condition).lookup name = if name = key then flag? condition else none := by
  cases condition <;> simp [flag, flag?]

theorem eq_of_rel_flag {condition other : Bool}
    (h : Option.Rel (SameApart names) (flag? condition) (flag? other)) : condition = other := by
  cases condition <;> cases other <;> simp [flag?] at h ⊢

/-- The value of a field for a text that may be empty. -/
def text? (text : String) : Option Json :=
  if text = "" then none else some (.str text)

@[simp] theorem lookup_textField (name key text : String) :
    (textField key text).lookup name = if name = key then text? text else none := by
  unfold textField text?
  split_ifs <;> simp_all

theorem eq_of_rel_text {text other : String}
    (h : Option.Rel (SameApart names) (text? text) (text? other)) : text = other := by
  unfold text? at h
  split_ifs at h <;> simp_all

/-- The value of a field for items that may be none. -/
def items? (items : List Json) : Option Json :=
  if items.isEmpty then none else some (.arr items)

@[simp] theorem lookup_listField (name key : String) (items : List Json) :
    (listField key items).lookup name = if name = key then items? items else none := by
  unfold listField items?
  split_ifs <;> simp_all

theorem forall₂_of_rel_items {items others : List Json}
    (h : Option.Rel (SameApart names) (items? items) (items? others)) :
    List.Forall₂ (SameApart names) items others := by
  cases items <;> cases others <;> simp only [items?, List.isEmpty_nil, List.isEmpty_cons,
    if_true, Bool.false_eq_true, if_false] at h <;> cases h
  · exact .nil
  · exact SameApart.items ‹_›

@[simp] theorem lookup_toList {α : Type} (name key : String) (f : α → Json) (value : Option α) :
    ((value.map fun a => (key, f a)).toList).lookup name =
      if name = key then value.map f else none := by
  cases value <;> simp

theorem eq_of_rel_map {α : Type} {f : α → Json} {value other : Option α}
    (inj : ∀ a b, SameApart names (f a) (f b) → a = b)
    (h : Option.Rel (SameApart names) (value.map f) (other.map f)) : value = other := by
  cases value <;> cases other <;> cases h
  · rfl
  · exact congrArg some (inj _ _ ‹_›)

/-! ### Fields that are set one after the other -/

/-- Sets fields, the first setting first. -/
def setFields (settings fields : Fields) : Fields :=
  settings.foldl (fun fields (name, value) => setEntry name value fields) fields

/-- Of the settings of a field, the last one counts. -/
theorem lookup_setFields (settings fields : Fields) (name : String) :
    (setFields settings fields).lookup name =
      (settings.reverse.lookup name).or (fields.lookup name) := by
  induction settings generalizing fields with
  | nil => rfl
  | cons setting rest ih =>
    obtain ⟨key, value⟩ := setting
    have step : setFields ((key, value) :: rest) fields =
        setFields rest (setEntry key value fields) := rfl
    rw [step, ih, lookup_setEntry, List.reverse_cons, List.lookup_append, lookup_singleton]
    cases rest.reverse.lookup name <;> split_ifs <;> rfl

theorem rel_refl (value : Option Json) : Option.Rel (SameApart names) value value := by
  cases value
  · exact .none
  · exact .some (SameApart.refl _)

theorem isSome_eq_of_rel {value other : Option Json}
    (h : Option.Rel (SameApart names) value other) : value.isSome = other.isSome := by
  cases h <;> rfl

/-- What comes first is looked up first. -/
theorem rel_lookup_append {fields others behind behind' : Fields}
    (h : Option.Rel (SameApart names) (fields.lookup name) (others.lookup name))
    (h' : Option.Rel (SameApart names) (behind.lookup name) (behind'.lookup name)) :
    Option.Rel (SameApart names) ((fields ++ behind).lookup name)
      ((others ++ behind').lookup name) := by
  rw [List.lookup_append, List.lookup_append]
  cases hf : fields.lookup name <;> cases ho : others.lookup name <;> rw [hf, ho] at h <;> cases h
  · exact h'
  · exact .some ‹_›

@[simp] theorem reverse_toList {α : Type} (value : Option α) :
    value.toList.reverse = value.toList := by
  cases value <;> rfl

@[simp] theorem reverse_flag (key : String) (condition : Bool) :
    (flag key condition).reverse = flag key condition := by
  cases condition <;> rfl

@[simp] theorem reverse_textField (key text : String) :
    (textField key text).reverse = textField key text := by
  unfold textField
  split_ifs <;> rfl

@[simp] theorem reverse_listField (key : String) (items : List Json) :
    (listField key items).reverse = listField key items := by
  unfold listField
  split_ifs <;> rfl

end WebSpec.Json
