import WebSpec.Proofs.Idl.RoundTrip

/-!
# Types are read back from their text

The text of a type without extended attributes, as `TypeExpr.text` writes it, is read back as the
type. Unlike `print` it writes names as they are, so that a name may be spelled like a keyword, and
it puts no blanks around brackets, commas and question marks.

Both are settled word by word. `TypeExpr.textWords` are the words of the text. They are a phrase
that means the type, since every name in it stands where a type that may have extended attributes
begins (`TypeExpr.Readable.spells`), and with the blanks of `Spacing.tight` between them they are
the text (`TypeExpr.Readable.typesets`).
-/

namespace WebSpec.Idl

/-! ### Words -/

/-- The keywords that a primitive type starts with. -/
def primitiveKeywords : List String :=
  ["short", "long", "float", "double", "unsigned", "unrestricted"]

mutual

/-- The words of the text of a type. -/
def TypeExpr.textWords : TypeExpr → List String
  | .named name isNullable _ => nameWords name name ++ flag isNullable "?"
  | .generic name parameters isNullable _ =>
    name :: "<" :: (separated "," (TypeExpr.listTextWords parameters) ++ [">"]) ++
      flag isNullable "?"
  | .union members isNullable _ =>
    "(" :: (separated "or" (TypeExpr.listTextWords members) ++ [")"]) ++ flag isNullable "?"

/-- The words of the texts of several types. -/
def TypeExpr.listTextWords : List TypeExpr → List (List String)
  | [] => []
  | type :: rest => type.textWords :: TypeExpr.listTextWords rest

end

theorem TypeExpr.listTextWords_eq_map (types : List TypeExpr) :
    TypeExpr.listTextWords types = types.map TypeExpr.textWords := by
  induction types with
  | nil => rfl
  | cons type rest ih => rw [TypeExpr.listTextWords, ih, List.map_cons]

theorem TypeExpr.texts_eq_map (types : List TypeExpr) :
    TypeExpr.texts types = types.map TypeExpr.text := by
  induction types with
  | nil => rfl
  | cons type rest ih => rw [TypeExpr.texts, ih, List.map_cons]

/-- Types whose text is read back. A type by its name is a primitive type or has a name that starts
no primitive type but one of a single word. -/
inductive TypeExpr.Readable : TypeExpr → Prop where
  | primitive {words : List String} {isNullable : Bool} (known : words ∈ primitiveTypes) :
      Readable (.named (" ".intercalate words) isNullable [])
  | named {name : String} {isNullable : Bool} (hn : isName name.toList)
      (free : name ∉ ["unsigned", "unrestricted"]) : Readable (.named name isNullable [])
  | generic {name : String} {parameters : List TypeExpr} {isNullable : Bool}
      (hn : isName name.toList) (free : name ∉ primitiveKeywords) (filled : parameters ≠ [])
      (hp : ∀ parameter ∈ parameters, TypeExpr.Readable parameter) :
      Readable (.generic name parameters isNullable [])
  | union {members : List TypeExpr} {isNullable : Bool} (several : 2 ≤ members.length)
      (hm : ∀ member ∈ members, TypeExpr.Readable member) : Readable (.union members isNullable [])

/-! ### Blanks -/

/-- The words without a blank behind them. -/
def openers : List String :=
  ["(", "<"]

/-- The words without a blank before them. -/
def closers : List String :=
  ["<", ">", "?", ",", ")", ";"]

/-- No blanks inside brackets and before marks. -/
def Spacing.tight : Spacing where
  isBlank before word := !(openers.contains before || closers.contains word)
  isMark {before word} h := by
    have opens : ∀ w ∈ openers, (marks.any fun m => w.toList = [m]) = true := by decide
    have closes : ∀ w ∈ closers, (marks.any fun m => w.toList.head? = some m) = true := by decide
    have tight : before ∈ openers ∨ word ∈ closers := by
      simpa [or_iff_not_imp_left] using h
    exact tight.imp (fun h => by simpa using opens before h) fun h => by simpa using closes word h

/-- What stands before a word that is no closer. -/
def lead (before : String) : String :=
  if before ∈ openers then "" else " "

/-- The words stand for the text, up to the last of them, which is no opener. -/
def Typesets (words : List String) (text : String) : Prop :=
  ∃ last, last ∉ openers ∧ ∀ before rest, Spacing.tight.textBehind before (words ++ rest) =
    lead before ++ (text ++ Spacing.tight.textBehind last rest)

theorem gap_of_not_closer {before word : String} (h : word ∉ closers) :
    Spacing.tight.gap before word = lead before := by
  by_cases opener : before ∈ openers <;> simp [Spacing.gap, Spacing.tight, lead, opener, h]

theorem gap_of_closer {before word : String} (h : word ∈ closers) :
    Spacing.tight.gap before word = "" := by
  simp [Spacing.gap, Spacing.tight, h]

theorem lead_of_not_opener {before : String} (h : before ∉ openers) : lead before = " " :=
  if_neg h

namespace Typesets

variable {words more : List String} {text behind word : String}

theorem single (hc : word ∉ closers) (ho : word ∉ openers) : Typesets [word] word :=
  ⟨word, ho, fun before rest => by simp [gap_of_not_closer hc]⟩

theorem append (h : Typesets words text) (hm : Typesets more behind) :
    Typesets (words ++ more) (text ++ " " ++ behind) := by
  obtain ⟨last, plain, whole⟩ := h
  obtain ⟨last', plain', whole'⟩ := hm
  refine ⟨last', plain', fun before rest => ?_⟩
  rw [List.append_assoc, whole, whole', lead_of_not_opener plain]
  simp [String.append_assoc]

/-- A closer goes to the words before it. -/
theorem close (h : Typesets words text) (hc : word ∈ closers) (ho : word ∉ openers) :
    Typesets (words ++ [word]) (text ++ word) := by
  obtain ⟨last, -, whole⟩ := h
  refine ⟨word, ho, fun before rest => ?_⟩
  rw [List.append_assoc, whole, List.singleton_append, Spacing.textBehind_cons, gap_of_closer hc]
  simp [String.append_assoc]

/-- A parenthesis goes to the words behind it. -/
theorem openParen (h : Typesets words text) : Typesets ("(" :: words) ("(" ++ text) := by
  obtain ⟨last, plain, whole⟩ := h
  refine ⟨last, plain, fun before rest => ?_⟩
  rw [List.cons_append, Spacing.textBehind_cons, gap_of_not_closer (by decide), whole]
  simp [lead, openers, String.append_assoc]

/-- A bracket goes to the words on both of its sides. -/
theorem openAngle (h : Typesets words text) (hm : Typesets more behind) :
    Typesets (words ++ "<" :: more) (text ++ "<" ++ behind) := by
  obtain ⟨last, -, whole⟩ := h
  obtain ⟨last', plain', whole'⟩ := hm
  refine ⟨last', plain', fun before rest => ?_⟩
  rw [List.append_assoc, whole, List.cons_append, Spacing.textBehind_cons,
    gap_of_closer (by decide), whole']
  simp [lead, openers, String.append_assoc]

theorem flag (h : Typesets words text) (isNullable : Bool) :
    Typesets (words ++ Idl.flag isNullable "?") (text ++ if isNullable then "?" else "") := by
  cases isNullable with
  | true => exact h.close (by decide) (by decide)
  | false => simpa [Idl.flag] using h

/-- Words with a separator between them, to which a blank behind it belongs. -/
theorem separated {α : Type} {xs : List α} {f : α → List String} {g : α → String}
    {separator sign : String} (join : ∀ words text, Typesets words text →
      Typesets (words ++ [separator]) (text ++ sign))
    (filled : xs ≠ []) (h : ∀ x ∈ xs, Typesets (f x) (g x)) :
    Typesets (Idl.separated separator (xs.map f)) ((sign ++ " ").intercalate (xs.map g)) := by
  induction xs with
  | nil => exact absurd rfl filled
  | cons x xs ih =>
    obtain ⟨first, others⟩ := List.forall_mem_cons.mp h
    obtain _ | ⟨y, rest⟩ := xs
    · simpa [Idl.separated] using first
    · have whole := (join _ _ first).append (ih (List.cons_ne_nil y rest) others)
      simpa [Idl.separated, String.intercalate_cons_cons, String.append_assoc] using whole

/-- A text of words that are neither. -/
theorem spread (filled : words ≠ []) (h : ∀ word ∈ words, word ∉ closers ∧ word ∉ openers) :
    Typesets words (" ".intercalate words) := by
  induction words with
  | nil => exact absurd rfl filled
  | cons first rest ih =>
    obtain ⟨⟨hc, ho⟩, others⟩ := List.forall_mem_cons.mp h
    obtain _ | ⟨second, rest⟩ := rest
    · simpa using single hc ho
    · rw [String.intercalate_cons_cons]
      exact (single hc ho).append (ih (List.cons_ne_nil second rest) others)

end Typesets

theorem not_closer_of_isName {name : String} (h : isName name.toList) :
    name ∉ closers ∧ name ∉ openers := by
  have none : ∀ word ∈ closers ++ openers, isName word.toList = false := by decide
  rw [← not_or, ← List.mem_append]
  intro mark
  rw [none name mark] at h
  cases h

/-- A name stands for itself, and so do the words of a primitive type. -/
theorem typesets_nameWords {name : String}
    (h : isName name.toList ∨ ∃ words ∈ primitiveTypes, " ".intercalate words = name) :
    Typesets (nameWords name name) name := by
  obtain ⟨words, known, spelled, same⟩ | ⟨unknown, single⟩ := nameWords_cases name name
  · have clear : ∀ words ∈ primitiveTypes, words ≠ [] ∧
        ∀ word ∈ words, word ∉ closers ∧ word ∉ openers := by decide
    obtain ⟨filled, clear⟩ := clear words known
    simpa [same, spelled] using Typesets.spread filled clear
  · have plain : isName name.toList := by
      refine h.resolve_right ?_
      rintro ⟨words, known, spelled⟩
      exact unknown words known spelled
    obtain ⟨hc, ho⟩ := not_closer_of_isName plain
    rw [single]
    exact Typesets.single hc ho

/-- The words of a type stand for its text. -/
theorem TypeExpr.Readable.typesets : ∀ {type : TypeExpr}, type.Readable →
    Typesets type.textWords type.text
  | .named _ isNullable _, .primitive known =>
    (typesets_nameWords (.inr ⟨_, known, rfl⟩)).flag isNullable
  | .named _ isNullable _, .named hn _ => (typesets_nameWords (.inl hn)).flag isNullable
  | .generic name parameters isNullable _, .generic hn _ filled hp => by
    obtain ⟨hc, ho⟩ := not_closer_of_isName hn
    have comma (words : List String) (text : String) (h : Typesets words text) :
        Typesets (words ++ [","]) (text ++ ",") := h.close (by decide) (by decide)
    have inside := Typesets.separated comma filled fun parameter h => (hp parameter h).typesets
    have ends : ">" ∈ closers ∧ ">" ∉ openers := by decide
    have whole := ((Typesets.single hc ho).openAngle inside).close ends.1 ends.2
    rw [TypeExpr.textWords, TypeExpr.text, TypeExpr.listTextWords_eq_map, TypeExpr.texts_eq_map]
    exact whole.flag isNullable
  | .union members isNullable _, .union several hm => by
    have filled : members ≠ [] := List.ne_nil_of_length_pos (by omega)
    have or (words : List String) (text : String) (h : Typesets words text) :
        Typesets (words ++ ["or"]) (text ++ (" " ++ "or")) := by
      rw [← String.append_assoc]
      exact h.append (.single (by decide) (by decide))
    have inside := Typesets.separated or filled fun member h => (hm member h).typesets
    have ends : ")" ∈ closers ∧ ")" ∉ openers := by decide
    have whole := inside.openParen.close ends.1 ends.2
    rw [TypeExpr.textWords, TypeExpr.text, TypeExpr.listTextWords_eq_map, TypeExpr.texts_eq_map]
    exact whole.flag isNullable

/-! ### Phrases -/

/-- A name as it is written, where a type begins. -/
theorem spells_typeName {name : String} (hn : isName name.toList)
    (free : name ∉ primitiveKeywords) :
    SpellsAt (some .annotatedType) [token .identifier] [name] [literalPiece .identifier name] := by
  have known : ∃ known, (Rule.annotatedType, known) ∈ nameRules ∧ ∀ k ∈ known,
      ∀ literal ∈ k.literal?, literal ∈ primitiveKeywords :=
    ⟨[.kwShort, .kwLong, .kwFloat, .kwDouble, .kwUnsigned, .kwUnrestricted], by decide, by decide⟩
  obtain ⟨known, hr, reserved⟩ := known
  exact .asWritten ⟨rfl, isIdentifier_of_isName hn, known, hr,
    fun k hk spelled => free (reserved k hk name spelled)⟩ spells_nil

/-- A name has no underscore in front to be left out. -/
theorem Token.name_of_isName {name : String} (hn : isName name.toList) :
    Token.name ⟨.identifier, "", name⟩ = name := by
  unfold Token.name
  split
  · rename_i rest spelled
    rw [spelled] at hn
    exact absurd (isAlpha_of_isName hn) (by decide)
  · rfl

/-- A type without extended attributes begins where a type that may have some does. -/
theorem spells_unannotated {base type : TypeExpr} {words : List String} (isNullable : Bool)
    (h : SpellsAt (some .annotatedType) [rule .singleType] words [.type base])
    (same : (if isNullable then base.makeNullable else base) = type) :
    Spells [rule .annotatedType] (words ++ flag isNullable "?") [.type type] := by
  have alternative : ⟨.annotatedType, .annotatedType, [maybe [rule .attributeList], rule .type]⟩ ∈
      alternatives := by decide
  exact .combine_begin alternative (.leftOut (same ▸ spells_type isNullable h)) rfl

/-- The words of a type are a phrase that means it. -/
theorem TypeExpr.Readable.spells : ∀ {type : TypeExpr}, type.Readable →
    Spells [rule .annotatedType] type.textWords [.type type]
  | .named _ isNullable _, .primitive known =>
    spells_unannotated isNullable
      (spells_singleType fun unknown => absurd rfl (unknown _ known))
      (by cases isNullable <;> rfl)
  | .named name isNullable _, .named hn free => by
    have single : ∀ word ∈ primitiveKeywords,
        word ∈ ["unsigned", "unrestricted"] ∨ [word] ∈ primitiveTypes := by decide
    refine spells_unannotated isNullable (spells_singleType fun unknown =>
      ⟨Token.name_of_isName hn, spells_typeName hn fun keyword => ?_⟩)
      (by cases isNullable <;> rfl)
    exact (single name keyword).elim free fun known => unknown _ known (by simp)
  | .generic name parameters isNullable _, .generic hn free filled hp => by
    have base := spells_generic (Token.name_of_isName hn) (spells_typeName hn free) filled
      fun parameter h => (hp parameter h).spells
    rw [TypeExpr.textWords, TypeExpr.listTextWords_eq_map]
    exact spells_unannotated isNullable base (by cases isNullable <;> rfl)
  | .union members isNullable _, .union several hm => by
    have base := spells_union several fun member h => (hm member h).spells
    rw [TypeExpr.textWords, TypeExpr.listTextWords_eq_map]
    exact spells_unannotated isNullable base.anywhere (by cases isNullable <;> rfl)

/-! ### Texts -/

/-- The words of a definition that gives a type the name `X`. -/
def typedefWords (type : TypeExpr) : List String :=
  "typedef" :: (type.textWords ++ ["X", ";"])

theorem TypeExpr.Readable.text_typedefWords {type : TypeExpr} (h : type.Readable) :
    Spacing.tight.text (typedefWords type) = "typedef " ++ type.text ++ " X;" := by
  obtain ⟨last, plain, whole⟩ := h.typesets
  have opens : lead "typedef" = " " := lead_of_not_opener (by decide)
  have name : Spacing.tight.gap last "X" = " " :=
    (gap_of_not_closer (by decide)).trans (lead_of_not_opener plain)
  have ends : Spacing.tight.gap "X" ";" = "" := gap_of_closer (by decide)
  rw [typedefWords, Spacing.text, whole, opens, Spacing.textBehind_cons, name,
    Spacing.textBehind_cons, ends]
  simp [Spacing.textBehind, String.append_assoc, ← String.toList_inj]

theorem TypeExpr.Readable.spells_typedefWords {type : TypeExpr} (h : type.Readable) :
    Spells [rule .start] (typedefWords type)
      [.node { kind := .known .typedef, name := "X", type := some type }] := by
  have free : ∀ t : Terminal, t.literal? ≠ some "X" := by
    have all : ∀ t ∈ Terminal.all, t.literal? ≠ some "X" := by decide
    exact fun t => all t t.mem_all
  have name : Spells [token .identifier] ["X"] [literalPiece .identifier "X"] :=
    .plain (isPlain_of_unreserved (by decide) free) spells_nil
  have body : ⟨.definitionBody, .part, [rule .typedef]⟩ ∈ alternatives := by decide
  have definition : ⟨.definition, .definition,
      [maybe [rule .attributeList], rule .definitionBody]⟩ ∈ alternatives := by decide
  have whole : ∀ node ∈ [({ kind := .known .typedef, name := "X", type := some type } : Node)],
      Spells [rule .definition] (typedefWords type) [.node node] :=
    List.forall_mem_singleton.mpr (.combine definition
      (.leftOut (.group body (spells_typedef name rfl h.spells))) rfl)
  simpa using spells_start whole

/-- The text of a type is read back as the type: as the type of the definition that gives it a
name. -/
theorem parse_typedef_text {type : TypeExpr} (h : type.Readable) :
    ∃ fragment, parse ("typedef " ++ type.text ++ " X;") =
      .ok [{ kind := .known .typedef, name := "X", type := some type, fragment }] := by
  obtain ⟨parsed, read, same⟩ := Spacing.tight.parse_of_spells h.spells_typedefWords
  rw [h.text_typedefWords] at read
  obtain ⟨d, rfl, bare⟩ := List.map_eq_singleton_iff.mp same
  exact ⟨d.fragment, by rw [read, ← Node.eq_of_bare_eq rfl bare]⟩

/-- A union of a type with the name `or` and a generic type that takes, besides a type with the name
of another keyword, a union of primitive types. -/
theorem parse_typedef_text_or :
    let words : TypeExpr :=
      .union [.named "unsigned long long" true [], .named "long" false []] false []
    let type : TypeExpr :=
      .union [.named "or" false [], .generic "record" [.named "interface" false [], words] true []]
        true []
    type.Readable ∧
      ∃ fragment,
        parse "typedef (or or record<interface, (unsigned long long? or long)>?)? X;" =
          .ok [{ kind := .known .typedef, name := "X", type := some type, fragment }] := by
  intro words type
  have long : ["unsigned", "long", "long"] ∈ primitiveTypes ∧ ["long"] ∈ primitiveTypes := by decide
  have readable : words.Readable :=
    .union (by decide) (List.forall_mem_cons.mpr ⟨.primitive long.1,
      List.forall_mem_singleton.mpr (.primitive long.2)⟩)
  have record : TypeExpr.Readable
      (.generic "record" [.named "interface" false [], words] true []) :=
    .generic (by decide) (by decide) (by simp) (List.forall_mem_cons.mpr
      ⟨.named (by decide) (by decide), List.forall_mem_singleton.mpr readable⟩)
  have whole : type.Readable :=
    .union (by decide) (List.forall_mem_cons.mpr ⟨.named (by decide) (by decide),
      List.forall_mem_singleton.mpr record⟩)
  have spelled : "typedef " ++ type.text ++ " X;" =
      "typedef (or or record<interface, (unsigned long long? or long)>?)? X;" := by
    decide
  exact ⟨whole, spelled ▸ parse_typedef_text whole⟩

end WebSpec.Idl
