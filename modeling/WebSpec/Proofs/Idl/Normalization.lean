import WebSpec.Idl.Legacy
import WebSpec.Proofs.Idl.RoundTrip
import WebSpec.Proofs.Text.Replacement

/-!
# What modernizing leaves alone

Legacy constructs are found in a text with no regard to its tokens. A text in which neither `[]` nor
`serializer` occurs is left as it is, and so are the definitions in it (`parse_normalize`). In other
texts what is found can be part of a name or of a quoted text, and then definitions change that are
no legacy constructs at all (`exists_parse_normalize_ne`).
-/

namespace WebSpec

namespace Idl.Legacy

variable {cs rest : List Char}

theorem after?_eq_some_iff {start : String} :
    after? start cs = some rest ↔ cs = start.toList ++ rest := by
  unfold after?
  constructor
  · intro h
    split_ifs at h with starts
    obtain ⟨behind, rfl⟩ := List.isPrefixOf_iff_prefix.mp starts
    rw [← String.length_toList, List.drop_left] at h
    rw [Option.some.inj h]
  · rintro rfl
    rw [if_pos (List.isPrefixOf_iff_prefix.mpr (List.prefix_append _ _)), ← String.length_toList,
      List.drop_left]

theorem after?_eq_some {start : String} (h : after? start cs = some rest) :
    start.toList <+: cs ∧ rest <:+ cs := by
  obtain rfl := after?_eq_some_iff.mp h
  exact ⟨List.prefix_append _ _, List.suffix_append _ _⟩

theorem infix_of_arrayAttribute {m : Text.Match} (h : arrayAttribute cs = some m) :
    "[]".toList <:+: cs := by
  obtain ⟨rest, hr, h⟩ := Option.bind_eq_some_iff.mp h
  obtain ⟨behind, hb, -⟩ := Option.bind_eq_some_iff.mp h
  have inside := (after?_eq_some hb).1.isInfix.trans (List.drop_suffix _ rest).isInfix
  exact inside.trans (after?_eq_some hr).2.isInfix

theorem infix_of_serializer {m : Text.Match} (h : serializer cs = some m) :
    "serializer".toList <:+: cs := by
  obtain ⟨rest, hr, -⟩ := Option.bind_eq_some_iff.mp h
  exact (after?_eq_some hr).1.isInfix

/-- A matcher that only finds what has a given text in it leaves other texts as they are. -/
theorem replaceMatches_of_not_infix {find? : Text.Matcher} {needle : List Char}
    (found : ∀ {suffix m}, find? suffix = some m → needle <:+: suffix) (h : ¬ needle <:+: cs) :
    Text.replaceMatches find? cs = cs := by
  refine Text.replaceMatches_eq_self fun suffix hs => ?_
  cases hf : find? suffix with
  | none => rfl
  | some m => exact absurd ((found hf).trans hs.isInfix) h

theorem normalize_eq_self {text : String} (brackets : ¬ "[]".toList <:+: text.toList)
    (word : ¬ "serializer".toList <:+: text.toList) : normalize text = text := by
  have arrays : modernizeArrays text = text := by
    rw [modernizeArrays, replaceMatches_of_not_infix infix_of_arrayAttribute brackets,
      String.ofList_toList]
  rw [normalize, List.foldl_nil, arrays, modernizeSerializers,
    replaceMatches_of_not_infix infix_of_serializer word, String.ofList_toList]

/-- A text without the marks of legacy constructs keeps its definitions. -/
theorem parse_normalize {text : String} (brackets : ¬ "[]".toList <:+: text.toList)
    (word : ¬ "serializer".toList <:+: text.toList) : parse (normalize text) = parse text := by
  rw [normalize_eq_self brackets word]

/-- An enumeration with one value. -/
def enumeration (value : String) : Node :=
  { kind := .known .enumeration, name := "E", members := [{ kind := .known .enumValue, value }] }

/-- Modernizing can change what is written in quotes. -/
theorem exists_parse_normalize_ne :
    ∃ text definitions changed, parse text = .ok definitions ∧
      parse (normalize text) = .ok changed ∧
      changed.map Node.bare ≠ definitions.map Node.bare := by
  have named : isName "E".toList := by decide
  have formed (value : String) (unquoted : '"' ∉ value.toList) :
      ∀ d ∈ [enumeration value], d.IsDefinition := by
    have values : ∀ v ∈ [value], '"' ∉ v.toList := List.forall_mem_singleton.mpr unquoted
    exact List.forall_mem_singleton.mpr
      ⟨.enumeration named (by simp) values, by simp [enumeration]⟩
  obtain ⟨definitions, read, same⟩ :=
    parse_of_spells (spells_definitions (formed "attribute x[]" (by decide)))
  obtain ⟨changed, readChanged, sameChanged⟩ :=
    parse_of_spells (spells_definitions (formed "attribute FrozenArray<x>" (by decide)))
  have modernized : normalize (print [enumeration "attribute x[]"]) =
      print [enumeration "attribute FrozenArray<x>"] := by decide
  refine ⟨print [enumeration "attribute x[]"], definitions, changed, read, ?_, fun equal => ?_⟩
  · rw [modernized]
    exact readChanged
  · rw [same, sameChanged] at equal
    have values := congrArg (List.flatMap fun d => d.members.map Node.value) equal
    simp [enumeration, Pieces.nodes, Node.bare, Node.bareAll] at values

end Idl.Legacy

end WebSpec
