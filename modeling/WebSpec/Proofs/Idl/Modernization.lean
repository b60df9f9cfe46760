import WebSpec.Proofs.Idl.Normalization

/-!
# When modernizing is complete

Modernizing looks at each place of a text once. What stands in for a legacy construct is not
searched again, so together with the text around it it can be a legacy construct in its turn: of an
array attribute with two pairs of brackets only the first one goes (`normalize_matrix`).

This is the only way. No serializer remains where serializers have been replaced
(`modernizeSerializers_complete`), this brings no array attributes, and of these none remains unless
one was followed by more brackets. `normalize_normalize` puts that together.
-/

namespace WebSpec.Idl.Legacy

open Text (Apart replaceMatches)

variable {cs rest : List Char}

/-- What follows some characters that are skipped. -/
theorem after?_dropWhile_eq_some_iff {start : String} {skip : Char → Bool} {c : Char}
    (first : start.toList.head? = some c) (stops : skip c = false) :
    after? start (cs.dropWhile skip) = some rest ↔
      ∃ before, (∀ c ∈ before, skip c) ∧ cs = before ++ (start.toList ++ rest) := by
  rw [after?_eq_some_iff]
  constructor
  · intro h
    refine ⟨cs.takeWhile skip, fun c => List.mem_takeWhile_imp, ?_⟩
    rw [← h, List.takeWhile_append_dropWhile]
  · rintro ⟨before, skipped, rfl⟩
    rw [List.dropWhile_append_of_pos skipped]
    cases h : start.toList with
    | nil => rw [h] at first; cases first
    | cons c' tail =>
      obtain rfl : c' = c := by simpa [h] using first
      simp [stops]

/-! ### Serializers -/

/-- What a serializer has in front of the part in braces. -/
inductive IsOpening : List Char → Prop where
  | mk {before behind : List Char} (h : ∀ c ∈ before, Text.isBlank c)
      (h' : ∀ c ∈ behind, Text.isBlank c) :
      IsOpening ("serializer".toList ++ (before ++ ("=".toList ++ (behind ++ "\x7b".toList))))

/-- A serializer starts with an opening, behind which there is a closing brace. -/
theorem isSome_serializer_iff :
    (serializer cs).isSome ↔ ∃ p q, IsOpening p ∧ '\x7d' ∈ q ∧ cs = p ++ q := by
  constructor
  · intro h
    obtain ⟨m, h⟩ := Option.isSome_iff_exists.mp h
    obtain ⟨r₁, h₁, h⟩ := Option.bind_eq_some_iff.mp h
    obtain ⟨r₂, h₂, h⟩ := Option.bind_eq_some_iff.mp h
    obtain ⟨r₃, h₃, h⟩ := Option.bind_eq_some_iff.mp h
    obtain ⟨r₄, h₄, -⟩ := Option.bind_eq_some_iff.mp h
    obtain rfl := after?_eq_some_iff.mp h₁
    obtain ⟨before, blank, rfl⟩ := (after?_dropWhile_eq_some_iff rfl (by decide)).mp h₂
    obtain ⟨behind, blank', rfl⟩ := (after?_dropWhile_eq_some_iff rfl (by decide)).mp h₃
    obtain ⟨inner, -, rfl⟩ := (after?_dropWhile_eq_some_iff rfl (by decide)).mp h₄
    refine ⟨_, inner ++ ("\x7d".toList ++ r₄), .mk blank blank', by simp, ?_⟩
    simp only [List.append_assoc]
  · rintro ⟨_, q, @⟨before, behind, blank, blank'⟩, closed, rfl⟩
    obtain ⟨inner, r, rfl, unclosed⟩ := List.eq_append_cons_of_mem closed
    have sign : after? "=" ((before ++ ("=".toList ++ (behind ++ ("\x7b".toList ++
        (inner ++ '\x7d' :: r))))).dropWhile Text.isBlank) = some _ :=
      (after?_dropWhile_eq_some_iff rfl (by decide)).mpr ⟨before, blank, rfl⟩
    have brace : after? "\x7b" ((behind ++ ("\x7b".toList ++ (inner ++ '\x7d' :: r))).dropWhile
        Text.isBlank) = some _ :=
      (after?_dropWhile_eq_some_iff rfl (by decide)).mpr ⟨behind, blank', rfl⟩
    have close : after? "\x7d" ((inner ++ '\x7d' :: r).dropWhile (· ≠ '\x7d')) = some r :=
      (after?_dropWhile_eq_some_iff rfl (by decide)).mpr
        ⟨inner, fun c hc => decide_eq_true fun same => unclosed (same ▸ hc), rfl⟩
    have word {rest : List Char} : after? "serializer" ("serializer".toList ++ rest) = some rest :=
      after?_eq_some_iff.mpr rfl
    simp only [List.append_assoc, serializer, word, Option.bind_eq_bind, Option.bind_some, sign,
      brace, close, Option.isSome_some]

/-- A serializer: an opening, and a part that ends with its first closing brace. -/
inductive IsSerializer : List Char → Prop where
  | mk {opening inner : List Char} (h : IsOpening opening) (unclosed : '\x7d' ∉ inner) :
      IsSerializer (opening ++ (inner ++ ['\x7d']))

/-- A serializer is found where a text starts with one. -/
theorem isSome_serializer_iff_prefix :
    (serializer cs).isSome ↔ ∃ part, IsSerializer part ∧ part <+: cs := by
  rw [isSome_serializer_iff]
  constructor
  · rintro ⟨p, q, opening, closed, rfl⟩
    obtain ⟨inner, rest, rfl, unclosed⟩ := List.eq_append_cons_of_mem closed
    exact ⟨_, .mk opening unclosed, rest, by simp⟩
  · rintro ⟨_, @⟨opening, inner, isOpening, -⟩, rest, rfl⟩
    exact ⟨opening, inner ++ ['\x7d'] ++ rest, isOpening, by simp, by simp⟩

theorem replacement_of_serializer {m : Text.Match} (h : serializer cs = some m) :
    m.replacement = "[Default] object toJSON()".toList := by
  obtain ⟨r₁, -, h⟩ := Option.bind_eq_some_iff.mp h
  obtain ⟨r₂, -, h⟩ := Option.bind_eq_some_iff.mp h
  obtain ⟨r₃, -, h⟩ := Option.bind_eq_some_iff.mp h
  obtain ⟨r₄, -, h⟩ := Option.bind_eq_some_iff.mp h
  rw [← Option.some.inj h]

/-! ### Array attributes -/

/-- A text without spaces and opening brackets. -/
def IsWord (word : List Char) : Prop :=
  '[' ∉ word ∧ ' ' ∉ word

/-- The word that array attributes start with. -/
def attributeWord : List Char :=
  "attribute".toList

/-- An array attribute up to its brackets. -/
def arrayText (spaces : Nat) (word : List Char) : List Char :=
  attributeWord ++ (List.replicate (spaces + 1) ' ' ++ (word ++ ['[', ']']))

/-- What stands in for an array attribute. -/
def frozenText (word : List Char) : List Char :=
  attributeWord ++ ' ' :: ("FrozenArray<".toList ++ (word ++ ['>']))

/-- What is taken from a text ends before the first character that is not wanted. -/
theorem takeWhile_append_cons {wanted : Char → Bool} {p : List Char} {c : Char}
    (h : ∀ c ∈ p, wanted c) (stops : wanted c = false) : (p ++ c :: rest).takeWhile wanted = p := by
  rw [List.takeWhile_append_of_pos h, List.takeWhile_cons, stops]
  exact List.append_nil p

theorem IsWord.wanted {word : List Char} (h : IsWord word) :
    ∀ c ∈ word, (c ≠ '[' && c ≠ ' ') = true := by
  intro c hc
  have bracket : c ≠ '[' := fun same => h.1 (same ▸ hc)
  have space : c ≠ ' ' := fun same => h.2 (same ▸ hc)
  simp [bracket, space]

theorem takeWhile_replicate_append {n : Nat} {p : List Char} (h : p.head? ≠ some ' ') :
    (List.replicate n ' ' ++ p).takeWhile (· = ' ') = List.replicate n ' ' := by
  rw [List.takeWhile_append_of_pos (by simp)]
  cases p with
  | nil => simp
  | cons c p =>
    have stops : c ≠ ' ' := by simpa using h
    simp [stops]

section

variable {spaces : Nat} {word : List Char}

theorem arrayText_append :
    arrayText spaces word ++ rest =
      attributeWord ++ (List.replicate (spaces + 1) ' ' ++ (word ++ '[' :: ']' :: rest)) := by
  simp only [arrayText, List.append_assoc, List.cons_append, List.nil_append]

theorem length_arrayText :
    (arrayText spaces word).length = attributeWord.length + (spaces + 1) + word.length + 2 := by
  simp only [arrayText, List.length_append, List.length_replicate, List.length_cons,
    List.length_nil]
  omega

end

/-- An array attribute and what stands in for it. -/
theorem arrayAttribute_eq_some_iff {m : Text.Match} :
    arrayAttribute cs = some m ↔ ∃ spaces word rest, IsWord word ∧
      cs = arrayText spaces word ++ rest ∧
      m = ⟨frozenText word, (arrayText spaces word).length⟩ := by
  have replacement {word : List Char} :
      "attribute FrozenArray<".toList ++ word ++ ['>'] = frozenText word := by
    rw [frozenText, List.append_assoc]
    rfl
  constructor
  · intro h
    obtain ⟨r, h₁, h⟩ := Option.bind_eq_some_iff.mp h
    obtain ⟨rest, h₂, h⟩ := Option.bind_eq_some_iff.mp h
    dsimp only at h
    split_ifs at h with none
    rw [replacement] at h
    have spaced := List.prefix_iff_eq_append.mp (List.takeWhile_prefix (· = ' ') (l := r))
    have all : ∀ c ∈ r.takeWhile (· = ' '), c = ' ' := fun c hc => by
      simpa using List.mem_takeWhile_imp hc
    generalize r.takeWhile (· = ' ') = spaces at *
    obtain ⟨n, rfl⟩ : ∃ n, spaces = List.replicate (n + 1) ' ' := by
      cases spaces with
      | nil => cases none rfl
      | cons c spaces => exact ⟨spaces.length, List.eq_replicate_iff.mpr ⟨rfl, all⟩⟩
    rw [← List.drop_drop] at h₂
    generalize r.drop (List.replicate (n + 1) ' ').length = behind at *
    have worded := List.prefix_iff_eq_append.mp
      (List.takeWhile_prefix (fun c => c ≠ '[' && c ≠ ' ') (l := behind))
    have isWord : IsWord (behind.takeWhile fun c => c ≠ '[' && c ≠ ' ') := by
      constructor <;> intro hc <;> simpa using List.mem_takeWhile_imp hc
    generalize behind.takeWhile (fun c => c ≠ '[' && c ≠ ' ') = word at *
    refine ⟨n, word, rest, isWord, ?_, ?_⟩
    · rw [after?_eq_some_iff.mp h₁, arrayText_append, ← spaced, ← worded,
        after?_eq_some_iff.mp h₂]
      rfl
    · rw [← Option.some.inj h, length_arrayText, List.length_replicate]
      rfl
  · rintro ⟨spaces, word, rest, isWord, text, rfl⟩
    rw [arrayText_append] at text
    generalize hr : List.replicate (spaces + 1) ' ' ++ (word ++ '[' :: ']' :: rest) = r at text
    have start : after? "attribute" cs = some r := after?_eq_some_iff.mpr text
    have finish : after? "[]" ('[' :: ']' :: rest) = some rest := after?_eq_some_iff.mpr rfl
    have run : r.takeWhile (· = ' ') = List.replicate (spaces + 1) ' ' := by
      rw [← hr]
      refine takeWhile_replicate_append ?_
      cases word with
      | nil => simp
      | cons c word => exact fun same => isWord.2 (Option.some.inj same ▸ List.mem_cons_self)
    have behind : r.drop (List.replicate (spaces + 1) ' ').length = word ++ '[' :: ']' :: rest := by
      rw [← hr, List.drop_left]
    have inside : (word ++ '[' :: ']' :: rest).takeWhile (fun c => c ≠ '[' && c ≠ ' ') = word :=
      takeWhile_append_cons isWord.wanted (by decide)
    rw [arrayAttribute]
    simp only [start, Option.bind_eq_bind, Option.bind_some, run, behind, inside, ← List.drop_drop,
      List.drop_left, finish, replacement]
    rw [length_arrayText, if_neg (by simp), List.length_replicate]
    rfl

theorem lead_of_arrayAttribute {m : Text.Match} (h : arrayAttribute cs = some m) :
    attributeWord ++ [' '] <+: m.replacement := by
  obtain ⟨spaces, word, rest, -, -, rfl⟩ := arrayAttribute_eq_some_iff.mp h
  rw [frozenText, ← List.singleton_append, ← List.append_assoc]
  exact List.prefix_append _ _

/-- A word and the brackets behind it do not run into what stands in for an array attribute. -/
theorem apart_word {word : List Char} (h : IsWord word) :
    Apart (word ++ ['[', ']']) (attributeWord ++ [' ']) := by
  have word' : ' ' ∉ word ++ ['['] := by simpa using h.2
  have apart : Apart (word ++ ['['] ++ [']']) (attributeWord ++ [' ']) :=
    Text.apart_of_last (by decide) (by simp) word' (by decide)
  rwa [List.append_assoc] at apart

/-- Behind its first character, an array attribute does not run into what stands in for another
one. -/
theorem apart_arrayText {spaces : Nat} {word : List Char} (h : IsWord word) :
    Apart (arrayText spaces word).tail (attributeWord ++ [' ']) := by
  have apart := ((apart_word h).append (c := 'a') (by decide)
    (by simp : 'a' ∉ List.replicate (spaces + 1) ' ')).append (c := 'a') (by decide)
    (by decide : 'a' ∉ attributeWord.tail)
  exact apart

/-- Nor does it run into what stands in for a serializer. -/
theorem apart_arrayText_serializer {spaces : Nat} {word : List Char} (h : IsWord word) :
    Apart (arrayText spaces word).tail ['[', 'D'] := by
  have brackets : Apart ['[', ']'] ['[', 'D'] := by decide
  exact ((brackets.append rfl h.1).append rfl
    (by simp : '[' ∉ List.replicate (spaces + 1) ' ')).append rfl
    (by decide : '[' ∉ attributeWord.tail)

/-- What stands in for an array attribute starts like one at its first character only. -/
theorem apart_frozenText {word : List Char} (h : IsWord word) :
    Apart (frozenText word).tail (attributeWord ++ [' ']) := by
  have without : ' ' ∉ "FrozenArray<".toList ++ word := by simpa using h.2
  have apart : Apart ("FrozenArray<".toList ++ word ++ ['>']) (attributeWord ++ [' ']) :=
    Text.apart_of_last (by decide) (by simp) without (by decide)
  rw [List.append_assoc] at apart
  exact (apart.append (c := 'a') (by decide) (by decide : 'a' ∉ [' '])).append (c := 'a')
    (by decide) (by decide : 'a' ∉ attributeWord.tail)

theorem arrayText_eq_cons (spaces : Nat) (word : List Char) :
    arrayText spaces word = 'a' :: (arrayText spaces word).tail :=
  rfl

theorem frozenText_eq_cons (word : List Char) :
    frozenText word = 'a' :: (frozenText word).tail :=
  rfl

/-- Replacements that array attributes do not run into give no new ones in front of them. -/
theorem arrayAttribute_cons_eq_none {find? : Text.Matcher} {lead : List Char} {c : Char}
    (leads : ∀ here m, find? here = some m → lead <+: m.replacement)
    (apart : ∀ {spaces word}, IsWord word → Apart (arrayText spaces word).tail lead)
    (h : arrayAttribute (c :: rest) = none) :
    arrayAttribute (c :: replaceMatches find? rest) = none := by
  cases found : arrayAttribute (c :: replaceMatches find? rest) with
  | none => rfl
  | some m =>
    obtain ⟨spaces, word, q, isWord, text, -⟩ := arrayAttribute_eq_some_iff.mp found
    rw [arrayText_eq_cons] at text
    obtain ⟨rfl, same⟩ := List.cons.inj text
    obtain ⟨behind, rfl, -⟩ := Text.exists_eq_append_of_replaceMatches leads (apart isWord) same
    have before : arrayAttribute ('a' :: ((arrayText spaces word).tail ++ behind)) = some _ :=
      arrayAttribute_eq_some_iff.mpr ⟨spaces, word, behind, isWord, rfl, rfl⟩
    rw [h] at before
    cases before

/-- A text has an array attribute with brackets behind its brackets. -/
def HasMatrix (cs : List Char) : Prop :=
  ∃ spaces word more, IsWord word ∧ IsWord more ∧
    arrayText spaces word ++ (more ++ ['[', ']']) <:+: cs

/-- A bracket is behind what has none. -/
theorem exists_eq_append_of_bracket {xs ys ws zs : List Char} (without : '[' ∉ xs)
    (h : xs ++ ys = ws ++ '[' :: zs) : ∃ more, ws = xs ++ more ∧ ys = more ++ '[' :: zs := by
  rcases List.append_eq_append_iff.mp h with ⟨more, rfl, same⟩ | ⟨more, rfl, same⟩
  · exact ⟨more, rfl, same⟩
  · cases more with
    | nil => exact ⟨[], by simp, same.symm⟩
    | cons c more =>
      obtain ⟨rfl, -⟩ := List.cons.inj same
      exact absurd (by simp) without

/-- What stands in for an array attribute starts another one only with brackets behind it. -/
theorem exists_more_of_frozenText {spaces : Nat} {word word' ys q : List Char} (h : IsWord word)
    (h' : IsWord word') (text : frozenText word ++ ys = arrayText spaces word' ++ q) :
    ∃ more, IsWord more ∧ ys = more ++ ['[', ']'] ++ q := by
  rw [frozenText, arrayText_append, List.append_assoc] at text
  have text := List.append_cancel_left text
  rw [List.replicate_succ, List.cons_append, List.cons_append] at text
  obtain ⟨-, text⟩ := List.cons.inj text
  cases spaces with
  | succ spaces => cases text
  | zero =>
    have without : '[' ∉ "FrozenArray<".toList ++ (word ++ ['>']) := by simpa using h.1
    obtain ⟨more, rfl, rfl⟩ := exists_eq_append_of_bracket without text
    exact ⟨more, ⟨fun hm => h'.1 (by simp [hm]), fun hm => h'.2 (by simp [hm])⟩, by simp⟩

/-- Without more brackets behind those of an array attribute, no array attribute remains. -/
theorem arrayAttribute_eq_none_of_replaceMatches (single : ¬ HasMatrix cs) {suffix : List Char}
    (hs : suffix <:+ replaceMatches arrayAttribute cs) : arrayAttribute suffix = none := by
  have leads (here : List Char) (m : Text.Match) (h : arrayAttribute here = some m) :
      attributeWord ++ [' '] <+: m.replacement := lead_of_arrayAttribute h
  refine Text.find?_replaceMatches_eq_none rfl (fun c rest inside none => ?_)
    (fun c rest m inside found s hs nonempty => ?_) hs
  · exact arrayAttribute_cons_eq_none leads apart_arrayText none
  · obtain ⟨spaces, word, behind, isWord, text, rfl⟩ := arrayAttribute_eq_some_iff.mp found
    have dropped : rest.drop ((arrayText spaces word).length - 1) = behind := by
      rw [arrayText_eq_cons, List.cons_append] at text
      rw [(List.cons.inj text).2, ← List.length_tail, List.drop_left]
    rw [dropped]
    cases again : arrayAttribute (s ++ replaceMatches arrayAttribute behind) with
    | none => rfl
    | some m' =>
      obtain ⟨spaces', word', q, isWord', text', -⟩ := arrayAttribute_eq_some_iff.mp again
      exfalso
      rw [frozenText_eq_cons, List.suffix_cons_iff] at hs
      rcases hs with rfl | hs
      · rw [← frozenText_eq_cons] at text'
        obtain ⟨more, isWord'', same⟩ := exists_more_of_frozenText isWord isWord' text'
        obtain ⟨tail, rfl, -⟩ :=
          Text.exists_eq_append_of_replaceMatches leads (apart_word isWord'') same
        refine single ⟨spaces, word, more, isWord, isWord'', ?_⟩
        refine List.IsInfix.trans ?_ inside.isInfix
        rw [text]
        exact ⟨[], tail, by simp⟩
      · have start : attributeWord ++ [' '] <+: s ++ replaceMatches arrayAttribute behind := by
          rw [text', arrayText_append, List.replicate_succ, List.cons_append,
            ← List.singleton_append, ← List.append_assoc]
          exact List.prefix_append _ _
        exact (apart_frozenText isWord).not_starts hs nonempty start

/-! ### Both of them -/

theorem lead_of_serializer {m : Text.Match} (h : serializer cs = some m) :
    ['[', 'D'] <+: m.replacement := by
  rw [replacement_of_serializer h]
  decide

theorem IsOpening.exists_cons {p : List Char} (h : IsOpening p) :
    ∃ tail, p = 's' :: tail ∧ '[' ∉ tail := by
  obtain @⟨before, behind, blank, blank'⟩ := h
  refine ⟨"serializer".toList.tail ++ (before ++ ("=".toList ++ (behind ++ "\x7b".toList))), rfl,
    ?_⟩
  have visible : Text.isBlank '[' = false := by decide
  have hb : '[' ∉ before := fun h => by simpa [visible] using blank _ h
  have hb' : '[' ∉ behind := fun h => by simpa [visible] using blank' _ h
  simp [hb, hb']

/-- No serializer remains. -/
theorem serializer_eq_none_of_replaceMatches {suffix : List Char}
    (hs : suffix <:+ replaceMatches serializer cs) : serializer suffix = none := by
  refine Text.find?_replaceMatches_eq_none rfl (fun c rest inside none => ?_)
    (fun c rest m inside found s hs nonempty => ?_) hs
  · rw [← Option.not_isSome_iff_eq_none, isSome_serializer_iff]
    rintro ⟨p, q, opening, closed, text⟩
    obtain ⟨tail, rfl, without⟩ := opening.exists_cons
    obtain ⟨rfl, same⟩ := List.cons.inj text
    have apart : Apart tail ['[', 'D'] := by
      simpa using Text.apart_nil.append rfl without
    obtain ⟨behind, rfl, rfl⟩ :=
      Text.exists_eq_append_of_replaceMatches (fun _ _ => lead_of_serializer) apart same
    -- The closing brace is no part of a replacement, so it was there before.
    have closed' : '\x7d' ∈ behind := by
      refine Text.mem_of_mem_replaceMatches (fun here m h => ?_) closed
      rw [replacement_of_serializer h]
      decide
    have found : (serializer ('s' :: (tail ++ behind))).isSome :=
      isSome_serializer_iff.mpr ⟨_, behind, opening, closed', rfl⟩
    rw [none] at found
    cases found
  · rw [← Option.not_isSome_iff_eq_none, isSome_serializer_iff]
    rintro ⟨p, q, opening, -, text⟩
    obtain ⟨tail, rfl, -⟩ := opening.exists_cons
    rw [replacement_of_serializer found] at hs
    have start : 's' ∈ s := by
      cases s with
      | nil => exact absurd rfl nonempty
      | cons c s => exact (List.cons.inj text).1 ▸ List.mem_cons_self
    exact absurd (hs.subset start) (by decide)

/-- Modernizing the serializers of a text once is enough: a second time changes nothing, and no part
of the result is a serializer. -/
theorem modernizeSerializers_complete (text : String) :
    modernizeSerializers (modernizeSerializers text) = modernizeSerializers text ∧
      ∀ part, IsSerializer part → ¬ part <:+: (modernizeSerializers text).toList := by
  have gone (suffix : List Char) (hs : suffix <:+ (modernizeSerializers text).toList) :
      serializer suffix = none := by
    rw [modernizeSerializers, String.toList_ofList] at hs
    exact serializer_eq_none_of_replaceMatches hs
  constructor
  · rw [modernizeSerializers, Text.replaceMatches_eq_self gone, String.ofList_toList]
  · rintro part isSerializer ⟨before, behind, inside⟩
    have none : serializer (part ++ behind) = none :=
      gone _ ⟨before, by rw [← inside, List.append_assoc]⟩
    have found : (serializer (part ++ behind)).isSome :=
      isSome_serializer_iff_prefix.mpr ⟨part, isSerializer, List.prefix_append part behind⟩
    rw [none] at found
    cases found

/-- A serializer in the braces of another one ends that one. -/
example : modernizeSerializers "serializer = \x7b a serializer=\x7b b \x7d \x7d" =
    "[Default] object toJSON() \x7d" := by
  decide +kernel

/-- Modernizing serializers brings no array attributes. -/
theorem arrayAttribute_eq_none_of_replaceMatches_serializer
    (h : ∀ suffix, suffix <:+ cs → arrayAttribute suffix = none) {suffix : List Char}
    (hs : suffix <:+ replaceMatches serializer cs) : arrayAttribute suffix = none := by
  refine Text.find?_replaceMatches_eq_none rfl (fun c rest inside _ => ?_)
    (fun c rest m _ found s hs nonempty => ?_) hs
  · exact arrayAttribute_cons_eq_none (fun _ _ => lead_of_serializer) apart_arrayText_serializer
      (h _ inside)
  · rw [replacement_of_serializer found] at hs
    cases again : arrayAttribute (s ++ replaceMatches serializer (rest.drop (m.length - 1))) with
    | none => rfl
    | some m' =>
      obtain ⟨spaces, word, q, -, text, -⟩ := arrayAttribute_eq_some_iff.mp again
      have apart : Apart "[Default] object toJSON()".toList attributeWord := by decide
      have start : attributeWord <+: s ++ replaceMatches serializer (rest.drop (m.length - 1)) := by
        rw [text, arrayText_append]
        exact List.prefix_append _ _
      exact absurd start (apart.not_starts hs nonempty)

/-- Unless a text has an array attribute with more brackets behind its brackets, modernizing it once
leaves no legacy constructs. -/
theorem normalize_normalize {text : String} (single : ¬ HasMatrix text.toList) :
    normalize (normalize text) = normalize text ∧ isObsolete (normalize text) = false := by
  have arrays (suffix : List Char)
      (hs : suffix <:+ replaceMatches serializer (replaceMatches arrayAttribute text.toList)) :
      arrayAttribute suffix = none :=
    arrayAttribute_eq_none_of_replaceMatches_serializer
      (fun _ => arrayAttribute_eq_none_of_replaceMatches single) hs
  have once : normalize (normalize text) = normalize text := by
    simp only [normalize, List.foldl_nil, modernizeSerializers, modernizeArrays,
      String.toList_ofList]
    rw [Text.replaceMatches_eq_self arrays, Text.replaceMatches_eq_self fun _ =>
      serializer_eq_none_of_replaceMatches]
  exact ⟨once, by simp [isObsolete, once]⟩

/-- Of two pairs of brackets only the first one goes. -/
theorem normalize_matrix :
    let text := "interface A \x7b attribute long[][] m; \x7d;"
    normalize text = "interface A \x7b attribute FrozenArray<long>[] m; \x7d;" ∧
      normalize (normalize text) =
        "interface A \x7b attribute FrozenArray<FrozenArray<long>> m; \x7d;" ∧
      isObsolete (normalize text) = true := by
  decide +kernel

end WebSpec.Idl.Legacy
