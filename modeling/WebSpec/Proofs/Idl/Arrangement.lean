import Mathlib.Data.List.Nodup
import WebSpec.Proofs.Idl.Payload
import WebSpec.Proofs.Idl.Totality

/-!
# The order of the pieces of a construct

A construct looks its pieces up by their role, wherever they stand, and takes only the first piece
of some roles. Nothing is lost by that: in a derivation the pieces of a construct stand in the order
of its `slots`, one for each role, and a slot that does not repeat has one piece at most. The right
sides of the productions say so (`arranges_productions`).
-/

namespace WebSpec.Idl

open ContextFree (Production)

/-! ### Roles -/

/-- What a piece is to the construct around it. -/
inductive Role where
  | name | quoted | number | inheritance | type | argument | arguments | extAttribute
  | extAttributes | attributeValue | literal | node
  deriving DecidableEq

/-- The role of a token; keywords and punctuation have none. -/
def Terminal.role? : Terminal → Option Role
  | .identifier => some .name
  | .string => some .quoted
  | .integer | .decimal => some .number
  | _ => none

theorem Terminal.role_eq_name {t : Terminal} : t.role? = some .name ↔ t = .identifier := by
  cases t <;> simp [role?]

theorem Terminal.role_eq_quoted {t : Terminal} : t.role? = some .quoted ↔ t = .string := by
  cases t <;> simp [role?]

theorem Terminal.role_mem {t : Terminal} {role : Role} (h : t.role? = some role) :
    role ∈ [.name, .quoted, .number] := by
  cases t <;> simp_all [role?, eq_comm]

/-- Only names, quoted texts and numbers are tokens. -/
theorem Terminal.role_ne {t : Terminal} {role : Role} (h : role ∉ [.name, .quoted, .number]) :
    t.role? ≠ some role :=
  fun same => h (Terminal.role_mem same)

/-- The role of a piece. -/
def Piece.role? : Piece → Option Role
  | .token t => t.terminal.role?
  | .inheritance _ => some .inheritance
  | .type _ => some .type
  | .argument _ => some .argument
  | .arguments _ => some .arguments
  | .extAttribute _ => some .extAttribute
  | .extAttributes _ => some .extAttributes
  | .attributeValue _ => some .attributeValue
  | .literal _ => some .literal
  | .node _ => some .node

/-- The pieces with a role. -/
def Pieces.playing (ps : Pieces) (role : Role) : Pieces :=
  ps.filter (·.role? = some role)

namespace Pieces

variable (ps : Pieces)

theorem playing_append (ps qs : Pieces) (role : Role) :
    playing (ps ++ qs) role = ps.playing role ++ qs.playing role :=
  List.filter_append ..

theorem playing_eq_nil {role : Role} (h : ∀ p ∈ ps, p.role? ≠ some role) :
    ps.playing role = [] :=
  List.filter_eq_nil_iff.mpr fun p hp => by simpa using h p hp

/-- The pieces with the role of a terminal are its tokens. -/
theorem playing_token {terminal : Terminal} {role : Role}
    (h : ∀ t : Terminal, t.role? = some role ↔ t = terminal) :
    ps.playing role = (ps.tokensOf terminal).map .token := by
  have token := Terminal.role_mem ((h terminal).mpr rfl)
  induction ps with
  | nil => rfl
  | cons p ps ih =>
    cases p with
    | token t =>
      by_cases same : t.terminal = terminal <;>
        simpa [playing, tokensOf, tokens, Piece.role?, same, h] using ih
    | _ =>
      rcases (by simpa using token : role = .name ∨ role = .quoted ∨ role = .number)
        with rfl | rfl | rfl <;>
        simpa [playing, tokensOf, tokens, Piece.role?] using ih

/-- From the pieces with a role, and from no others, there is something to take that makes them. -/
def Takes {α : Type} (role : Role) (make : α → Piece) (take : Piece → Option α) : Prop :=
  ∀ p, (p.role? = some role ∧ ∃ a, take p = some a ∧ p = make a) ∨
    (p.role? ≠ some role ∧ take p = none)

/-- The pieces with a role are made of what there is to take. -/
theorem Takes.playing_eq {α : Type} {take : Piece → Option α} {make : α → Piece} {role : Role}
    (takes : Takes role make take) : ps.playing role = (ps.filterMap take).map make := by
  induction ps with
  | nil => rfl
  | cons p ps ih =>
    rcases takes p with ⟨same, a, found, rfl⟩ | ⟨other, none⟩
    · simpa [playing, same, found] using ih
    · simpa [playing, other, none] using ih

theorem playing_name : ps.playing .name = (ps.tokensOf .identifier).map .token :=
  ps.playing_token fun _ => Terminal.role_eq_name

theorem playing_quoted : ps.playing .quoted = (ps.tokensOf .string).map .token :=
  ps.playing_token fun _ => Terminal.role_eq_quoted

theorem playing_type : ps.playing .type = ps.types.map .type :=
  Takes.playing_eq ps (by rintro ⟨⟩ <;> simp [Piece.role?, Terminal.role_ne])

theorem playing_node : ps.playing .node = ps.nodes.map .node :=
  Takes.playing_eq ps (by rintro ⟨⟩ <;> simp [Piece.role?, Terminal.role_ne])

end Pieces

/-- A place for pieces of one role. -/
structure Slot where
  role : Role
  /-- Whether there may be several of them. -/
  isMany : Bool
  deriving DecidableEq

/-- A slot for one piece. -/
def Slot.one (role : Role) : Slot :=
  ⟨role, false⟩

/-- A slot for any number of pieces. -/
def Slot.many (role : Role) : Slot :=
  ⟨role, true⟩

/-! ### Pieces in order -/

/-- Some pieces fill a slot, and there may be others without a role between them. -/
structure Fills (slot : Slot) (ps : Pieces) : Prop where
  role : ∀ p ∈ ps, p.role? = none ∨ p.role? = some slot.role
  once : slot.isMany = false → (ps.playing slot.role).length ≤ 1

/-- Pieces that fill slots, one after the other. -/
inductive Arranged : List Slot → Pieces → Prop where
  | nil {ps : Pieces} (mute : ∀ p ∈ ps, p.role? = none) : Arranged [] ps
  | cons {slot : Slot} {slots : List Slot} {front back : Pieces} (fills : Fills slot front)
      (others : Arranged slots back) : Arranged (slot :: slots) (front ++ back)

section Arranged

variable {slot : Slot} {slots : List Slot} {ps qs : Pieces} {role : Role}

theorem fills_of_mute (h : ∀ p ∈ ps, p.role? = none) : Fills slot ps where
  role p hp := .inl (h p hp)
  once _ := by rw [Pieces.playing_eq_nil _ fun p hp => by simp [h p hp]]; exact Nat.zero_le 1

theorem Fills.playing_eq_nil (h : Fills slot ps) (other : slot.role ≠ role) :
    ps.playing role = [] :=
  ps.playing_eq_nil fun p hp => by rcases h.role p hp with hr | hr <;> simp [hr, other]

theorem Fills.append (h : Fills slot ps) (hq : Fills slot qs)
    (once : slot.isMany = false → ps.playing slot.role = [] ∨ qs.playing slot.role = []) :
    Fills slot (ps ++ qs) where
  role p hp := (List.mem_append.mp hp).elim (h.role p) (hq.role p)
  once single := by
    rw [Pieces.playing_append]
    rcases once single with empty | empty
    · rw [empty, List.nil_append]
      exact hq.once single
    · rw [empty, List.append_nil]
      exact h.once single

/-- What the pieces say is what those in the slot say. -/
theorem Fills.flatMap_eq {α : Type} {f : Piece → List α} (h : Fills slot ps)
    (mute : ∀ p ∈ ps, p.role? = none → f p = []) :
    ps.flatMap f = (ps.playing slot.role).flatMap f := by
  have role := h.role
  clear h
  induction ps with
  | nil => rfl
  | cons p ps ih =>
    have rest := ih (fun q hq => mute q (List.mem_cons_of_mem p hq))
      fun q hq => role q (List.mem_cons_of_mem p hq)
    rcases role p List.mem_cons_self with none | some
    · simp [Pieces.playing, none, mute p List.mem_cons_self none, rest]
    · simp [Pieces.playing, some, rest]

namespace Arranged

/-- Slots may be left empty. -/
theorem skip (before : List Slot) (h : Arranged slots ps) : Arranged (before ++ slots) ps := by
  induction before with
  | nil => exact h
  | cons slot before ih =>
    have none : Fills slot [] := fills_of_mute (by simp)
    exact .cons none ih

/-- Pieces without a role may stand in front. -/
theorem mute_append (mute : ∀ p ∈ ps, p.role? = none) (h : Arranged slots qs) :
    Arranged slots (ps ++ qs) := by
  cases h with
  | nil others => exact .nil fun p hp => (List.mem_append.mp hp).elim (mute p) (others p)
  | cons fills others =>
    rw [← List.append_assoc]
    refine .cons ((fills_of_mute mute).append fills fun _ => .inl ?_) others
    exact Pieces.playing_eq_nil _ fun p hp => by simp [mute p hp]

/-- Pieces that fill a single slot. -/
theorem fills (h : Arranged [slot] ps) : Fills slot ps := by
  cases h with
  | cons front others =>
    cases others with
    | nil mute =>
      exact front.append (fills_of_mute mute) fun _ =>
        .inr (Pieces.playing_eq_nil _ fun p hp => by simp [mute p hp])

/-- A slot for several pieces may get more of them. -/
theorem fills_append (several : slot.isMany = true) (fills : Fills slot ps)
    (h : Arranged (slot :: slots) qs) : Arranged (slot :: slots) (ps ++ qs) := by
  cases h with
  | cons front others =>
    rw [← List.append_assoc]
    exact .cons (fills.append front fun single => by simp [several] at single) others

theorem playing_eq_nil (h : Arranged slots ps) (absent : role ∉ slots.map Slot.role) :
    ps.playing role = [] := by
  induction h with
  | nil mute => exact Pieces.playing_eq_nil _ fun p hp => by simp [mute p hp]
  | cons fills _ ih =>
    simp only [List.map_cons, List.mem_cons, not_or] at absent
    rw [Pieces.playing_append, fills.playing_eq_nil (Ne.symm absent.1), ih absent.2,
      List.append_nil]

/-- What the pieces say is what the pieces of each slot say. -/
theorem flatMap_eq {α : Type} {f : Piece → List α} (h : Arranged slots ps)
    (nodup : (slots.map Slot.role).Nodup) (mute : ∀ p ∈ ps, p.role? = none → f p = []) :
    ps.flatMap f = slots.flatMap fun slot => (ps.playing slot.role).flatMap f := by
  induction h with
  | nil none => exact List.flatMap_eq_nil_iff.mpr fun p hp => mute p hp (none p hp)
  | @cons slot slots front back fills others ih =>
    obtain ⟨absent, nodup⟩ := List.nodup_cons.mp nodup
    have first := fills.flatMap_eq fun p hp => mute p (List.mem_append_left _ hp)
    have rest : (slots.flatMap fun slot => (back.playing slot.role).flatMap f) =
        slots.flatMap fun slot => ((front ++ back).playing slot.role).flatMap f := by
      refine List.flatMap_congr fun other ho => ?_
      have apart : slot.role ≠ other.role := fun same =>
        absent (same ▸ List.mem_map_of_mem ho)
      rw [Pieces.playing_append, fills.playing_eq_nil apart, List.nil_append]
    rw [List.flatMap_append, first, ih nodup fun p hp => mute p (List.mem_append_right _ hp),
      List.flatMap_cons, Pieces.playing_append, others.playing_eq_nil absent, List.append_nil, rest]

/-- A slot that does not repeat has one piece at most. -/
theorem once (h : Arranged slots ps) (nodup : (slots.map Slot.role).Nodup) (hs : slot ∈ slots)
    (single : slot.isMany = false) : (ps.playing slot.role).length ≤ 1 := by
  induction h with
  | nil => cases hs
  | @cons first slots front back fills others ih =>
    obtain ⟨absent, nodup⟩ := List.nodup_cons.mp nodup
    rw [Pieces.playing_append]
    rcases List.mem_cons.mp hs with rfl | hs
    · rw [others.playing_eq_nil absent, List.append_nil]
      exact fills.once single
    · have apart : first.role ≠ slot.role := fun same => absent (same ▸ List.mem_map_of_mem hs)
      rw [fills.playing_eq_nil apart, List.nil_append]
      exact ih nodup hs

end Arranged

end Arranged

/-! ### Symbols -/

/-- What derivations from a rule mean. -/
def Rule.slot : Rule → Slot
  | .root | .start | .definitions | .interfaceMembers | .dictionaryMembers => .many .node
  | .definition | .definitionBody | .interface | .mixin | .callbackInterface | .callbackFunction
  | .namespaceDefinition | .dictionary | .enumeration | .typedef | .includesStatement
  | .implementsStatement | .interfaceMember | .memberBody | .const | .attributeMember | .operation
  | .specialOperation | .stringifier | .staticMember | .constructorMember | .iterable
  | .asyncIterable | .maplike | .setlike | .dictionaryMember => .one .node
  | .inheritance => .one .inheritance
  | .enumValues | .moreEnumValues => .many .quoted
  | .argumentList => .one .arguments
  | .moreArguments => .many .argument
  | .argument => .one .argument
  | .default | .defaultValue | .constValue => .one .literal
  | .annotatedType | .type | .singleType | .namedType | .genericType | .primitiveType
  | .unionType => .one .type
  | .moreTypes | .moreAlternatives => .many .type
  | .attributeList => .one .extAttributes
  | .moreAttributes => .many .extAttribute
  | .extendedAttribute => .one .extAttribute
  | .attributeValue => .one .attributeValue
  | .moreNames => .many .name

/-- What derivations from a symbol mean. -/
def slotOf? : ContextFree.Symbol → Option Slot
  | .terminal code => ((Terminal.ofCode? code).bind Terminal.role?).map .one
  | .nonterminal code => Rule.all[code]?.map Rule.slot

/-- The order in which a construct has its pieces. An extended attribute has them behind its own
name. -/
def Construct.slots : Construct → List Slot
  | .definition | .interfaceMember => [.one .extAttributes, .one .node]
  | .interface | .mixin | .callbackInterface | .namespaceDefinition | .dictionary =>
    [.one .name, .one .inheritance, .many .node]
  | .callbackFunction => [.one .name, .one .type, .one .arguments]
  | .enumeration => [.one .name, .many .quoted]
  | .typedef | .attributeMember => [.one .type, .one .name]
  | .includesStatement | .implementsStatement | .identifierListValue => [.many .name]
  | .inheritance | .namedType | .identifierValue => [.one .name]
  | .const => [.one .type, .one .name, .one .literal]
  | .operation => [.one .type, .one .name, .one .arguments]
  | .specialOperation | .stringifier | .staticMember => [.one .node]
  | .constructorMember | .callAttribute => [.one .arguments]
  | .iterable | .asyncIterable | .maplike | .setlike => [.many .type, .one .arguments]
  | .dictionaryMember | .argument => [.one .extAttributes, .one .type, .one .name, .one .literal]
  | .argumentList => [.many .argument]
  | .defaultValue => [.one .literal]
  | .annotatedType => [.one .extAttributes, .one .type]
  | .type => [.one .type]
  | .genericType => [.one .name, .many .type]
  | .unionType => [.many .type]
  | .attributeList => [.many .extAttribute]
  | .namedCallAttribute => [.one .name, .one .arguments]
  | .valueAttribute => [.one .attributeValue]
  | .stringValue => [.one .quoted]
  | .numberValue => [.one .number]
  | .part | .plainAttribute | .constValue | .primitiveType | .wildcardValue => []

theorem Construct.nodup_slots (construct : Construct) :
    (construct.slots.map Slot.role).Nodup := by
  cases construct <;> decide

/-- Whether pieces of the given slots, one after the other, are in order. -/
def follows : List Slot → List (Option Slot) → Bool
  | _, [] => true
  | slots, none :: rest => follows slots rest
  | slots, some given :: rest =>
    match slots.dropWhile (·.role != given.role) with
    | [] => false
    | slot :: later =>
      if slot.isMany then follows (slot :: later) rest
      else !given.isMany && follows later rest

/-- Pieces such as derivations from a symbol mean. -/
structure IsBlock (symbol : ContextFree.Symbol) (ps : Pieces) : Prop where
  token : ∀ code, symbol = .terminal code → ∃ t, ps = [.token t] ∧ t.code = code
  mute : slotOf? symbol = none → ∀ p ∈ ps, p.role? = none
  fills : ∀ slot, slotOf? symbol = some slot → Fills slot ps

/-- Pieces such as derivations from some symbols mean, one after the other. -/
inductive Blocks : List ContextFree.Symbol → Pieces → Prop where
  | nil : Blocks [] []
  | cons {symbol : ContextFree.Symbol} {symbols : List ContextFree.Symbol} {ps qs : Pieces}
      (block : IsBlock symbol ps) (others : Blocks symbols qs) :
      Blocks (symbol :: symbols) (ps ++ qs)

theorem arranged_of_follows {symbols : List ContextFree.Symbol} {ps : Pieces}
    (blocks : Blocks symbols ps) {slots : List Slot}
    (h : follows slots (symbols.map slotOf?) = true) : Arranged slots ps := by
  induction blocks generalizing slots with
  | nil => exact (List.append_nil slots) ▸ Arranged.skip slots (.nil (by simp))
  | @cons symbol symbols ps qs block _ ih =>
    rw [List.map_cons] at h
    cases hs : slotOf? symbol with
    | none =>
      rw [hs, follows] at h
      exact (ih h).mute_append (block.mute hs)
    | some given =>
      rw [hs, follows] at h
      have fills := block.fills given hs
      rw [← List.takeWhile_append_dropWhile (p := (·.role != given.role)) (l := slots)]
      refine Arranged.skip _ ?_
      split at h
      · cases h
      · rename_i slot later found
        have same : slot.role = given.role := by
          have stop := List.head_dropWhile_not (fun s : Slot => s.role != given.role) (l := slots)
            (by simp [found])
          simpa [found] using stop
        rw [found]
        split_ifs at h with several
        · refine (ih h).fills_append several ⟨same ▸ fills.role, fun single => ?_⟩
          simp [several] at single
        · simp only [Bool.and_eq_true, Bool.not_eq_true'] at h
          exact .cons ⟨same ▸ fills.role, fun _ => same ▸ fills.once h.1⟩ (ih h.2)

theorem isBlock_token (t : Token) : IsBlock (.terminal t.code) [.token t] where
  token code same := ⟨t, rfl, ContextFree.Symbol.terminal.inj same⟩
  mute none p hp := by
    obtain rfl := List.mem_singleton.mp hp
    simpa [slotOf?, Token.code, Piece.role?] using none
  fills slot hs := by
    simp only [slotOf?, Token.code, Terminal.ofCode?_code, Option.bind_some,
      Option.map_eq_some_iff] at hs
    obtain ⟨role, hr, rfl⟩ := hs
    exact ⟨fun p hp => .inr (List.mem_singleton.mp hp ▸ hr), fun _ => List.length_filter_le ..⟩

/-- One piece of the role that derivations from a rule mean. -/
theorem isBlock_singleton {left : Nat} {piece : Piece}
    (role : (slotOf? (.nonterminal left)).map Slot.role = piece.role?) :
    IsBlock (.nonterminal left) [piece] where
  token _ same := by cases same
  mute none p hp := by
    rw [none] at role
    exact List.mem_singleton.mp hp ▸ role.symm
  fills slot hs := by
    rw [hs] at role
    exact ⟨fun p hp => .inr (List.mem_singleton.mp hp ▸ role.symm),
      fun _ => List.length_filter_le ..⟩

/-- Several pieces of the role that derivations from a rule mean. -/
theorem isBlock_of_arranged {left : Nat} {ps : Pieces}
    (h : Arranged (slotOf? (.nonterminal left)).toList ps) : IsBlock (.nonterminal left) ps where
  token _ same := by cases same
  mute none := by
    rw [none] at h
    cases h with
    | nil mute => exact mute
  fills slot hs := by
    rw [hs] at h
    exact h.fills

/-! ### Constructs -/

/-- The role of the piece that a construct makes. -/
def Construct.role? : Construct → Option Role
  | .part => none
  | .inheritance => some .inheritance
  | .argumentList => some .arguments
  | .argument => some .argument
  | .defaultValue | .constValue => some .literal
  | .annotatedType | .type | .namedType | .genericType | .primitiveType | .unionType =>
    some .type
  | .attributeList => some .extAttributes
  | .plainAttribute | .callAttribute | .namedCallAttribute | .valueAttribute =>
    some .extAttribute
  | .identifierValue | .identifierListValue | .wildcardValue | .stringValue | .numberValue =>
    some .attributeValue
  | _ => some .node

theorem Pieces.role_specialMember {ps : Pieces} {special : String} {piece : Piece}
    (h : ps.specialMember special = some piece) : piece.role? = some .node := by
  obtain ⟨_, -, h⟩ := Option.bind_eq_some_iff.mp h
  exact Option.some.inj h ▸ rfl

theorem Construct.role_of_combine {construct : Construct} {ps : Pieces} {piece : Piece}
    (h : construct.combine ps = some piece) : piece.role? = construct.role? := by
  cases construct <;> simp only [combine, Option.bind_eq_bind, Option.bind_eq_some_iff,
    Option.pure_def, Option.some.injEq, reduceCtorEq] at h
  case interface | mixin | callbackInterface | namespaceDefinition | dictionary =>
    obtain ⟨_, -, h⟩ := Option.bind_eq_some_iff.mp h
    exact Option.some.inj h ▸ rfl
  case includesStatement | implementsStatement =>
    unfold Pieces.relation at h
    split at h
    · exact Option.some.inj h ▸ rfl
    · cases h
  case specialOperation =>
    obtain ⟨_, -, h⟩ := h
    exact Pieces.role_specialMember h
  case staticMember => exact Pieces.role_specialMember h
  case stringifier =>
    split_ifs at h
    · exact Option.some.inj h ▸ rfl
    · exact Pieces.role_specialMember h
  case defaultValue => split at h <;> exact Option.some.inj h ▸ rfl
  case const =>
    obtain ⟨_, -, _, -, _, -, rfl⟩ := h
    rfl
  case callbackFunction | typedef | attributeMember | dictionaryMember | argument |
      namedCallAttribute | valueAttribute =>
    obtain ⟨_, -, _, -, rfl⟩ := h
    rfl
  case constructorMember | iterable | asyncIterable | maplike | setlike | argumentList |
      primitiveType | unionType | attributeList | identifierListValue | wildcardValue =>
    exact h ▸ rfl
  all_goals
    obtain ⟨_, -, rfl⟩ := h
    rfl

/-! ### Productions -/

/-- A construct and its production agree on the pieces. -/
structure Arranges (construct : Construct) (p : ContextFree.Production) : Prop where
  /-- What the construct makes is what derivations from the left side mean. -/
  role : construct ≠ .part → (slotOf? (.nonterminal p.left)).map Slot.role = construct.role?
  /-- A part gives pieces for its left side on. -/
  part : construct = .part →
    follows (slotOf? (.nonterminal p.left)).toList (p.right.map slotOf?) = true
  /-- The right side has its pieces in the order that the construct asks for. -/
  regular : construct ≠ .part → construct.isVerbatim = false → construct.isAttribute = false →
    follows construct.slots (p.right.map slotOf?) = true
  /-- So does that of an extended attribute behind its own name. -/
  owned : construct.isAttribute = true →
    p.right.head? = some (.terminal Terminal.identifier.code) ∧
      follows construct.slots (p.right.tail.map slotOf?) = true

instance (construct : Construct) (p : ContextFree.Production) :
    Decidable (Arranges construct p) :=
  decidable_of_iff (_ ∧ _ ∧ _ ∧ _)
    ⟨fun h => ⟨h.1, h.2.1, h.2.2.1, h.2.2.2⟩, fun h => ⟨h.role, h.part, h.regular, h.owned⟩⟩

theorem arranges_productions : ∀ p ∈ productions, Arranges p.1 p.2 := by
  decide +kernel

end WebSpec.Idl
