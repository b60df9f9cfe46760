import WebSpec.Analysis.Specification
import WebSpec.Proofs.Analysis.Contribution
import WebSpec.Proofs.Analysis.Record
import WebSpec.Proofs.Outcome

/-!
# The history of an analysis

Definitions enter their findings one after the other, and a definition whose name is taken enters
none. `history` is everything that is entered, said without a ledger: a name is taken if an earlier
definition takes it. `ledgerOf_eq_ok_iff` shows that the ledger of definitions is that of their
history.
-/

namespace WebSpec.Analysis

open Idl (Node)

variable {wellKnown : List String}

/-! ### Taken names -/

/-- One of the definitions takes a name. -/
def IsTaken (definitions : List Node) (name : String) : Prop :=
  ∃ node ∈ definitions, TakesName node ∧ node.name = name

instance (definitions : List Node) : DecidablePred (IsTaken definitions) := fun _ =>
  inferInstanceAs (Decidable (∃ node ∈ definitions, _ ∧ _))

theorem not_isTaken_nil (name : String) : ¬ IsTaken [] name := by
  simp [IsTaken]

theorem isTaken_append_singleton {earlier : List Node} {node : Node} {name : String} :
    IsTaken (earlier ++ [node]) name ↔
      IsTaken earlier name ∨ TakesName node ∧ node.name = name := by
  simp [IsTaken, or_and_right, exists_or]

namespace Ledger

/-- The names that a definition may take are those that no earlier one takes: aliases do not
matter. -/
def Tracks (l : Ledger) (earlier : List Node) : Prop :=
  ∀ name, l.isFree name false ↔ ¬ IsTaken earlier name

theorem tracks_empty : Tracks {} [] := fun name => by
  simp [isFree, Table.contains, not_isTaken_nil]

theorem isFree_iff {l : Ledger} {name : String} :
    l.isFree name false ↔ name ∈ l.names.keys → name ∈ l.aliases := by
  simp [isFree, ← Table.contains_iff, imp_iff_not_or]

theorem isFree_alias_iff {l : Ledger} {name : String} :
    l.isFree name true ↔ name ∉ l.names.keys := by
  simp [isFree, ← Table.contains_iff]

/-- Only a definition makes a name cease to be free. -/
theorem isFree_record {l : Ledger} {e : Entry} {n : String}
    (he : ∀ name target, e ≠ .register name target false) :
    (l.record e).isFree n false ↔ l.isFree n false := by
  rw [isFree_iff, isFree_iff, (recorded l e).names, (recorded l e).aliases]
  cases e with
  | register name target isAlias =>
    obtain rfl : isAlias = true := by
      cases isAlias
      · exact absurd rfl (he name target)
      · rfl
    by_cases hf : l.isFree name true
    · have hn := isFree_alias_iff.mp hf
      simp only [hf, if_true, Table.mem_keys_insert, NameSet.mem_insert]
      constructor
      · rintro h hk
        rcases h (.inr hk) with rfl | h
        · exact absurd hk hn
        · exact h
      · rintro h (rfl | hk)
        · exact .inl rfl
        · exact .inr (h hk)
    · simp [hf]
  | _ => rfl

/-- The name of a definition ceases to be free. -/
theorem isFree_register {l : Ledger} {name n : String} {target : NameTarget}
    (hf : l.isFree name false) :
    (l.record (.register name target false)).isFree n false ↔ n ≠ name ∧ l.isFree n false := by
  rw [isFree_iff, isFree_iff, (recorded l _).names, (recorded l _).aliases]
  simp only [hf, if_true, Table.mem_keys_insert, NameSet.mem_erase, Bool.false_eq_true, if_false]
  constructor
  · intro h
    exact ⟨fun hn => (h (.inl hn)).1 hn, fun hk => (h (.inr hk)).2⟩
  · rintro ⟨hn, h⟩ (rfl | hk)
    · exact absurd rfl hn
    · exact ⟨hn, h hk⟩

theorem isFree_foldl {l : Ledger} {es : List Entry} {n : String}
    (hes : ∀ name target, .register name target false ∉ es) :
    (es.foldl record l).isFree n false ↔ l.isFree n false := by
  induction es generalizing l with
  | nil => rfl
  | cons e es ih =>
    rw [List.foldl_cons, ih fun name target h => hes name target (List.mem_cons_of_mem e h)]
    exact isFree_record fun name target h => hes name target (h ▸ List.mem_cons_self)

end Ledger

/-! ### What is entered -/

/-- What a definition enters, after others. -/
def effect (wellKnown : List String) (earlier : List Node) (node : Node) : List Entry :=
  if TakesName node then
    if IsTaken earlier node.name then [.remark (.diagnostic (duplicateName node.name))]
    else .register node.name (.node node) false :: (definitionPlan wellKnown node).entries
  else (definitionPlan wellKnown node).entries

/-- What definitions enter, after others. -/
def history (wellKnown : List String) (earlier : List Node) : List Node → List Entry
  | [] => []
  | node :: rest =>
    effect wellKnown earlier node ++ history wellKnown (earlier ++ [node]) rest

theorem effect_congr {earlier earlier' : List Node} {node : Node}
    (same : IsTaken earlier node.name ↔ IsTaken earlier' node.name) :
    effect wellKnown earlier node = effect wellKnown earlier' node := by
  unfold effect
  simp only [same]

/-- What definitions enter depends on the names that those before them take. -/
theorem history_congr {earlier earlier' : List Node}
    (same : ∀ name, IsTaken earlier name ↔ IsTaken earlier' name) (definitions : List Node) :
    history wellKnown earlier definitions = history wellKnown earlier' definitions := by
  induction definitions generalizing earlier earlier' with
  | nil => rfl
  | cons node rest ih =>
    rw [history, history, effect_congr (same node.name), ih]
    intro name
    rw [isTaken_append_singleton, isTaken_append_singleton, same]

theorem history_append (earlier definitions more : List Node) :
    history wellKnown earlier (definitions ++ more) =
      history wellKnown earlier definitions ++
        history wellKnown (earlier ++ definitions) more := by
  induction definitions generalizing earlier with
  | nil => simp [history]
  | cons node rest ih =>
    rw [List.cons_append, history, history, ih, List.append_assoc, List.append_assoc,
      List.singleton_append]

theorem not_register_mem_entries {node : Node} {name : String} {target : NameTarget} :
    .register name target false ∉ (definitionPlan wellKnown node).entries := fun h =>
  Bool.noConfusion (isAlias_of_register_mem h)

namespace Ledger

theorem recordDefinition_eq {l : Ledger} {earlier : List Node} (h : l.Tracks earlier)
    (node : Node) :
    l.recordDefinition wellKnown node = l.recordAll (effect wellKnown earlier node) := by
  unfold recordDefinition effect
  simp only [definitionPlan_name?]
  by_cases takes : TakesName node
  · simp only [takes, if_true]
    by_cases taken : IsTaken earlier node.name
    · have hf : ¬ l.isFree node.name false := fun hf => (h node.name).mp hf taken
      simp [register, hf, taken, recordAll, record, diagnose]
    · have hf : l.isFree node.name false := (h node.name).mpr taken
      rw [if_neg taken, recordAll_cons (by simp)]
      simp [register, hf, record]
  · simp [takes]

theorem Tracks.foldl_effect {l : Ledger} {earlier : List Node} (h : l.Tracks earlier)
    (node : Node) :
    ((effect wellKnown earlier node).foldl record l).Tracks (earlier ++ [node]) := by
  intro name
  rw [isTaken_append_singleton, not_or, ← h name]
  unfold effect
  split_ifs with takes taken
  · rw [isFree_foldl (by simp)]
    have same (hf : l.isFree name false) : ¬ (TakesName node ∧ node.name = name) := by
      rintro ⟨-, rfl⟩
      exact (h node.name).mp hf taken
    exact ⟨fun hf => ⟨hf, same hf⟩, And.left⟩
  · rw [List.foldl_cons, isFree_foldl fun _ _ => not_register_mem_entries,
      isFree_register ((h node.name).mpr taken)]
    simp only [takes, true_and]
    rw [and_comm, ne_comm]
  · rw [isFree_foldl fun _ _ => not_register_mem_entries]
    simp [takes]

/-- Definitions enter their history. -/
theorem recordDefinitions_eq_ok_iff {l l' : Ledger} {earlier definitions : List Node}
    (h : l.Tracks earlier) :
    l.recordDefinitions wellKnown definitions = .ok l' ↔
      .abandon ∉ history wellKnown earlier definitions ∧
        (history wellKnown earlier definitions).foldl record l = l' := by
  induction definitions generalizing l earlier with
  | nil => simp [recordDefinitions, history]
  | cons node rest ih =>
    rw [history, List.mem_append, not_or, List.foldl_append, recordDefinitions,
      recordDefinition_eq h]
    rcases hr : l.recordAll (effect wellKnown earlier node) with ⟨l₁, _ | _⟩
    case true =>
      obtain ⟨hc, rfl⟩ := recordAll_eq_iff.mp hr
      simp only [ih (h.foldl_effect node), hc, not_false_eq_true, true_and]
    case false =>
      have hc : ¬ .abandon ∉ effect wellKnown earlier node := fun hc => by
        have complete := recordAll_eq_iff (l := l).mpr ⟨hc, rfl⟩
        rw [hr] at complete
        cases complete
      simp [hc]

end Ledger

/-- The ledger of definitions is that of their history. -/
theorem ledgerOf_eq_ok_iff {settings : Settings} {definitions : List Node} {l : Ledger} :
    ledgerOf settings definitions = .ok l ↔
      .abandon ∉ history settings.wellKnown [] definitions ∧
        Ledger.ofEntries (history settings.wellKnown [] definitions) = l :=
  Ledger.recordDefinitions_eq_ok_iff Ledger.tracks_empty

/-- The report on definitions is that on their history. -/
theorem analyzeDefinitions_eq_ok_iff {settings : Settings} {definitions : List Node}
    {hasObsoleteIdl : Bool} {report : Report} :
    analyzeDefinitions settings definitions hasObsoleteIdl = .ok report ↔
      .abandon ∉ history settings.wellKnown [] definitions ∧
        (Ledger.ofEntries (history settings.wellKnown [] definitions)).report
          settings.defaultGlobal hasObsoleteIdl = report := by
  rw [analyzeDefinitions, bind_eq_ok]
  constructor
  · rintro ⟨l, h, hr⟩
    obtain ⟨complete, rfl⟩ := ledgerOf_eq_ok_iff.mp h
    exact ⟨complete, Except.ok.inj hr⟩
  · rintro ⟨complete, hr⟩
    exact ⟨_, ledgerOf_eq_ok_iff.mpr ⟨complete, rfl⟩, congrArg Except.ok hr⟩

/-! ### Definitions that count -/

/-- A definition counts, unless it takes a name that an earlier one takes. -/
def Counts (definitions : List Node) (node : Node) : Prop :=
  ∃ before after, definitions = before ++ node :: after ∧
    (TakesName node → ¬ IsTaken before node.name)

theorem Counts.mem {definitions : List Node} {node : Node} (h : Counts definitions node) :
    node ∈ definitions := by
  obtain ⟨before, after, rfl, -⟩ := h
  simp

theorem mem_history {earlier definitions : List Node} {e : Entry} :
    e ∈ history wellKnown earlier definitions ↔
      ∃ before node after, definitions = before ++ node :: after ∧
        e ∈ effect wellKnown (earlier ++ before) node := by
  induction definitions generalizing earlier with
  | nil => simp [history]
  | cons first rest ih =>
    rw [history, List.mem_append, ih]
    constructor
    · rintro (h | ⟨before, node, after, rfl, h⟩)
      · exact ⟨[], first, rest, rfl, by rwa [List.append_nil]⟩
      · exact ⟨first :: before, node, after, rfl, by rwa [List.append_assoc] at h⟩
    · rintro ⟨before, node, after, hd, h⟩
      cases before with
      | nil =>
        obtain ⟨rfl, rfl⟩ := List.cons.inj hd
        exact .inl (by rwa [List.append_nil] at h)
      | cons _ before =>
        obtain ⟨rfl, rfl⟩ := List.cons.inj hd
        exact .inr ⟨before, node, after, rfl, by rwa [List.append_assoc]⟩

/-- Apart from the names of definitions and what is said about duplicates, what is entered are the
findings of the definitions that count. -/
theorem mem_history_iff {definitions : List Node} {e : Entry}
    (noName : ∀ name target, e ≠ .register name target false)
    (noDuplicate : ∀ name, e ≠ .remark (.diagnostic (duplicateName name))) :
    e ∈ history wellKnown [] definitions ↔
      ∃ node, Counts definitions node ∧ e ∈ (definitionPlan wellKnown node).entries := by
  rw [mem_history]
  constructor
  · rintro ⟨before, node, after, rfl, h⟩
    rw [List.nil_append] at h
    unfold effect at h
    split_ifs at h with takes taken
    · exact absurd (List.mem_singleton.mp h) (noDuplicate _)
    · refine ⟨node, ⟨before, after, rfl, fun _ => taken⟩, ?_⟩
      exact (List.mem_cons.mp h).resolve_left (noName _ _)
    · exact ⟨node, ⟨before, after, rfl, fun h => absurd h takes⟩, h⟩
  · rintro ⟨node, ⟨before, after, rfl, free⟩, h⟩
    refine ⟨before, node, after, rfl, ?_⟩
    rw [List.nil_append]
    unfold effect
    split_ifs with takes taken
    · exact absurd taken (free takes)
    · exact List.mem_cons_of_mem _ h
    · exact h

/-- The definitions that are entered are those that count and take their name. -/
theorem register_mem_history {definitions : List Node} {name : String} {target : NameTarget} :
    .register name target false ∈ history wellKnown [] definitions ↔
      ∃ node, Counts definitions node ∧ TakesName node ∧ name = node.name ∧
        target = .node node := by
  rw [mem_history]
  constructor
  · rintro ⟨before, node, after, rfl, h⟩
    rw [List.nil_append] at h
    unfold effect at h
    split_ifs at h with takes taken
    · simp at h
    · rcases List.mem_cons.mp h with h | h
      · obtain ⟨rfl, rfl⟩ : name = node.name ∧ target = .node node := by simpa using h
        exact ⟨node, ⟨before, after, rfl, fun _ => taken⟩, takes, rfl, rfl⟩
      · exact absurd h not_register_mem_entries
    · exact absurd h not_register_mem_entries
  · rintro ⟨node, ⟨before, after, rfl, free⟩, takes, rfl, rfl⟩
    refine ⟨before, node, after, rfl, ?_⟩
    rw [List.nil_append, effect, if_pos takes, if_neg (free takes)]
    exact List.mem_cons_self

end WebSpec.Analysis
