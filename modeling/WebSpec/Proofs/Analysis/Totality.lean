import WebSpec.Proofs.Analysis.Completion
import WebSpec.Proofs.Idl.RoundTrip
import WebSpec.Proofs.Idl.Totality

/-!
# From any text to its report

Nothing on the way from a text to its report asks for something that may not be there. What a
construct needs of the pieces of its children is supplied by every derivation of the grammar, so
each tree of a text stands for definitions, and what an attribute has to name is named in every
text, so their analysis completes. A text without a report is one that the grammar refuses
(`refused_or_reported`).
-/

namespace WebSpec.Analysis

open ContextFree (Derives ParseTree Symbol)
open Idl (Node Token SyntaxError grammar meaning definitionsOf parse parseTree)

/-- The tree of a text stands for definitions, which are those that the text is parsed to. -/
theorem exists_definitionsOf {text : String} {definitions : List Node}
    (h : parse text = .ok definitions) :
    ∃ tree, parseTree text = .ok tree ∧ definitionsOf tree = some definitions := by
  obtain ⟨tree, read, h⟩ := bind_eq_ok.mp h
  obtain ⟨ps, means, -⟩ := Idl.exists_meaning (Idl.derives_of_parseTree read)
  have found : definitionsOf tree = some ps.nodes := by rw [definitionsOf, means, Option.map_some]
  obtain rfl := Except.ok.inj h
  exact ⟨tree, read, by rw [found, Option.getD_some]⟩

/-- Every derivation of the grammar has a meaning, with the pieces that its symbol promises. So a
text is refused, or it has a tree that stands for its definitions; all attributes of these that have
a value stand for a name, and there is a report on them with any settings. -/
theorem refused_or_reported :
    (∀ {symbol : Symbol} {tree : ParseTree Token}, Derives grammar Token.code symbol tree →
      ∃ ps, meaning tree = some ps ∧ ps.Serves [symbol]) ∧
    ∀ text : String, (∃ e : SyntaxError, parse text = .error e) ∨
      ∃ tree definitions, parseTree text = .ok tree ∧ definitionsOf tree = some definitions ∧
        parse text = .ok definitions ∧ (∀ node ∈ definitions, node.Named) ∧
        ∀ settings hasObsoleteIdl,
          ∃ report, analyzeDefinitions settings definitions hasObsoleteIdl = .ok report := by
  refine ⟨Idl.exists_meaning, fun text => ?_⟩
  cases h : parse text with
  | error e => exact .inl ⟨e, rfl⟩
  | ok definitions =>
    obtain ⟨tree, read, stands⟩ := exists_definitionsOf h
    have named : ∀ node ∈ definitions, node.Named := fun _ => Idl.named_of_parse h
    refine .inr ⟨tree, definitions, read, stands, rfl, named, fun settings hasObsoleteIdl => ?_⟩
    exact exists_report_iff.mpr fun node counts => not_lacksName (named node counts.mem)

/-- A statement that relates two names. -/
theorem refused_or_reported_includes :
    let text := "_Window includes _Lens ;"
    let statement : Node := { kind := .known .includes, target := "Window", includes := "Lens" }
    ∃ tree definitions, parseTree text = .ok tree ∧
      Derives grammar Token.code (.nonterminal Idl.Rule.start.code) tree ∧
      (∃ ps, meaning tree = some ps ∧ ps.Serves [.nonterminal Idl.Rule.start.code]) ∧
      definitionsOf tree = some definitions ∧ definitions.map Node.bare = [statement.bare] ∧
      ∃ report, analyzeDefinitions {} definitions = .ok report := by
  intro text statement
  have formed : ∀ d ∈ [statement], d.IsDefinition :=
    List.forall_mem_singleton.mpr ⟨.includes (by decide) (by decide), by simp [statement]⟩
  obtain ⟨definitions, read, same⟩ := Idl.parse_of_spells (Idl.spells_definitions formed)
  rw [show " ".intercalate ([statement].flatMap Node.words) = text by decide +kernel] at read
  obtain ⟨e, refused⟩ | ⟨tree, found, parsed, stands, whole, -, reported⟩ :=
    refused_or_reported.2 text
  · rw [read] at refused
    cases refused
  · obtain rfl := Except.ok.inj (read.symm.trans whole)
    have derives := Idl.derives_of_parseTree parsed
    exact ⟨tree, definitions, parsed, derives, refused_or_reported.1 derives, stands, same,
      reported {} false⟩

end WebSpec.Analysis
