import WebSpec.Idl.Grammar
import WebSpec.Proofs.ContextFree.Evaluation
import WebSpec.Proofs.ContextFree.FrameCheck
import WebSpec.Proofs.Idl.Lexeme

/-!
# The parse table is complete

The states that the table is made of pass the checks that make a parser find every derivation. Where
an extended attribute may start no keyword is accepted, so that its name may be any name, and where
a type may start only those of primitive types are. After a definition everything is as it is at the
start of a text, and the type of an attribute is read as it is between `<` and `>`. All this is one
computation over all states, so that they are made only once, and by folds.
-/

namespace WebSpec.Idl

open ContextFree (Grammar Nesting Repetition TerminalSet unionOf)

/-- The rules that may begin with a name as it is written, each with the keywords that may come
there. -/
def nameRules : List (Rule × List Terminal) :=
  [(.extendedAttribute, []),
   (.annotatedType, [.kwShort, .kwLong, .kwFloat, .kwDouble, .kwUnsigned, .kwUnrestricted])]

/-- The set of the other keywords. -/
def keywordsBut (known : List Terminal) : TerminalSet :=
  unionOf (fun t : Terminal =>
    if t.isKeyword && !known.contains t then TerminalSet.single t.code else 0) Terminal.all

/-- The terminals that a definition starts with, and the end of the input. -/
def definitionStarts : TerminalSet :=
  [Terminal.bracketOpen, .kwPartial, .kwInterface, .kwCallback, .kwNamespace, .kwDictionary,
    .kwEnum, .kwTypedef, .identifier, .endOfInput] |> unionOf fun t => TerminalSet.single t.code

/-- How definitions follow each other. -/
def definitionList : Repetition :=
  { start := Rule.start.code
    list := Rule.definitions.code
    element := Rule.definition.code
    endMark := Terminal.endOfInput.code
    empty := 2
    filled := 1
    one := 3
    more := 4
    again := 2
    first := 3
    further := 26
    done := 1
    starts := definitionStarts }

/-- The terminals in front of the type of an attribute. -/
def attributePath : List Terminal :=
  [.kwInterface, .identifier, .braceOpen, .kwAttribute]

/-- The type of an attribute, and a type that is a parameter of it. -/
def attributeNesting : Nesting :=
  { nonterminal := Rule.annotatedType.code
    path := attributePath.map Terminal.code
    opener := Terminal.kwAttribute.code
    opening := [Terminal.identifier, .lessThan].map Terminal.code
    behind := [Terminal.identifier, .semicolon].map Terminal.code }

/-- The terminals up to a type of two words. -/
def twoWordPath : List Terminal :=
  attributePath ++ [.kwUnsigned, .kwLong]

set_option maxRecDepth 100000 in
theorem checks_states :
    (grammar.isComplete grammar.states grammar.startTable &&
      (nameRules.all fun r =>
        grammar.secludes grammar.states r.1.code (keywordsBut r.2)) &&
      grammar.repeats grammar.states definitionList &&
      grammar.nests grammar.states attributeNesting &&
      ContextFree.refuses grammar.states (twoWordPath.map Terminal.code)
        Terminal.bracketOpen.code) = true := by
  rw [← grammar.foldStates_eq]
  decide +kernel

/-- The table finds every derivation. -/
theorem complete_states : grammar.Complete grammar.states grammar.startTable := by
  have checks := checks_states
  simp only [Bool.and_eq_true] at checks
  exact Grammar.complete_of_isComplete checks.1.1.1.1

/-- No other keyword is accepted where a rule may begin with a name as it is written. -/
theorem secludes_keywords {r : Rule} {known : List Terminal} (h : (r, known) ∈ nameRules) :
    grammar.secludes grammar.states r.code (keywordsBut known) = true := by
  have checks := checks_states
  simp only [Bool.and_eq_true] at checks
  exact List.all_eq_true.mp checks.1.1.1.2 (r, known) h

theorem madeOf_states : table.MadeOf grammar grammar.states := by
  rw [table]
  exact grammar.madeOf_states

theorem Terminal.code_lt_width (t : Terminal) : t.code < grammar.startTable.width := by
  have all : ∀ terminal ∈ Terminal.all, terminal.code < Terminal.all.length := by decide
  exact all t t.mem_all

theorem endMark_lt_width : table.endMark < grammar.startTable.width := by
  rw [madeOf_states.endMark]
  exact Terminal.endOfInput.code_lt_width

/-- The table takes no notice of the definitions before one. -/
theorem repeats_definitions : table.Repeats definitionList := by
  have checks := checks_states
  simp only [Bool.and_eq_true] at checks
  exact madeOf_states.repeats checks.1.1.2

/-- The type of an attribute is read as a type that is a parameter of it. -/
theorem nests_attributeType : grammar.nests grammar.states attributeNesting = true := by
  have checks := checks_states
  simp only [Bool.and_eq_true] at checks
  exact checks.1.2

/-- No brackets follow a type of two words. -/
theorem refuses_brackets : ContextFree.refuses grammar.states (twoWordPath.map Terminal.code)
    Terminal.bracketOpen.code = true := by
  have checks := checks_states
  simp only [Bool.and_eq_true] at checks
  exact checks.2

theorem has_keywordsBut {t : Terminal} {known : List Terminal} (h : t.isKeyword = true)
    (other : t ∉ known) : (keywordsBut known).has t.code = true := by
  refine ContextFree.testBit_unionOf.mpr ⟨t, t.mem_all, ?_⟩
  rw [if_pos (by simp [h, other])]
  exact TerminalSet.has_single.mpr rfl

end WebSpec.Idl
