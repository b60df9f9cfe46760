import WebSpec.Proofs.ContextFree.Beside
import WebSpec.Proofs.Idl.Attribute
import WebSpec.Proofs.Idl.Step
import WebSpec.Proofs.Idl.TableCheck

/-!
# Between definitions

Where whole definitions have been read, nothing but their list matters for what is read next
(`parseFrom_of_between`).
-/

namespace WebSpec.Idl

open ContextFree (ParseTree Stack)

variable {source : List Char} {stack : Stack Token} {last offset : Nat} {cs : List Char}
  {elements : List (ParseTree Token)}

theorem code_ne_endMark {t : Terminal} (h : t ≠ .endOfInput) : t.code ≠ definitionList.endMark :=
  fun same => h (Terminal.code_inj same)

theorem between_base (elements : List (ParseTree Token)) :
    table.Between definitionList elements (definitionList.base elements) :=
  repeats_definitions.between_base complete_states madeOf_states elements

/-- Where whole definitions have been read, nothing but their list matters. -/
theorem parseFrom_of_between (between : table.Between definitionList elements stack) :
    parseFrom table source stack last offset cs =
      parseFrom table source (definitionList.base elements) last offset cs := by
  have base := between_base elements
  refine parseFrom_congr (between.accepted.trans base.accepted.symm)
    (between.finish.trans base.finish.symm) fun terminal accepts ht token => ?_
  rw [base.accepted] at accepts
  exact between.push _ accepts (code_ne_endMark ht) token

end WebSpec.Idl
