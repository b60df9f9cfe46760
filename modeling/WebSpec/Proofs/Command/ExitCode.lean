import WebSpec.Command.Run
import WebSpec.Proofs.Analysis.Completion
import WebSpec.Proofs.Analysis.Dependencies
import WebSpec.Proofs.Check.Consistency

/-!
# How commands on a file end

Both commands that analyze a file end with code 1 if the text cannot be parsed, and only then: the
report on any other text has no errors.
-/

namespace WebSpec.Command

open Analysis (AnalysisError analyze analyzeDefinitions)
open Idl (SyntaxError)

/-- A text is refused by the parser, so that there is no report on it. -/
def IsInvalid (text : String) : Prop :=
  ∃ e : SyntaxError, analyze {} text = .error (.invalidText e)

theorem definitionsOfText_eq_error {settings : Analysis.Settings} {text : String}
    {e : AnalysisError} (h : Analysis.definitionsOfText settings text = .error e) :
    ∃ e', e = .invalidText e' := by
  unfold Analysis.definitionsOfText at h
  cases hp : Idl.parse (settings.sourceOf text) with
  | error e' =>
    rw [hp] at h
    exact ⟨e', (Except.error.inj h).symm⟩
  | ok definitions =>
    rw [hp] at h
    cases h

theorem analyzeLogged_of_error {level : Level} {text : String} {e : AnalysisError}
    (h : Analysis.definitionsOfText {} text = .error e) :
    ∃ outcome, analyzeLogged level text = .error outcome ∧ outcome.exitCode = 1 := by
  simp only [analyzeLogged, h]
  exact ⟨_, rfl, rfl⟩

theorem analyzeLogged_of_ok {level : Level} {text : String} {definitions : List Idl.Node}
    {l : Analysis.Ledger} (h : Analysis.definitionsOfText {} text = .ok definitions)
    (hl : Analysis.ledgerOf {} definitions = .ok l) :
    let report := l.report "Window" (Idl.Legacy.isObsolete text)
    analyze {} text = .ok report ∧ analyzeLogged level text =
      .ok (report, obsoleteRecords text ++ analysisRecords definitions l report) := by
  constructor
  · exact bind_eq_ok.mpr ⟨definitions, h, bind_eq_ok.mpr ⟨l, hl, rfl⟩⟩
  · simp only [analyzeLogged, h]
    change Except.mapError _ (Analysis.ledgerOf {} definitions >>= _) = _
    rw [hl]
    rfl

/-- A text is refused, or there is a report on it. -/
theorem analyzeLogged_cases (level : Level) (text : String) :
    (IsInvalid text ∧ ∃ outcome, analyzeLogged level text = .error outcome ∧
      outcome.exitCode = 1) ∨
    ∃ report records, analyze {} text = .ok report ∧
      analyzeLogged level text = .ok (report, records) := by
  cases hd : Analysis.definitionsOfText {} text with
  | error e =>
    obtain ⟨e, rfl⟩ := definitionsOfText_eq_error hd
    refine .inl ⟨⟨e, ?_⟩, analyzeLogged_of_error hd⟩
    rw [analyze, hd]
    rfl
  | ok definitions =>
    obtain ⟨l, hl⟩ := Analysis.exists_ledgerOf_of_definitionsOfText hd
    exact .inr ⟨_, _, analyzeLogged_of_ok hd hl⟩

theorem not_isInvalid {text : String} {report : Analysis.Report}
    (h : analyze {} text = .ok report) : ¬ IsInvalid text := by
  rintro ⟨e, he⟩
  rw [h] at he
  cases he

/-- The report on a text has no errors. -/
theorem countOf_error_eq_zero {text : String} {report : Analysis.Report}
    (h : analyze {} text = .ok report) : countOf .error (Check.validate report) = 0 := by
  obtain ⟨definitions, -, h⟩ := bind_eq_ok.mp h
  have consistent := Check.consistent_of_analyzeDefinitions h
  rw [countOf, List.countP_eq_zero]
  intro d hd
  simpa using consistent.no_error d hd

theorem exitCode_runAnalyze (level : Level) (text : String) (isCompact : Bool) :
    (runAnalyze level text isCompact).exitCode = 1 ↔ IsInvalid text := by
  unfold runAnalyze
  rcases analyzeLogged_cases level text with ⟨invalid, outcome, h, code⟩ | ⟨report, records, ok, h⟩
  · simp only [h, code, invalid]
  · simp only [h, not_isInvalid ok, Nat.zero_ne_one]

theorem exitCode_runValidate (level : Level) (fileName text : String) :
    (runValidate level fileName text).exitCode = 1 ↔ IsInvalid text := by
  unfold runValidate
  rcases analyzeLogged_cases level text with ⟨invalid, outcome, h, code⟩ | ⟨report, records, ok, h⟩
  · simp only [h, code, invalid]
  · simp only [h, not_isInvalid ok, countOf_error_eq_zero ok, if_true, Nat.zero_ne_one]

/-- Every report on definitions is consistent. So checking a file finds no errors: the command ends
with code 1 exactly if the text cannot be parsed, as the command that prints the report does. -/
theorem consistent_and_exitCode :
    (∀ (settings : Analysis.Settings) (definitions : List Idl.Node) (hasObsoleteIdl : Bool)
        (report : Analysis.Report),
      analyzeDefinitions settings definitions hasObsoleteIdl = .ok report →
        Check.Consistent definitions report) ∧
    ∀ (level : Level) (path content : String) (isCompact : Bool),
      let text := String.ofList (Text.unifyNewlines content.toList)
      ((Request.run ⟨level, .validate path⟩ (some content)).exitCode = 1 ↔ IsInvalid text) ∧
      ((Request.run ⟨level, .analyze path isCompact⟩ (some content)).exitCode = 1 ↔
        IsInvalid text) := by
  constructor
  · intro settings definitions hasObsoleteIdl report h
    exact Check.consistent_of_analyzeDefinitions h
  · intro level path content isCompact
    exact ⟨exitCode_runValidate level (fileNameOf path) _, exitCode_runAnalyze level _ isCompact⟩

theorem consistent_and_exitCode_circle :
    ∃ report, analyzeDefinitions {} Analysis.circleDefinitions = .ok report ∧
      Check.Consistent Analysis.circleDefinitions report :=
  ⟨_, rfl, consistent_and_exitCode.1 {} Analysis.circleDefinitions false _ rfl⟩

end WebSpec.Command
