import Mathlib.Data.List.Infix
import WebSpec.Proofs.Idl.Lexeme

/-!
# Whitespace and comments

`IsGap` says which texts are whitespace and comments. They are found to be layout, whatever follows
(`layoutLength_append`), and what is found to be layout is one of them: as it is where something
else follows (`isGap_take_layoutLength`), and with the end of its last line where nothing does
(`isGap_of_drop_layoutLength`, `layoutLength_of_isGap_newline`).
-/

namespace WebSpec.Idl

/-- Blanks and comments. -/
inductive IsGap : List Char → Prop where
  | nil : IsGap []
  | blank {c : Char} {rest : List Char} : isLayoutChar c = true → IsGap rest → IsGap (c :: rest)
  | line {comment rest : List Char} :
    '\n' ∉ comment → IsGap rest → IsGap ('/' :: '/' :: (comment ++ '\n' :: rest))
  | block {comment rest : List Char} :
    ¬ ['*', '/'] <:+: comment → IsGap rest →
      IsGap ('/' :: '*' :: (comment ++ '*' :: '/' :: rest))

/-- What blanks and comments start with ends a name. -/
theorem IsGap.delimits {gap : List Char} (h : IsGap gap) : Delimits gap := by
  cases h with
  | nil => exact delimits_nil
  | blank blank _ =>
    simp only [isLayoutChar, Bool.or_eq_true, decide_eq_true_eq] at blank
    simp only [Delimits, delimiters, List.head?_cons, Option.mem_some, forall_eq', List.mem_cons]
    tauto
  | line | block => simp [Delimits, delimiters]

/-! ### Layout is found -/

theorem layoutLength?_line {comment : List Char} (h : '\n' ∉ comment) (rest : List Char) :
    layoutLength? .line (comment ++ '\n' :: rest) =
      (layoutLength? .between rest).map (· + (comment.length + 1)) := by
  induction comment with
  | nil => simp [layoutLength?]
  | cons c comment ih =>
    rw [List.mem_cons, not_or] at h
    rw [List.cons_append, layoutLength?, if_neg (Ne.symm h.1), ih h.2, Option.map_map]
    congr 1

theorem layoutLength?_block {comment : List Char} (h : ¬ ['*', '/'] <:+: comment)
    (rest : List Char) :
    layoutLength? .block (comment ++ '*' :: '/' :: rest) =
      (layoutLength? .between rest).map (· + (comment.length + 2)) := by
  induction comment with
  | nil => simp [layoutLength?]
  | cons c comment ih =>
    rw [List.infix_cons_iff, not_or] at h
    have step : layoutLength? .block (c :: (comment ++ '*' :: '/' :: rest)) =
        (layoutLength? .block (comment ++ '*' :: '/' :: rest)).map (· + 1) := by
      rw [layoutLength?.eq_def]
      simp only
      split_ifs with star
      · -- A slash behind the star would end the comment.
        split
        · rename_i behind same
          subst star
          cases comment with
          | nil => simp at same
          | cons next comment =>
            obtain ⟨rfl, -⟩ := List.cons.inj same
            exact absurd (by simp) h.1
        · rfl
      · rfl
    rw [List.cons_append, step, ih h.2, Option.map_map]
    congr 1

/-- Only inside of a comment that is not closed there is no answer. -/
theorem layoutLength?_isSome {mode : LayoutMode} (h : mode ≠ .block) (cs : List Char) :
    (layoutLength? mode cs).isSome := by
  fun_induction layoutLength? mode cs with
  | case2 c rest blank ih => simpa using ih h
  | case3 rest _ ih => simpa using ih (by simp)
  | case8 c rest ih => simpa using ih (by split_ifs <;> simp)
  | case9 | case10 | case11 | case12 => exact absurd rfl h
  | _ => rfl

theorem layoutLength?_between (cs : List Char) :
    layoutLength? .between cs = some (layoutLength cs) := by
  have answer : (layoutLength? .between cs).isSome := layoutLength?_isSome (by simp) cs
  obtain ⟨n, hn⟩ := Option.isSome_iff_exists.mp answer
  rw [layoutLength, hn, Option.getD_some]

/-- Blanks and comments are layout, whatever follows. -/
theorem layoutLength_append {gap : List Char} (h : IsGap gap) (rest : List Char) :
    layoutLength (gap ++ rest) = gap.length + layoutLength rest := by
  have slash : isLayoutChar '/' = false := by decide
  rw [← Option.some_inj, ← layoutLength?_between]
  induction h with
  | nil => simp [layoutLength?_between]
  | @blank c gap hc _ ih =>
    rw [List.cons_append, layoutLength?.eq_def]
    simp only [hc, if_true, ih, Option.map_some, Option.some.injEq, List.length_cons]
    omega
  | @line comment gap hc _ ih =>
    rw [List.cons_append, List.cons_append, layoutLength?.eq_def]
    simp only [slash, Bool.false_eq_true, if_false, if_true, List.append_assoc, List.cons_append,
      layoutLength?_line hc, ih, Option.map_some, Option.some.injEq, List.length_cons,
      List.length_append]
    omega
  | @block comment gap hc _ ih =>
    rw [List.cons_append, List.cons_append, layoutLength?.eq_def]
    simp only [slash, Bool.false_eq_true, if_false, List.append_assoc, List.cons_append,
      layoutLength?_block hc, ih, Option.map_some, Option.getD_some, List.length_cons,
      List.length_append]
    simp
    omega

/-! ### What is found is layout -/

/-- What ends layout, from where a reader is in it. -/
def LayoutMode.Ends : LayoutMode → List Char → Prop
  | .between, cs => IsGap cs
  | .line, cs => ∃ comment rest, '\n' ∉ comment ∧ IsGap rest ∧ cs = comment ++ '\n' :: rest
  | .block, cs => ∃ comment rest, ¬ ['*', '/'] <:+: comment ∧ IsGap rest ∧
      cs = comment ++ '*' :: '/' :: rest

/-- What layout takes from the start of a text. Where that is all, the end of the line is added. -/
def layoutPart (length : Nat) (cs : List Char) : List Char :=
  if length < cs.length then cs.take length else cs ++ ['\n']

@[simp] theorem layoutPart_succ (length : Nat) (c : Char) (cs : List Char) :
    layoutPart (length + 1) (c :: cs) = c :: layoutPart length cs := by
  simp only [layoutPart, List.length_cons, Nat.add_lt_add_iff_right, List.take_succ_cons,
    List.cons_append]
  split_ifs <;> rfl

theorem layoutPart_prefix (length : Nat) (cs : List Char) :
    layoutPart length cs <+: cs ++ ['\n'] := by
  unfold layoutPart
  split_ifs
  · exact (List.take_prefix length cs).trans (List.prefix_append cs _)
  · exact List.prefix_refl _

/-- What is found from where a reader is in layout ends it. -/
theorem ends_of_layoutLength? {mode : LayoutMode} {cs : List Char} {n : Nat}
    (h : layoutLength? mode cs = some n) : mode.Ends (layoutPart n cs) := by
  have newline : IsGap ['\n'] := .blank (by decide) .nil
  fun_induction layoutLength? mode cs generalizing n with
  | case1 =>
    obtain rfl := Option.some.inj h
    exact newline
  | case2 c rest blank ih =>
    obtain ⟨m, hm, rfl⟩ := Option.map_eq_some_iff.mp h
    rw [layoutPart_succ]
    exact .blank blank (ih hm)
  | case3 rest _ ih =>
    obtain ⟨m, hm, rfl⟩ := Option.map_eq_some_iff.mp h
    obtain ⟨comment, gap, clean, hg, same⟩ := ih hm
    rw [layoutPart_succ, layoutPart_succ, same]
    exact .line clean hg
  | case4 rest _ ih =>
    obtain rfl := Option.some.inj h
    cases hm : layoutLength? .block rest with
    | none => exact .nil
    | some m =>
      obtain ⟨comment, gap, clean, hg, same⟩ := ih hm
      rw [Option.map_some, Option.getD_some, layoutPart_succ, layoutPart_succ, same]
      exact .block clean hg
  | case5 | case6 =>
    obtain rfl := Option.some.inj h
    exact .nil
  | case7 =>
    obtain rfl := Option.some.inj h
    exact ⟨[], [], by simp, .nil, rfl⟩
  | case8 c rest ih =>
    obtain ⟨m, hm, rfl⟩ := Option.map_eq_some_iff.mp h
    have ends := ih hm
    rw [layoutPart_succ]
    split_ifs at ends with newline
    · exact ⟨[], _, by simp, ends, by rw [newline, List.nil_append]⟩
    · obtain ⟨comment, gap, clean, hg, same⟩ := ends
      exact ⟨c :: comment, gap, by simp [clean, Ne.symm newline], hg, by rw [same]; rfl⟩
  | case9 => cases h
  | case10 rest ih =>
    obtain ⟨m, hm, rfl⟩ := Option.map_eq_some_iff.mp h
    rw [layoutPart_succ, layoutPart_succ]
    exact ⟨[], _, by simp, ih hm, rfl⟩
  | case11 rest other ih =>
    obtain ⟨m, hm, rfl⟩ := Option.map_eq_some_iff.mp h
    obtain ⟨comment, gap, clean, hg, same⟩ := ih hm
    refine ⟨'*' :: comment, gap, ?_, hg, by rw [layoutPart_succ, same]; rfl⟩
    rw [List.infix_cons_iff]
    rintro (starts | inside)
    · -- The comment would have ended at its first star.
      obtain ⟨behind, rfl⟩ := (List.cons_prefix_cons.mp starts).2
      have starts := layoutPart_prefix m rest
      rw [same] at starts
      cases rest with
      | nil => simp at starts
      | cons c rest => exact other rest (by simpa using (List.cons_prefix_cons.mp starts).1.symm)
    · exact clean inside
  | case12 c rest other ih =>
    obtain ⟨m, hm, rfl⟩ := Option.map_eq_some_iff.mp h
    obtain ⟨comment, gap, clean, hg, same⟩ := ih hm
    refine ⟨c :: comment, gap, ?_, hg, by rw [layoutPart_succ, same]; rfl⟩
    simp [List.infix_cons_iff, Ne.symm other, clean]

/-- Layout before something else is blanks and comments, -/
theorem isGap_take_layoutLength {cs : List Char} (h : cs.drop (layoutLength cs) ≠ []) :
    IsGap (cs.take (layoutLength cs)) := by
  have ends := ends_of_layoutLength? (layoutLength?_between cs)
  rwa [layoutPart, if_pos (by simpa using h)] at ends

/-- and so is layout at the end of a text, where the last line may end in a comment. -/
theorem isGap_of_drop_layoutLength {cs : List Char} (h : cs.drop (layoutLength cs) = []) :
    IsGap (cs ++ ['\n']) := by
  have ends := ends_of_layoutLength? (layoutLength?_between cs)
  rwa [layoutPart, if_neg (by simpa using h)] at ends

/-! ### Layout at the end of a text -/

theorem layoutLength?_comment {comment : List Char} (h : '\n' ∉ comment) :
    layoutLength? .line comment = some comment.length := by
  induction comment with
  | nil => rfl
  | cons c comment ih =>
    rw [List.mem_cons, not_or] at h
    rw [layoutLength?, if_neg (Ne.symm h.1), ih h.2]
    rfl

/-- Where a text that ends in a line feed is cut, the last line feed is at the cut or behind it. -/
theorem cases_append_newline {gap before rest : List Char} {last : Char}
    (h : gap ++ ['\n'] = before ++ last :: rest) :
    (last = '\n' ∧ rest = [] ∧ gap = before) ∨
      ∃ rest', rest = rest' ++ ['\n'] ∧ gap = before ++ last :: rest' := by
  rcases List.eq_nil_or_concat rest with rfl | ⟨rest', c, rfl⟩
  · obtain ⟨rfl, same⟩ := List.append_inj' h rfl
    exact .inl ⟨(List.cons.inj same).1.symm, rfl, rfl⟩
  · rw [List.concat_eq_append, ← List.cons_append, ← List.append_assoc] at h
    obtain ⟨rfl, same⟩ := List.append_inj' h rfl
    obtain rfl := (List.cons.inj same).1
    exact .inr ⟨rest', List.concat_eq_append, rfl⟩

/-- At the end of a text, layout is found up to the end even where the line feed is missing that
would end a comment. -/
theorem layoutLength_of_isGap_newline {gap : List Char} (h : IsGap (gap ++ ['\n'])) :
    layoutLength gap = gap.length := by
  have slash : isLayoutChar '/' = false := by decide
  rw [← Option.some_inj, ← layoutLength?_between]
  generalize hcs : gap ++ ['\n'] = cs at h
  induction h generalizing gap with
  | nil => simp at hcs
  | @blank c rest hc _ ih =>
    have same : gap ++ ['\n'] = [] ++ c :: rest := hcs
    rcases cases_append_newline same with ⟨-, -, rfl⟩ | ⟨rest', rfl, rfl⟩
    · rfl
    · rw [List.nil_append, layoutLength?.eq_def]
      simp only [hc, if_true, ih rfl, Option.map_some, List.length_cons]
  | @line comment rest hc _ ih =>
    have same : gap ++ ['\n'] = ('/' :: '/' :: comment) ++ '\n' :: rest := hcs
    rcases cases_append_newline same with ⟨-, -, rfl⟩ | ⟨rest', rfl, rfl⟩
    · simp [layoutLength?, slash, layoutLength?_comment hc]
    · rw [List.cons_append, List.cons_append, layoutLength?.eq_def]
      simp [slash, layoutLength?_line hc, ih rfl]
      omega
  | @block comment rest hc _ ih =>
    have same : gap ++ ['\n'] = ('/' :: '*' :: (comment ++ ['*'])) ++ '/' :: rest := by simp [hcs]
    rcases cases_append_newline same with ⟨slash, -⟩ | ⟨rest', rfl, rfl⟩
    · cases slash
    · simp [layoutLength?, slash, layoutLength?_block hc, ih rfl]
      omega

end WebSpec.Idl
