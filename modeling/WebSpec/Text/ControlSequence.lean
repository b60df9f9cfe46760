import WebSpec.Text.Replace

/-!
# Control sequences

A terminal takes some texts as orders, to change the colour for instance. Such a control sequence
starts with an escape character and an opening bracket. Parameters follow, then intermediate
characters, both of which may be missing, and one final character ends it. The three classes are
disjoint ranges of printable characters, so a control sequence ends at the first character that may
end it.

What is printed for people must not pass such orders on from the input: `withoutControlSequences`
takes them out. An escape character that starts none stays.
-/

namespace WebSpec.Text

/-- Whether a character may stand among the parameters of a control sequence: from `0` to `?`. -/
def isParameter (c : Char) : Bool :=
  0x30 ≤ c.toNat && c.toNat ≤ 0x3F

/-- Whether a character may stand between the parameters and the end: from the space to `/`. -/
def isIntermediate (c : Char) : Bool :=
  0x20 ≤ c.toNat && c.toNat ≤ 0x2F

/-- Whether a character may end a control sequence: from `@` to the tilde. -/
def isFinal (c : Char) : Bool :=
  0x40 ≤ c.toNat && c.toNat ≤ 0x7E

/-- The matcher of a control sequence, which removes it. -/
def Matcher.controlSequence : Matcher
  | '\x1b' :: '[' :: rest =>
    let parameters := rest.takeWhile isParameter
    let rest := rest.drop parameters.length
    let intermediates := rest.takeWhile isIntermediate
    match rest.drop intermediates.length with
    | c :: _ =>
      if isFinal c then some ⟨[], parameters.length + intermediates.length + 3⟩ else none
    | [] => none
  | _ => none

/-- A text without control sequences. -/
def withoutControlSequences (text : String) : String :=
  String.ofList (replaceMatches .controlSequence text.toList)

end WebSpec.Text
