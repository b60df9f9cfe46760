import WebSpec.Text.Place
import WebSpec.Text.Quoted
import WebSpec.Idl.Token
import WebSpec.Idl.Grammar

/-!
# Parsing interface definitions

From a text to its parse tree. The parser reads layout and a token in turn. What the token is
depends on the terminals that the state of the parser accepts; the token then goes onto the parser's
stack.

A text is refused at a token that cannot come next, at a character that starts no token at all, or
at its last token if the text ends too early. Where no accepted terminal matches, it is the token
that the text would have in any state that is blamed, if there is one.
-/

namespace WebSpec.Idl

open ContextFree (Stack ParseTree)

/-- Why a text is refused. -/
inductive SyntaxFault where
  | unexpectedToken (terminal : Terminal) (text : String)
  | unexpectedCharacter (char : Char)
  deriving DecidableEq, Repr

/-- A refused text. -/
structure SyntaxError where
  fault : SyntaxFault
  place : Text.Place
  /-- The text around the place. -/
  excerpt : String
  deriving DecidableEq, Repr

namespace SyntaxError

/-- The error at a place in a text. -/
def located (source : List Char) (offset : Nat) (fault : SyntaxFault) : SyntaxError :=
  ⟨fault, .after (source.take offset), Text.excerpt source offset⟩

/-- What is said about a refused text. -/
def message (e : SyntaxError) : String :=
  let line := toString e.place.line
  let column := toString e.place.column
  "Invalid WebIDL at line " ++ line ++ ", column " ++ column ++ ": " ++
    match e.fault with
    | .unexpectedToken terminal text =>
      "Unexpected token Token(" ++ Text.quote terminal.label ++ ", " ++ Text.quote text ++
        ") at line " ++ line ++ ", column " ++ column ++ "."
    | .unexpectedCharacter char =>
      "No terminal matches '" ++ char.toString ++ "' in the current parser context, at line " ++
        line ++ " col " ++ column ++ "\n\n" ++ String.ofList e.excerpt.toList.dropLast

end SyntaxError

/-- Reads the rest `cs` of the text `source` by a parse table, where the parser has come to `offset`
and the last token started at `last`. -/
def parseFrom (table : ContextFree.Table) (source : List Char) (stack : Stack Token)
    (last offset : Nat) (cs : List Char) : Except SyntaxError (ParseTree Token) :=
  let skipped := layoutLength cs
  let start := offset + skipped
  match _h : cs.drop skipped with
  | [] =>
    match table.finish stack with
    | some tree => .ok tree
    | none => .error (.located source last (.unexpectedToken .endOfInput ""))
  | c :: rest =>
    match nextToken? (table.accepted stack) (c :: rest) with
    | some (terminal, length) =>
      let text := String.ofList ((c :: rest).take length)
      let token : Token := ⟨terminal, String.ofList (cs.take skipped), text⟩
      match table.push stack terminal.code token with
      | some stack =>
        parseFrom table source stack start (start + length) (rest.drop (length - 1))
      | none => .error (.located source start (.unexpectedToken terminal text))
    | none =>
      match nextToken? allTerminals (c :: rest) with
      | some (terminal, length) =>
        .error (.located source start
          (.unexpectedToken terminal (String.ofList ((c :: rest).take length))))
      | none => .error (.located source start (.unexpectedCharacter c))
termination_by cs.length
decreasing_by
  have h₁ := congrArg List.length _h
  simp only [List.length_drop, List.length_cons] at h₁
  simp only [List.length_drop]
  omega

/-- The parse tree of a text. -/
def parseTree (text : String) : Except SyntaxError (ParseTree Token) :=
  parseFrom table text.toList [] 0 0 text.toList

end WebSpec.Idl
