import WebSpec.ContextFree.Table
import WebSpec.Idl.Terminal

/-!
# The grammar of the interface language

The productions of the interface definition language: the second edition together with the older
`implements` statement and `[NamedConstructor]`-like attributes.

A `Rule` is a nonterminal. Each alternative of a rule has a `Construct`, which says what the
alternative means, and a pattern for its right side. What is repeated has a rule of its own, which
recurs on the left; the constructs `part` and `parts` mark the rules that only group what others are
made of.

`grammar` is the grammar over numbered symbols, `constructs` lists the construct of each production,
and `table` is the parse table.
-/

namespace WebSpec.Idl

open ContextFree (Pattern Production Symbol)

/-- The nonterminals. -/
inductive Rule where
  | root | start | definitions | definition | definitionBody
  | interface | mixin | callbackInterface | callbackFunction | namespaceDefinition | dictionary
  | enumeration | typedef | includesStatement | implementsStatement
  | inheritance | enumValues | moreEnumValues
  | interfaceMembers | interfaceMember | memberBody | const | attributeMember | operation
  | specialOperation | stringifier | staticMember | constructorMember | iterable | asyncIterable
  | maplike | setlike
  | dictionaryMembers | dictionaryMember
  | argumentList | moreArguments | argument | default | defaultValue | constValue
  | annotatedType | type | singleType | namedType | genericType | moreTypes | primitiveType
  | unionType | moreAlternatives
  | attributeList | moreAttributes | extendedAttribute | attributeValue | moreNames
  deriving DecidableEq, Repr

/-- What an alternative of a rule means. -/
inductive Construct where
  /-- A part of what the rule around it means. -/
  | part
  | definition
  | interface | mixin | callbackInterface | callbackFunction | namespaceDefinition | dictionary
  | enumeration | typedef | includesStatement | implementsStatement
  | inheritance
  | interfaceMember | const | attributeMember | operation | specialOperation | stringifier
  | staticMember | constructorMember | iterable | asyncIterable | maplike | setlike
  | dictionaryMember
  | argumentList | argument
  /-- The value that an argument or a dictionary member has by default. -/
  | defaultValue
  | constValue
  | annotatedType | type | namedType | genericType | primitiveType | unionType
  | attributeList
  /-- An extended attribute by its name only. -/
  | plainAttribute
  /-- An extended attribute with arguments. -/
  | callAttribute
  /-- An extended attribute whose value is a name with arguments. -/
  | namedCallAttribute
  /-- An extended attribute with a value. -/
  | valueAttribute
  | identifierValue | identifierListValue | wildcardValue | stringValue | numberValue
  deriving DecidableEq, Repr

/-- All rules, in the order of their numbers. -/
def Rule.all : List Rule :=
  [.root, .start, .definitions, .definition, .definitionBody, .interface, .mixin,
   .callbackInterface, .callbackFunction, .namespaceDefinition, .dictionary, .enumeration, .typedef,
   .includesStatement, .implementsStatement, .inheritance, .enumValues, .moreEnumValues,
   .interfaceMembers, .interfaceMember, .memberBody, .const, .attributeMember, .operation,
   .specialOperation, .stringifier, .staticMember, .constructorMember, .iterable, .asyncIterable,
   .maplike, .setlike, .dictionaryMembers, .dictionaryMember, .argumentList, .moreArguments,
   .argument, .default, .defaultValue, .constValue, .annotatedType, .type, .singleType, .namedType,
   .genericType, .moreTypes, .primitiveType, .unionType, .moreAlternatives, .attributeList,
   .moreAttributes, .extendedAttribute, .attributeValue, .moreNames]

/-- The number of a rule. -/
def Rule.code (r : Rule) : Nat :=
  r.ctorIdx

/-- The pattern of one token. -/
def token (t : Terminal) : Pattern :=
  .symbol (.terminal t.code)

/-- The pattern of what a rule derives. -/
def rule (r : Rule) : Pattern :=
  .symbol (.nonterminal r.code)

/-- A part that may be left out. -/
def maybe (parts : List Pattern) : Pattern :=
  .maybe (.ofList parts)

/-- An alternative of a rule. -/
structure Alternative where
  rule : Rule
  construct : Construct
  parts : List Pattern

/-- The alternatives of a rule that are rules themselves. -/
def choice (r : Rule) (choices : List Rule) : List Alternative :=
  choices.map fun c => ⟨r, .part, [rule c]⟩

/-- A rule that repeats something, once or more. -/
def repeated (r : Rule) (parts : List Pattern) : List Alternative :=
  [⟨r, .part, parts⟩, ⟨r, .part, rule r :: parts⟩]

/-- The body of a definition with members. -/
def body (members : Rule) : List Pattern :=
  [token .braceOpen, maybe [rule members], token .braceClose, token .semicolon]

/-- Arguments between their parentheses. -/
def arguments : List Pattern :=
  [token .parenOpen, maybe [rule .argumentList], token .parenClose]

/-- The definitions. -/
def definitionAlternatives : List Alternative :=
  [⟨.root, .part, [rule .start, token .endOfInput]⟩,
   ⟨.start, .part, [maybe [rule .definitions]]⟩] ++
  repeated .definitions [rule .definition] ++
  [⟨.definition, .definition, [maybe [rule .attributeList], rule .definitionBody]⟩] ++
  choice .definitionBody
    [.interface, .mixin, .callbackInterface, .callbackFunction, .namespaceDefinition, .dictionary,
     .enumeration, .typedef, .includesStatement, .implementsStatement] ++
  [⟨.interface, .interface,
    [maybe [token .kwPartial], token .kwInterface, token .identifier, maybe [rule .inheritance]] ++
      body .interfaceMembers⟩,
   ⟨.mixin, .mixin,
    [maybe [token .kwPartial], token .kwInterface, token .kwMixin, token .identifier] ++
      body .interfaceMembers⟩,
   ⟨.callbackInterface, .callbackInterface,
    [token .kwCallback, token .kwInterface, token .identifier, maybe [rule .inheritance]] ++
      body .interfaceMembers⟩,
   ⟨.callbackFunction, .callbackFunction,
    [token .kwCallback, token .identifier, token .equals, rule .type] ++ arguments ++
      [token .semicolon]⟩,
   ⟨.namespaceDefinition, .namespaceDefinition,
    [maybe [token .kwPartial], token .kwNamespace, token .identifier] ++ body .interfaceMembers⟩,
   ⟨.dictionary, .dictionary,
    [maybe [token .kwPartial], token .kwDictionary, token .identifier,
     maybe [rule .inheritance]] ++ body .dictionaryMembers⟩,
   ⟨.enumeration, .enumeration,
    [token .kwEnum, token .identifier, token .braceOpen, rule .enumValues, token .braceClose,
     token .semicolon]⟩,
   ⟨.typedef, .typedef,
    [token .kwTypedef, rule .annotatedType, token .identifier, token .semicolon]⟩,
   ⟨.includesStatement, .includesStatement,
    [token .identifier, token .kwIncludes, token .identifier, token .semicolon]⟩,
   ⟨.implementsStatement, .implementsStatement,
    [token .identifier, token .kwImplements, token .identifier, token .semicolon]⟩,
   ⟨.inheritance, .inheritance, [token .colon, token .identifier]⟩,
   ⟨.enumValues, .part,
    [token .string, maybe [rule .moreEnumValues], maybe [token .comma]]⟩] ++
  repeated .moreEnumValues [token .comma, token .string]

/-- The members of interfaces and dictionaries. -/
def memberAlternatives : List Alternative :=
  repeated .interfaceMembers [rule .interfaceMember] ++
  [⟨.interfaceMember, .interfaceMember, [maybe [rule .attributeList], rule .memberBody]⟩] ++
  choice .memberBody
    [.const, .operation, .specialOperation, .stringifier, .staticMember, .iterable, .asyncIterable,
     .maplike, .setlike, .attributeMember, .constructorMember] ++
  [⟨.const, .const,
    [token .kwConst, rule .type, token .identifier, token .equals, rule .constValue,
     token .semicolon]⟩,
   ⟨.attributeMember, .attributeMember,
    [maybe [token .kwInherit], maybe [token .kwReadonly], token .kwAttribute, rule .annotatedType,
     token .identifier, token .semicolon]⟩,
   ⟨.operation, .operation,
    [rule .type, maybe [token .identifier]] ++ arguments ++ [token .semicolon]⟩,
   ⟨.specialOperation, .specialOperation, [token .kwGetter, rule .operation]⟩,
   ⟨.specialOperation, .specialOperation, [token .kwSetter, rule .operation]⟩,
   ⟨.specialOperation, .specialOperation, [token .kwDeleter, rule .operation]⟩,
   ⟨.stringifier, .stringifier, [token .kwStringifier, token .semicolon]⟩,
   ⟨.stringifier, .stringifier, [token .kwStringifier, rule .attributeMember]⟩,
   ⟨.stringifier, .stringifier, [token .kwStringifier, rule .operation]⟩,
   ⟨.staticMember, .staticMember, [token .kwStatic, rule .attributeMember]⟩,
   ⟨.staticMember, .staticMember, [token .kwStatic, rule .operation]⟩,
   ⟨.constructorMember, .constructorMember,
    token .kwConstructor :: arguments ++ [token .semicolon]⟩,
   ⟨.iterable, .iterable,
    [token .kwIterable, token .lessThan, rule .annotatedType,
     maybe [token .comma, rule .annotatedType], token .moreThan, token .semicolon]⟩,
   ⟨.asyncIterable, .asyncIterable,
    [token .kwAsync, token .kwIterable, token .lessThan, rule .annotatedType,
     maybe [token .comma, rule .annotatedType], token .moreThan, maybe arguments,
     token .semicolon]⟩,
   ⟨.maplike, .maplike,
    [maybe [token .kwReadonly], token .kwMaplike, token .lessThan, rule .annotatedType,
     token .comma, rule .annotatedType, token .moreThan, token .semicolon]⟩,
   ⟨.setlike, .setlike,
    [maybe [token .kwReadonly], token .kwSetlike, token .lessThan, rule .annotatedType,
     token .moreThan, token .semicolon]⟩] ++
  repeated .dictionaryMembers [rule .dictionaryMember] ++
  [⟨.dictionaryMember, .dictionaryMember,
    [maybe [rule .attributeList], token .kwRequired, rule .annotatedType, token .identifier,
     token .semicolon]⟩,
   ⟨.dictionaryMember, .dictionaryMember,
    [maybe [rule .attributeList], rule .type, token .identifier, maybe [rule .default],
     token .semicolon]⟩]

/-- Arguments and values. -/
def valueAlternatives : List Alternative :=
  [⟨.argumentList, .argumentList, [rule .argument, maybe [rule .moreArguments]]⟩] ++
  repeated .moreArguments [token .comma, rule .argument] ++
  [⟨.argument, .argument,
    [maybe [rule .attributeList], token .kwOptional, rule .annotatedType, token .identifier,
     maybe [rule .default]]⟩,
   ⟨.argument, .argument,
    [maybe [rule .attributeList], rule .type, maybe [token .ellipsis], token .identifier]⟩,
   ⟨.default, .part, [token .equals, rule .defaultValue]⟩,
   ⟨.defaultValue, .defaultValue, [rule .constValue]⟩,
   ⟨.defaultValue, .defaultValue, [token .string]⟩,
   ⟨.defaultValue, .defaultValue, [token .kwNull]⟩,
   ⟨.defaultValue, .defaultValue, [token .kwUndefined]⟩,
   ⟨.defaultValue, .defaultValue, [token .bracketOpen, token .bracketClose]⟩,
   ⟨.defaultValue, .defaultValue, [token .braceOpen, token .braceClose]⟩] ++
  [.kwTrue, .kwFalse, .integer, .decimal, .kwNegativeInfinity, .kwInfinity, .kwNaN].map fun t =>
    ⟨.constValue, .constValue, [token t]⟩

/-- Types. -/
def typeAlternatives : List Alternative :=
  [⟨.annotatedType, .annotatedType, [maybe [rule .attributeList], rule .type]⟩,
   ⟨.type, .type, [rule .singleType, maybe [token .questionMark]]⟩] ++
  choice .singleType [.namedType, .genericType, .primitiveType, .unionType] ++
  [⟨.namedType, .namedType, [token .identifier]⟩,
   ⟨.genericType, .genericType,
    [token .identifier, token .lessThan, rule .annotatedType, maybe [rule .moreTypes],
     token .moreThan]⟩] ++
  repeated .moreTypes [token .comma, rule .annotatedType] ++
  [⟨.primitiveType, .primitiveType, [maybe [token .kwUnsigned], token .kwShort]⟩,
   ⟨.primitiveType, .primitiveType,
    [maybe [token .kwUnsigned], token .kwLong, maybe [token .kwLong]]⟩,
   ⟨.primitiveType, .primitiveType, [maybe [token .kwUnrestricted], token .kwFloat]⟩,
   ⟨.primitiveType, .primitiveType, [maybe [token .kwUnrestricted], token .kwDouble]⟩,
   ⟨.unionType, .unionType,
    [token .parenOpen, rule .annotatedType, rule .moreAlternatives, token .parenClose]⟩] ++
  repeated .moreAlternatives [token .kwOr, rule .annotatedType]

/-- Extended attributes. -/
def attributeAlternatives : List Alternative :=
  [⟨.attributeList, .attributeList,
    [token .bracketOpen, rule .extendedAttribute, maybe [rule .moreAttributes],
     maybe [token .comma], token .bracketClose]⟩] ++
  repeated .moreAttributes [token .comma, rule .extendedAttribute] ++
  [⟨.extendedAttribute, .plainAttribute, [token .identifier]⟩,
   ⟨.extendedAttribute, .callAttribute, token .identifier :: arguments⟩,
   ⟨.extendedAttribute, .namedCallAttribute,
    [token .identifier, token .equals, token .identifier] ++ arguments⟩,
   ⟨.extendedAttribute, .valueAttribute,
    [token .identifier, token .equals, rule .attributeValue]⟩,
   ⟨.attributeValue, .identifierValue, [token .identifier]⟩,
   ⟨.attributeValue, .identifierListValue,
    [token .parenOpen, token .identifier, maybe [rule .moreNames], token .parenClose]⟩,
   ⟨.attributeValue, .wildcardValue, [token .star]⟩,
   ⟨.attributeValue, .stringValue, [token .string]⟩,
   ⟨.attributeValue, .numberValue, [token .integer]⟩,
   ⟨.attributeValue, .numberValue, [token .decimal]⟩] ++
  repeated .moreNames [token .comma, token .identifier]

/-- All alternatives of all rules; the first one is the root. -/
def alternatives : List Alternative :=
  definitionAlternatives ++ memberAlternatives ++ valueAlternatives ++ typeAlternatives ++
    attributeAlternatives

/-- The productions that an alternative stands for, each with its construct. -/
def Alternative.expand (a : Alternative) : List (Construct × Production) :=
  (Pattern.ofList a.parts).expand.map fun right => (a.construct, ⟨a.rule.code, right⟩)

/-- All productions with their constructs. -/
def productions : List (Construct × Production) :=
  alternatives.flatMap Alternative.expand

/-- The grammar of the interface language. -/
def grammar : ContextFree.Grammar :=
  { terminalCount := Terminal.all.length
    nonterminalCount := Rule.all.length
    start := Rule.start.code
    endMark := Terminal.endOfInput.code
    productions := productions.map Prod.snd }

/-- The construct of each production, by its number. -/
def constructs : Array Construct :=
  (productions.map Prod.fst).toArray

/-- The parse table of the interface language. -/
@[irreducible] def table : ContextFree.Table :=
  grammar.table

end WebSpec.Idl
