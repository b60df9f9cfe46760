import WebSpec.Proofs.Value.Bounds
import WebSpec.Proofs.Value.Call
import WebSpec.Proofs.Value.Refusal
import WebSpec.Value.Definition

/-!
# Primitive types that are known besides

A definition may be parsed with more primitive types than the usual ones. That changes nothing but
what its tree calls them: a reference to one of the types is a primitive leaf where it would name a
production (`Node.recognize`), and a definition that is refused is refused for the same reason at
the same place.

No step on the way from a text to its tree looks at what kind of leaf a node is, nor at its name. So
each step, given what is recognized already, makes of it what it makes of the original, recognized:
there is one lemma for each step, `assemble_recognize` sums them up, and the kinds are decided
before all of them (`classify_append`). The one fault that shows a node shows it recognized.
-/

namespace WebSpec.Value

/-! ### Recognizing types -/

/-- What a leaf with the text stands for where the names are primitive types. -/
def LeafKind.recognize (names : List String) (text : String) (kind : LeafKind) : LeafKind :=
  if kind = .valueSpace ∧ text ∈ names then .primitive else kind

mutual

/-- The same tree where the names are primitive types. -/
def Node.recognize (names : List String) : Node → Node
  | .leaf kind text isOptional => .leaf (kind.recognize names text) text isOptional
  | .function name arguments isOptional => .function name (arguments.recognize names) isOptional
  | .sequence items repetition isOptional =>
    .sequence (Node.recognizeAll names items) repetition isOptional
  | .combined combinator items isOptional =>
    .combined combinator (Node.recognizeAll names items) isOptional

/-- The same trees where the names are primitive types. -/
def Node.recognizeAll (names : List String) : List Node → List Node
  | [] => []
  | item :: rest => item.recognize names :: Node.recognizeAll names rest

end

/-- The same item where the names are primitive types. -/
def Item.recognize (names : List String) : Item → Item
  | .node tree => .node (tree.recognize names)
  | .mark token => .mark token

/-- The same run where the names are primitive types. -/
def Run.recognize (names : List String) (run : Run) : Run :=
  ⟨run.item.recognize names, run.multipliers⟩

/-- The same fault where the names are primitive types. -/
def Fault.recognize (names : List String) : Fault → Fault
  | .requiredNonGroup node => .requiredNonGroup (node.recognize names)
  | fault => fault

/-- The same tree or refusal where the names are primitive types. -/
abbrev recognizedTree (names : List String) : Except Fault Node → Except Fault Node :=
  mapBoth (Fault.recognize names) (Node.recognize names)

/-- The same items or refusal where the names are primitive types. -/
abbrev recognizedItems (names : List String) :
    Except Fault (List Item) → Except Fault (List Item) :=
  mapBoth (Fault.recognize names) (List.map (Item.recognize names))

variable {names : List String}

@[simp] theorem Node.recognizeAll_eq (items : List Node) :
    Node.recognizeAll names items = items.map (Node.recognize names) := by
  induction items with
  | nil => rfl
  | cons item rest ih => rw [Node.recognizeAll, ih, List.map_cons]

/-! ### Multipliers -/

theorem recognize_makeOptional (node : Node) :
    (node.recognize names).makeOptional = node.makeOptional.recognize names := by
  cases node <;> simp [Node.makeOptional, Node.recognize]

theorem recognize_repeated (node : Node) (r : Repetition) :
    Node.repeated (node.recognize names) r = (Node.repeated node r).recognize names := by
  simp [Node.recognize]

theorem mapBoth_rangeBounds (text : String) :
    mapBoth (Fault.recognize names) id (rangeBounds text) = rangeBounds text := by
  have ends := ends_rangeBounds text
  cases h : rangeBounds text with
  | ok => rfl
  | error fault =>
    rw [h] at ends
    have range := ends.of_error_eq
    cases fault <;> first | rfl | cases range

/-- The bounds of a range have nothing to do with any node. -/
theorem bind_rangeBounds {text : String} {k k' : Int × Option Int → Except Fault Node}
    (h : ∀ bounds, k' bounds = recognizedTree names (k bounds)) :
    (rangeBounds text >>= k') = recognizedTree names (rangeBounds text >>= k) := by
  conv_lhs => rw [← @mapBoth_rangeBounds names]
  exact mapBoth_bind h _

theorem multiply_recognize (t : Token) (node : Node) (isGroup : Bool) :
    multiply t (node.recognize names) isGroup =
      recognizedTree names (multiply t node isGroup) := by
  unfold multiply
  split_ifs
  · exact bind_rangeBounds fun bounds => congrArg Except.ok (recognize_repeated node _)
  all_goals first
    | exact congrArg Except.ok (recognize_repeated node _)
    | exact congrArg Except.ok (recognize_makeOptional node)
    | rfl

theorem multiplyNext_recognize (previous t : Token) (node : Node) :
    multiplyNext previous t (node.recognize names) =
      recognizedTree names (multiplyNext previous t node) := by
  cases node with
  | sequence items repetition isOptional =>
    simp only [multiplyNext, Node.recognize]
    split_ifs
    · exact bind_rangeBounds fun bounds => rfl
    · exact multiply_recognize t (.sequence items repetition isOptional) false
  | _ => exact multiply_recognize t _ false

theorem multiplyRest_recognize (previous : Token) (node : Node) (ts : List Token) :
    multiplyRest previous (node.recognize names) ts =
      recognizedTree names (multiplyRest previous node ts) := by
  induction ts generalizing previous node with
  | nil => rfl
  | cons t ts ih =>
    rw [multiplyRest, multiplyRest, multiplyNext_recognize]
    exact mapBoth_bind (fun next => ih t next) _

theorem multiplyAll_recognize (node : Node) (isGroup : Bool) (ts : List Token) :
    multiplyAll (node.recognize names) isGroup ts =
      recognizedTree names (multiplyAll node isGroup ts) := by
  cases ts with
  | nil => rfl
  | cons t ts =>
    rw [multiplyAll, multiplyAll, multiply_recognize]
    exact mapBoth_bind (fun next => multiplyRest_recognize t next ts) _

/-! ### Items -/

@[simp] theorem Item.mark?_recognize (kind : TokenKind) (item : Item) :
    (item.recognize names).mark? kind = item.mark? kind := by
  cases item <;> rfl

@[simp] theorem Item.isMark_recognize (kind : TokenKind) (item : Item) :
    (item.recognize names).isMark kind = item.isMark kind := by
  rw [Item.isMark, Item.mark?_recognize, Item.isMark]

@[simp] theorem Item.isCombinator_recognize (c : Combinator) (item : Item) :
    (item.recognize names).isCombinator c = item.isCombinator c := by
  rw [Item.isCombinator, Item.mark?_recognize, Item.isCombinator]

@[simp] theorem Item.isMultiplier_recognize (item : Item) :
    (item.recognize names).isMultiplier = item.isMultiplier := by
  cases item <;> rfl

@[simp] theorem leadingMultipliers_recognize (items : List Item) :
    leadingMultipliers (items.map (Item.recognize names)) = leadingMultipliers items := by
  induction items with
  | nil => rfl
  | cons item rest ih => cases item <;> simp [leadingMultipliers, Item.recognize, ih]

@[simp] theorem afterMultipliers_recognize (items : List Item) :
    afterMultipliers (items.map (Item.recognize names)) =
      (afterMultipliers items).map (Item.recognize names) := by
  simp [afterMultipliers, List.dropWhile_map, Function.comp_def]

theorem splitRuns_recognize (items : List Item) :
    splitRuns (items.map (Item.recognize names)) =
      ((splitRuns items).1, (splitRuns items).2.map (Run.recognize names)) := by
  induction items with
  | nil => rfl
  | cons item rest ih =>
    cases item with
    | node node => simp [splitRuns, Item.recognize, Run.recognize, ih]
    | mark t =>
      by_cases ht : t.isMultiplier <;> simp [splitRuns, Item.recognize, Run.recognize, ih, ht]

theorem Run.items_recognize (run : Run) :
    (run.recognize names).items = run.items.map (Item.recognize names) := by
  simp [Run.items, Run.recognize, Item.recognize]

theorem Run.attach_recognize (run : Run) :
    (run.recognize names).attach = recognizedItems names run.attach := by
  obtain ⟨item, ms⟩ := run
  cases ms with
  | nil => cases item <;> rfl
  | cons t ms =>
    cases item with
    | node node =>
      simp only [Run.attach, Run.recognize, Item.recognize]
      rw [multiplyAll_recognize]
      refine mapBoth_bind (fun whole => ?_) _
      rfl
    | mark u =>
      simp only [Run.attach, Run.recognize, Item.recognize]
      split_ifs
      · exact congrArg Except.ok (Run.items_recognize ⟨.mark u, t :: ms⟩)
      · rfl

theorem attachMultipliers_recognize (items : List Item) :
    attachMultipliers (items.map (Item.recognize names)) =
      recognizedItems names (attachMultipliers items) := by
  rw [attachMultipliers, attachMultipliers, splitRuns_recognize]
  obtain ⟨_ | ⟨t, ms⟩, runs⟩ := splitRuns items
  · simp only
    rw [mapM_map_eq_mapBoth Run.attach_recognize runs]
    exact mapBoth_bind (fun parts => congrArg Except.ok List.map_flatten.symm) _
  · rfl

theorem Run.release_recognize (run : Run) :
    (run.recognize names).release = recognizedItems names run.release := by
  obtain ⟨item, ms⟩ := run
  cases item with
  | node node => exact congrArg Except.ok (Run.items_recognize ⟨.node node, ms⟩)
  | mark t =>
    simp only [Run.release, Run.recognize, Item.recognize]
    split_ifs
    · have literal : Node.required .string t.text =
          (Node.required .string t.text).recognize names := by
        simp [Node.recognize, LeafKind.recognize]
      conv_lhs => rw [literal]
      rw [multiplyAll_recognize]
      refine mapBoth_bind (fun whole => ?_) _
      rfl
    · exact congrArg Except.ok (Run.items_recognize ⟨.mark t, ms⟩)

theorem releaseParens_recognize (items : List Item) :
    releaseParens (items.map (Item.recognize names)) =
      recognizedItems names (releaseParens items) := by
  rw [releaseParens, releaseParens, splitRuns_recognize]
  obtain ⟨ms, runs⟩ := splitRuns items
  simp only
  rw [mapM_map_eq_mapBoth Run.release_recognize runs]
  refine mapBoth_bind (fun parts => congrArg Except.ok ?_) _
  simp [Item.recognize]

/-! ### Combinators, groups and functions -/

theorem splitAt_recognize (c : Combinator) (items : List Item) :
    splitAt (Item.isCombinator c) (items.map (Item.recognize names)) =
      (splitAt (Item.isCombinator c) items).map (List.map (Item.recognize names)) := by
  induction items with
  | nil => rfl
  | cons item rest ih =>
    rw [List.map_cons, splitAt, splitAt, Item.isCombinator_recognize, ih]
    split_ifs
    · rfl
    · cases splitAt (Item.isCombinator c) rest <;> rfl

theorem juxtapose_recognize (items : List Item) :
    juxtapose (items.map (Item.recognize names)) =
      recognizedTree names (juxtapose items) := by
  rw [juxtapose, juxtapose,
    @mapM_map_eq_mapBoth _ _ _ _ _ _ (Fault.recognize names) _ (Node.recognize names)]
  · refine mapBoth_bind (fun nodes => ?_) _
    rcases nodes with _ | ⟨node, _ | ⟨next, rest⟩⟩
    · rfl
    · rfl
    · simp [pure, Except.pure, mapBoth, Node.recognize]
  · intro item
    cases item <;> rfl

theorem combine_recognize (cs : List Combinator) (items : List Item) :
    combine cs (items.map (Item.recognize names)) =
      recognizedTree names (combine cs items) := by
  induction cs generalizing items with
  | nil => exact juxtapose_recognize items
  | cons c tighter ih =>
    rw [combine, combine, splitAt_recognize]
    simp only [List.length_map, List.any_map, Function.comp_def, List.isEmpty_map]
    split_ifs
    · exact ih items
    · rfl
    · rw [mapM_map_eq_mapBoth ih]
      refine mapBoth_bind (fun nodes => congrArg Except.ok ?_) _
      simp [Node.recognize]

theorem splitAtGroupEnd_recognize (items : List Item) :
    splitAtGroupEnd (items.map (Item.recognize names)) = (splitAtGroupEnd items).map
      (Prod.map (List.map (Item.recognize names)) (List.map (Item.recognize names))) := by
  induction items with
  | nil => rfl
  | cons item rest ih =>
    rw [List.map_cons, splitAtGroupEnd, splitAtGroupEnd, Item.isMark_recognize, ih]
    split_ifs
    · rfl
    · cases splitAtGroupEnd rest <;> rfl

theorem closeGroup_recognize (items : List Item) :
    closeGroup (items.map (Item.recognize names)) =
      recognizedItems names (closeGroup items) := by
  rw [closeGroup, closeGroup, splitAtGroupEnd_recognize]
  rcases splitAtGroupEnd items with _ | ⟨_ | ⟨item, inside⟩, after⟩
  · rfl
  · rfl
  · simp only [Option.map_some, Prod.map_apply, List.map_cons]
    rw [← List.map_cons, combine_recognize]
    refine mapBoth_bind (fun inner => ?_) _
    rw [leadingMultipliers_recognize, afterMultipliers_recognize, multiplyAll_recognize]
    refine mapBoth_bind (fun whole => ?_) _
    rfl

theorem closeGroups_recognize (items : List Item) :
    closeGroups (items.map (Item.recognize names)) =
      recognizedItems names (closeGroups items) := by
  induction items with
  | nil => rfl
  | cons item rest ih =>
    rw [List.map_cons, closeGroups, closeGroups, ih]
    refine mapBoth_bind (fun closed => ?_) _
    rw [Item.isMark_recognize]
    split_ifs
    · exact closeGroup_recognize closed
    · rfl

theorem assembleFlat_recognize (items : List Item) :
    assembleFlat (items.map (Item.recognize names)) =
      recognizedTree names (assembleFlat items) := by
  rw [assembleFlat, assembleFlat, releaseParens_recognize]
  refine mapBoth_bind (fun released => ?_) _
  rw [closeGroups_recognize]
  refine mapBoth_bind (fun closed => ?_) _
  simp only [List.any_map, Function.comp_def, Item.isMark_recognize]
  split_ifs
  · rfl
  · exact combine_recognize _ closed

theorem splitAtParenEnd_recognize (depth : Nat) (items : List Item) :
    splitAtParenEnd depth (items.map (Item.recognize names)) = (splitAtParenEnd depth items).map
      (Prod.map (List.map (Item.recognize names)) (List.map (Item.recognize names))) := by
  induction items generalizing depth with
  | nil => rfl
  | cons item rest ih =>
    have later (depth : Nat) :
        (splitAtParenEnd depth (rest.map (Item.recognize names))).map
          (fun parts => (item.recognize names :: parts.1, parts.2)) =
        ((splitAtParenEnd depth rest).map fun parts => (item :: parts.1, parts.2)).map
          (Prod.map (List.map (Item.recognize names)) (List.map (Item.recognize names))) := by
      rw [ih]
      cases splitAtParenEnd depth rest <;> rfl
    rw [List.map_cons, splitAtParenEnd.eq_def, splitAtParenEnd.eq_def depth (item :: rest)]
    simp only [Item.isMark_recognize]
    split_ifs
    · cases depth with
      | zero => rfl
      | succ depth => exact later depth
    · exact later _
    · exact later _

theorem closeFunction_recognize (name : String) (items : List Item) :
    closeFunction name (items.map (Item.recognize names)) =
      recognizedItems names (closeFunction name items) := by
  cases hs : splitAtParenEnd 0 items with
  | none => simp only [closeFunction, splitAtParenEnd_recognize, hs]; rfl
  | some parts =>
    obtain ⟨inside, after⟩ := parts
    have split : splitAtParenEnd 0 (items.map (Item.recognize names)) =
        some (inside.map (Item.recognize names), after.map (Item.recognize names)) := by
      rw [splitAtParenEnd_recognize, hs]
      rfl
    have arguments : argumentsOf (inside.map (Item.recognize names)) =
        recognizedTree names (argumentsOf inside) := by
      simp only [argumentsOf, List.isEmpty_map]
      split_ifs
      · simp [pure, Except.pure, mapBoth, Node.recognize]
      · exact assembleFlat_recognize inside
    rw [closeFunction_of_splitAtParenEnd split, closeFunction_of_splitAtParenEnd hs, arguments]
    refine mapBoth_bind (fun tree => ?_) _
    have called : Node.function name (tree.recognize names) false =
        (Node.function name tree false).recognize names := by simp [Node.recognize]
    rw [called, leadingMultipliers_recognize, afterMultipliers_recognize, multiplyAll_recognize]
    refine mapBoth_bind (fun whole => ?_) _
    rfl

theorem closeFunctions_recognize (items : List Item) :
    closeFunctions (items.map (Item.recognize names)) =
      recognizedItems names (closeFunctions items) := by
  induction items with
  | nil => rfl
  | cons item rest ih =>
    rw [List.map_cons, closeFunctions, closeFunctions, ih]
    refine mapBoth_bind (fun closed => ?_) _
    rw [Item.mark?_recognize]
    split
    · exact closeFunction_recognize _ closed
    · rfl

theorem assemble_recognize (items : List Item) :
    assemble (items.map (Item.recognize names)) =
      recognizedTree names (assemble items) := by
  rw [assemble, assemble, closeFunctions_recognize]
  exact mapBoth_bind (fun closed => assembleFlat_recognize closed) _

theorem unwrap_recognize (node : Node) :
    unwrap (node.recognize names) = (unwrap node).recognize names := by
  match node with
  | .leaf .. => rfl
  | .function .. => rfl
  | .combined .. => rfl
  | .sequence [] _ _ => rfl
  | .sequence [item] repetition isOptional =>
    simp only [Node.recognize, Node.recognizeAll, unwrap]
    split_ifs <;> simp [Node.recognize]
  | .sequence (_ :: _ :: _) _ _ => simp [Node.recognize, unwrap]

/-! ### From the text to the tree -/

theorem classify_append (known : List String) (t : Token) :
    t.classify (known ++ names) =
      mapBoth (Fault.recognize names) (Item.recognize names) (t.classify known) := by
  obtain ⟨kind, text, position⟩ := t
  cases kind with
  | keyword =>
    simp only [Token.classify, TokenKind.isStructural]
    split_ifs <;> rfl
  | typeRef =>
    simp only [Token.classify, TokenKind.isStructural, List.contains_eq_mem, List.mem_append,
      decide_eq_true_eq]
    by_cases h : String.ofList (withoutRange text.toList) ∈ known
    · simp [h, mapBoth, Item.recognize, Node.recognize, LeafKind.recognize]
    · by_cases h' : String.ofList (withoutRange text.toList) ∈ names <;>
        simp [h, h', mapBoth, Item.recognize, Node.recognize, LeafKind.recognize]
  | _ => rfl

theorem mapBoth_tokens (source : String) :
    mapBoth (Fault.recognize names) id (tokens source) = tokens source := by
  cases h : tokens source with
  | ok ts => rfl
  | error fault =>
    have inside := isSome_mode?_of_run h
    cases fault <;> first | rfl | cases inside

theorem parseStripped_append (known : List String) (source : String) :
    parseStripped (known ++ names) source =
      recognizedTree names (parseStripped known source) := by
  rw [parseStripped, parseStripped]
  conv_lhs => rw [← @mapBoth_tokens names]
  refine mapBoth_bind (fun ts => ?_) _
  have classified := mapM_map_eq_mapBoth (f := id) (@classify_append names known) ts
  rw [List.map_id] at classified
  rw [id, classified]
  refine mapBoth_bind (fun items => ?_) _
  rw [attachMultipliers_recognize]
  refine mapBoth_bind (fun attached => ?_) _
  rw [assemble_recognize]
  exact mapBoth_bind (fun node => congrArg Except.ok (unwrap_recognize node)) _

/-- The same refusal where the names are primitive types. -/
def DefinitionError.recognize (names : List String) (e : DefinitionError) : DefinitionError :=
  ⟨e.fault.recognize names, e.source⟩

theorem parse_eq_recognize (text : String) (names : List String) :
    parse text names =
      mapBoth (DefinitionError.recognize names) (Node.recognize names) (parse text) := by
  simp only [parse]
  split_ifs
  · rfl
  · rw [parseStripped_append, List.append_nil]
    cases parseStripped primitives (Text.strip text) <;> rfl

/-- Extra primitive types change nothing about a definition but what its references to them are
called: it has a tree with them if it has one without them, and where it is refused, class,
fragment, source and state of the error are the same. -/
theorem parse_extraPrimitives (text : String) (extraPrimitives : List String) :
    match parse text, parse text extraPrimitives with
    | .ok node, .ok node' => node' = node.recognize extraPrimitives
    | .error e, .error e' =>
      e'.fault.className = e.fault.className ∧ e'.fault.fragment? = e.fault.fragment? ∧
        e'.source = e.source ∧ e'.fault.mode? = e.fault.mode?
    | _, _ => False := by
  rw [parse_eq_recognize text extraPrimitives]
  cases parse text with
  | ok node => rfl
  | error e =>
    obtain ⟨fault, source⟩ := e
    cases fault <;> exact ⟨rfl, rfl, rfl, rfl⟩

end WebSpec.Value
