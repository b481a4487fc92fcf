import GraphQLCheck.Proofs.UniqueNames
import Mathlib.Data.String.Basic

/-!
# How often repeated names are reported

Five rules say that a name is given once: to an operation or a fragment of a document, to a variable
of an operation, to an argument of a field or directive, to a directive of a node that may not be
repeated there. `NameRule` says for each of them what its scopes are, as lists of the names given in
them (`scopes`), and what is reported of a name that is given again. The scopes are read off the
document: the selections of a document at any depth are listed without the walk
(`Selection.nested`), and the walk announces the lists of arguments and directives of just these.

Within a scope the mentions of one name are a first one and later ones, and what is due is a
diagnostic for each of the later ones (`due`). What is proved is that a run reports for each rule what
it reports for each scope, one scope after another, and that this is for every name what is due and
nothing besides.
-/

namespace GraphQLCheck

/-! ### The lists of a document -/

namespace Selection

mutual

/-- A selection and all those inside it, in the order of the text. -/
def withInner : Selection → List Selection
  | field node span items => field node span items :: nested items
  | spread node => [spread node]
  | inline node span items => inline node span items :: nested items

/-- Selections and all those inside them, in the order of the text. -/
def nested : List Selection → List Selection
  | [] => []
  | item :: rest => item.withInner ++ nested rest

end

/-- The arguments of a selection, with its position. Only a field has arguments. -/
def arguments? : Selection → Option (Position × List Argument)
  | field node _ _ => some (node.position, node.arguments)
  | spread _ | inline _ _ _ => none

end Selection

namespace Definition

/-- The directives of a definition. -/
def directives : Definition → List Directive
  | operation o => o.directives
  | bare _ => []
  | fragment f => f.directives

/-- The selections of a definition at any depth. -/
def selections : Definition → List Selection
  | operation o => Selection.nested o.selectionSet.items
  | bare set => Selection.nested set.items
  | fragment f => Selection.nested f.selectionSet.items

end Definition

/-- The arguments of a directive, with its position. -/
def Directive.argumentList (d : Directive) : Position × List Argument := (d.position, d.arguments)

namespace Document

/-- The lists of directives of the nodes of a document: of its definitions and of their selections at
any depth. -/
def directiveLists (d : Document) : List (List Directive) :=
  d.definitions.flatMap fun definition =>
    definition.directives :: definition.selections.map (·.directives)

/-- The lists of arguments of the fields and of the directives of a document, at any depth. -/
def argumentLists (d : Document) : List (Position × List Argument) :=
  d.definitions.flatMap fun definition =>
    definition.directives.map (·.argumentList) ++
      definition.selections.flatMap fun item =>
        item.arguments?.toList ++ item.directives.map (·.argumentList)

end Document

namespace Hook

/-- The list of arguments that a step announces. -/
def arguments? : Hook → Option (Position × List Argument)
  | arguments position list => some (position, list)
  | _ => none

/-- The list of directives that a step announces. -/
def directives? : Hook → Option (List Directive)
  | directives list => some list
  | _ => none

/-- Nothing is chosen where a node is entered or left. -/
def SkipsNodes {α : Type} (choose : Hook → Option α) : Prop :=
  ∀ node, choose (enter node) = none ∧ choose (leave node) = none

section SkipsNodes

variable {α : Type} {choose : Hook → Option α}

theorem SkipsNodes.filterMap_around (h : SkipsNodes choose) (node : Node) (inside : List Hook) :
    (around node inside).filterMap choose = inside.filterMap choose := by
  rw [Hook.filterMap_around, (h node).1, (h node).2]
  exact List.append_nil _

theorem SkipsNodes.filterMap_ofLiteral (h : SkipsNodes choose) (position : Position) (v : Literal) :
    (ofLiteral position v).filterMap choose = [] := by
  -- A literal is made of nodes that are entered and left.
  have hvalues : AdmitsValues fun hook => (choose hook).isNone := by
    intro position v
    simp [(h (.value position v)).1, (h (.value position v)).2]
  have honly := only_ofLiteral hvalues position v
  exact List.filterMap_eq_nil_iff.mpr fun hook hmem => Option.isNone_iff_eq_none.mp (honly hook hmem)

theorem SkipsNodes.filterMap_ofArguments (h : SkipsNodes choose) (position : Position)
    (list : List Argument) :
    (ofArguments position list).filterMap choose = (choose (arguments position list)).toList := by
  have hmembers : (list.flatMap (ofArgument position)).filterMap choose = [] := by
    rw [List.filterMap_flatMap, List.flatMap_eq_nil_iff]
    intro a _
    rw [ofArgument, h.filterMap_around, h.filterMap_ofLiteral]
  rw [ofArguments, List.filterMap_cons, hmembers]
  cases choose (arguments position list) <;> rfl

theorem SkipsNodes.filterMap_ofDirectives (h : SkipsNodes choose) (list : List Directive) :
    (ofDirectives list).filterMap choose = (choose (directives list)).toList ++
      list.flatMap fun d => (choose (arguments d.position d.arguments)).toList := by
  have hmembers : (list.flatMap ofDirective).filterMap choose =
      list.flatMap fun d => (choose (arguments d.position d.arguments)).toList := by
    rw [List.filterMap_flatMap]
    refine List.flatMap_congr fun d _ => ?_
    rw [ofDirective, h.filterMap_around, h.filterMap_ofArguments]
  rw [ofDirectives, List.filterMap_cons, hmembers]
  cases choose (directives list) <;> rfl

theorem SkipsNodes.filterMap_ofVariableDefinition (h : SkipsNodes choose) (v : VariableDefinition) :
    (ofVariableDefinition v).filterMap choose = [] := by
  rw [ofVariableDefinition, h.filterMap_around]
  cases v.default? with
  | none => rfl
  | some value => exact h.filterMap_ofLiteral v.position value

/-- The steps of a set are those of the details of its selections, at any depth. -/
theorem SkipsNodes.filterMap_ofSelections (h : SkipsNodes choose) (address : Address) (index : ℕ)
    (items : List Selection) :
    (ofSelections address index items).filterMap choose =
      (Selection.nested items).flatMap fun item => item.details.filterMap choose := by
  have hitem (address : Address) (item : Selection) :
      (ofSelection address item).filterMap choose =
        item.details.filterMap choose ++ (item.ownSet address).filterMap choose := by
    rw [ofSelection_eq, h.filterMap_around, List.filterMap_append]
  induction items using Selection.items_induction generalizing address index with
  | nil => rfl
  | field node span items rest ihItems ihRest =>
    have hown (address : Address) :
        ((Selection.field node span items).ownSet address).filterMap choose =
          (Selection.nested items).flatMap fun item => item.details.filterMap choose := by
      cases items with
      | nil => rfl
      | cons first others => rw [Selection.ownSet, ofSelectionSet, h.filterMap_around, ihItems]
    rw [ofSelections, List.filterMap_append, hitem, hown, ihRest, Selection.nested,
      Selection.withInner, List.flatMap_append, List.flatMap_cons]
  | spread node rest ihRest =>
    rw [ofSelections, List.filterMap_append, hitem, ihRest, Selection.nested,
      Selection.withInner, List.flatMap_append, List.flatMap_cons]
    rfl
  | inline node span items rest ihItems ihRest =>
    rw [ofSelections, List.filterMap_append, hitem, Selection.ownSet, ofSelectionSet, h.filterMap_around,
      ihItems, ihRest, Selection.nested, Selection.withInner, List.flatMap_append,
      List.flatMap_cons]

/-- The steps of definitions are those of their directives and of their selections. -/
theorem SkipsNodes.filterMap_ofDefinitions (h : SkipsNodes choose) (number operations : ℕ)
    (definitions : List Definition) :
    (ofDefinitions number operations definitions).filterMap choose =
      definitions.flatMap fun definition =>
        (ofDirectives definition.directives).filterMap choose ++
          definition.selections.flatMap fun item => item.details.filterMap choose := by
  have hoperation (address : Address) (index : ℕ) (o : Operation) :
      (ofOperation address index o).filterMap choose =
        (ofDirectives o.directives).filterMap choose ++
          (Selection.nested o.selectionSet.items).flatMap fun item =>
            item.details.filterMap choose := by
    have hdeclared : (o.declared.flatMap ofVariableDefinition).filterMap choose = [] := by
      rw [List.filterMap_flatMap, List.flatMap_eq_nil_iff]
      exact fun v _ => h.filterMap_ofVariableDefinition v
    rw [ofOperation, h.filterMap_around, List.filterMap_append, List.filterMap_append, hdeclared,
      List.nil_append, ofSelectionSet, h.filterMap_around, h.filterMap_ofSelections]
  induction definitions generalizing number operations with
  | nil => rfl
  | cons definition rest ih =>
    rw [List.flatMap_cons]
    cases definition with
    | operation o =>
      rw [ofDefinitions_operation rfl, List.filterMap_append, hoperation, ih]
      rfl
    | bare set =>
      rw [ofDefinitions_operation rfl, List.filterMap_append, hoperation, ih]
      rfl
    | fragment f =>
      rw [ofDefinitions_fragment, List.filterMap_append, ofFragmentDefinition, h.filterMap_around,
        List.filterMap_append, ofSelectionSet, h.filterMap_around, h.filterMap_ofSelections, ih]
      rfl

/-- The steps of a selection are its list of arguments, if it is a field, and its directives. -/
theorem SkipsNodes.filterMap_details (h : SkipsNodes choose) (item : Selection) :
    item.details.filterMap choose =
      (item.arguments?.bind fun list => choose (arguments list.1 list.2)).toList ++
        (ofDirectives item.directives).filterMap choose := by
  cases item with
  | field node span items =>
    rw [Selection.details, List.filterMap_append, h.filterMap_ofArguments]
    rfl
  | spread node => rfl
  | inline node span items => rfl

/-- The steps of a whole walk, by what the lists of arguments and of directives give. -/
theorem SkipsNodes.filterMap_hooks (h : SkipsNodes choose) (d : Document) :
    d.hooks.filterMap choose =
      d.definitions.flatMap fun definition =>
        (ofDirectives definition.directives).filterMap choose ++
          definition.selections.flatMap fun item =>
            (item.arguments?.bind fun list => choose (arguments list.1 list.2)).toList ++
              (ofDirectives item.directives).filterMap choose := by
  rw [Document.hooks, h.filterMap_around, h.filterMap_ofDefinitions]
  simp only [h.filterMap_details]

end SkipsNodes

theorem skipsNodes_arguments? : SkipsNodes arguments? := fun _ => ⟨rfl, rfl⟩

theorem skipsNodes_directives? : SkipsNodes directives? := fun _ => ⟨rfl, rfl⟩

end Hook

namespace Document

/-- The walk announces the lists of arguments of the document. -/
theorem arguments?_hooks (d : Document) : d.hooks.filterMap Hook.arguments? = d.argumentLists := by
  have hskips := Hook.skipsNodes_arguments?
  have hdirectives (list : List Directive) :
      (Hook.ofDirectives list).filterMap Hook.arguments? = list.map (·.argumentList) := by
    rw [hskips.filterMap_ofDirectives, List.map_eq_flatMap]
    rfl
  have hlists (item : Selection) :
      (item.arguments?.bind fun list => Hook.arguments? (.arguments list.1 list.2)) =
        item.arguments? := Option.bind_fun_some _
  simp only [hskips.filterMap_hooks, hdirectives, hlists, argumentLists]

/-- The walk announces the lists of directives of the document. -/
theorem directives?_hooks (d : Document) :
    d.hooks.filterMap Hook.directives? = d.directiveLists := by
  have hskips := Hook.skipsNodes_directives?
  have hdirectives (list : List Directive) :
      (Hook.ofDirectives list).filterMap Hook.directives? = [list] := by
    rw [hskips.filterMap_ofDirectives]
    exact congrArg (list :: ·) (List.flatMap_eq_nil_iff.mpr fun _ _ => rfl)
  have hlists (item : Selection) :
      (item.arguments?.bind fun list => Hook.directives? (.arguments list.1 list.2)) = none :=
    Option.bind_fun_none _
  simp only [hskips.filterMap_hooks, hdirectives, hlists, directiveLists, List.map_eq_flatMap]
  rfl

end Document

/-! ### Mentions of one name -/

namespace Mention

/-- The mentions of a name in a scope after the first, each with the first. -/
def pairs (scope : List Mention) (name : String) : List (Mention × Mention) :=
  match scope.filter (·.name = name) with
  | [] => []
  | first :: later => later.map fun again => (first, again)

/-- The repeats of a name after some mentions: if it was among them, all mentions of it repeat the
first one. -/
theorem filter_repeatsAfter (seen scope : List Mention) (name : String) :
    (repeatsAfter seen scope).filter (·.2.name = name) =
      match first? seen name with
      | some first => (scope.filter (·.name = name)).map fun again => (first, again)
      | none => pairs scope name := by
  induction scope generalizing seen with
  | nil => cases first? seen name <;> rfl
  | cons mention rest ih =>
    rw [repeatsAfter]
    by_cases hname : mention.name = name
    · subst hname
      cases hseen : first? seen mention.name with
      | some first => simp [ih, hseen]
      | none =>
        have hfirst : first? (mention :: seen) mention.name = some mention := by simp [first?]
        simp [ih, hfirst, pairs]
    · have hpairs : pairs (mention :: rest) name = pairs rest name := by simp [pairs, hname]
      have hrest : (mention :: rest).filter (·.name = name) = rest.filter (·.name = name) := by
        simp [hname]
      rw [hpairs, hrest]
      cases hseen : first? seen mention.name with
      | some first => simp [hname, ih]
      | none =>
        have hfirst : first? (mention :: seen) name = first? seen name := by simp [first?, hname]
        simp [ih, hfirst]

/-- The repeats of a name in a scope are its mentions after the first. -/
theorem filter_repeats (scope : List Mention) (name : String) :
    (repeats scope).filter (·.2.name = name) = pairs scope name :=
  filter_repeatsAfter [] scope name

/-- There is a pair for every mention but the first. -/
theorem length_pairs (scope : List Mention) (name : String) :
    (pairs scope name).length = (scope.map (·.name)).count name - 1 := by
  have hcount : (scope.map (·.name)).count name = (scope.filter (·.name = name)).length := by
    rw [List.count_eq_countP, List.countP_map, List.countP_eq_length_filter]
    rfl
  rw [hcount, pairs]
  split <;> rename_i hfilter <;> simp [hfilter]

theorem mem_pairs_of_mem_repeats {scope : List Mention} {pair : Mention × Mention}
    (h : pair ∈ repeats scope) : pair ∈ pairs scope pair.2.name := by
  rw [← filter_repeats]
  exact List.mem_filter.mpr ⟨h, decide_eq_true rfl⟩

theorem snd_mem_of_mem_pairs {scope : List Mention} {name : String} {pair : Mention × Mention}
    (h : pair ∈ pairs scope name) : pair.2 ∈ scope := by
  unfold pairs at h
  split at h
  · cases h
  · rename_i first later hfilter
    obtain ⟨again, hagain, rfl⟩ := List.mem_map.mp h
    have hmem : again ∈ scope.filter (·.name = name) := by
      rw [hfilter]
      exact List.mem_cons_of_mem first hagain
    exact List.mem_of_mem_filter hmem

end Mention

/-! ### The rules -/

/-- The rules that a name is given once in its scope. -/
inductive NameRule where
  /-- Names of operations. -/
  | operationNames
  /-- Names of fragments. -/
  | fragmentNames
  /-- Names of variables. -/
  | variableNames
  /-- Names of arguments. -/
  | argumentNames
  /-- Names of directives. -/
  | directiveUses

namespace NameRule

/-- The rule. -/
def rule : NameRule → RuleName
  | operationNames => .uniqueOperationNames
  | fragmentNames => .uniqueFragmentNames
  | variableNames => .uniqueVariableNames
  | argumentNames => .uniqueArgumentNames
  | directiveUses => .uniqueDirectivesPerLocation

/-- The names given in each scope of a rule, in the order of the text. -/
def scopes (schema : Schema) (d : Document) : NameRule → List (List Mention)
  | operationNames => [d.operations.filterMap fun o => o.name?.map fun name => ⟨name, o.ref⟩]
  | fragmentNames => [d.fragments.map fun f => ⟨f.name, f.ref⟩]
  | variableNames => d.operations.map fun o => o.declared.map fun v => ⟨v.name, v.ref⟩
  | argumentNames => d.argumentLists.map fun owner =>
      owner.2.map fun a => ⟨a.name, ⟨.argument, owner.1⟩⟩
  | directiveUses => d.directiveLists.map fun list =>
      (list.filter fun x => !Rule.isRepeatable schema x.name).map fun x => ⟨x.name, x.ref⟩

/-- What is said of a name given again. -/
def message (name : String) : NameRule → String
  | operationNames => Rule.onlyOne "operation" name
  | fragmentNames => Rule.onlyOne "fragment" name
  | variableNames => Rule.onlyOne "variable" name
  | argumentNames => Rule.onlyOne "argument" name
  | directiveUses => "The directive \"" ++ name ++ "\" can only be used once at this location."

/-- The nodes that are shown for a name given again: the first and the later one. Arguments have no
positions, and for them the later one stands alone. -/
def nodes (first again : Mention) : NameRule → List NodeRef
  | argumentNames => [again.node]
  | operationNames | fragmentNames | variableNames | directiveUses => [first.node, again.node]

/-- The diagnostic for a mention of a name and a later one. -/
def diagnostic (n : NameRule) (pair : Mention × Mention) : Diagnostic :=
  ⟨n.rule, n.message pair.2.name, n.nodes pair.1 pair.2⟩

/-- What is reported for a scope. -/
def reported (n : NameRule) (scope : List Mention) : List Diagnostic :=
  (Mention.repeats scope).map n.diagnostic

/-- What is due for a name in a scope. -/
def due (n : NameRule) (scope : List Mention) (name : String) : List Diagnostic :=
  (Mention.pairs scope name).map n.diagnostic

/-- A message tells which name it is about. -/
theorem message_inj (n : NameRule) {a b : String} : n.message a = n.message b ↔ a = b := by
  have hwrapped (before after : String) : before ++ a ++ after = before ++ b ++ after ↔ a = b := by
    rw [String.append_left_inj, String.append_right_inj]
  cases n with
  | operationNames | fragmentNames | variableNames | argumentNames => exact hwrapped _ "\"."
  | directiveUses => exact hwrapped _ _

/-- What is reported about a name in a scope is what is due. -/
theorem filter_reported (n : NameRule) (scope : List Mention) (name : String) :
    (n.reported scope).filter (·.message = n.message name) = n.due scope name := by
  rw [reported, List.filter_map, due, ← Mention.filter_repeats]
  refine congrArg (List.map n.diagnostic) (List.filter_congr fun pair _ => ?_)
  exact decide_eq_decide.mpr n.message_inj

/-- The finding for a mention of a name and a later one. -/
def finding (n : NameRule) (pair : Mention × Mention) : Finding :=
  ⟨n.message pair.2.name, n.nodes pair.1 pair.2⟩

/-- What a rule reports that looks at each scope for itself, where the walk announces it. -/
theorem diagnostics_announced {α : Type} {n : NameRule} {schema : Schema} {d : Document}
    {look : Setting → Visit → List Finding} {choose : Hook → Option α}
    {mentions : α → List Mention} (hreport : n.rule.report = Report.each look)
    (hlook : ∀ visit, look (.of schema d) visit =
      (choose visit.hook).elim [] fun a => (Mention.repeats (mentions a)).map n.finding)
    (hscopes : n.scopes schema d = (d.hooks.filterMap choose).map mentions) :
    (Validation.ofRules [n.rule]).diagnostics schema d =
      (n.scopes schema d).flatMap n.reported := by
  rw [Validation.diagnostics_each hreport hlook, hscopes, List.flatMap_map]
  refine List.flatMap_congr fun a _ => ?_
  rw [reported, List.map_map]
  rfl

/-- A rule alone reports what it reports for each scope. -/
theorem diagnostics_single (n : NameRule) (schema : Schema) (d : Document) :
    (Validation.ofRules [n.rule]).diagnostics schema d =
      (n.scopes schema d).flatMap n.reported := by
  cases n with
  | operationNames =>
    rw [rule, Validation.diagnostics_single]
    change List.map _ (Rule.uniqueOperationNames _ _).flatten = _
    rw [Rule.flatten_uniqueOperationNames, List.map_map, scopes, List.flatMap_singleton]
    rfl
  | fragmentNames =>
    rw [rule, Validation.diagnostics_single]
    change List.map _ (Rule.uniqueFragmentNames _ _).flatten = _
    rw [Rule.flatten_uniqueFragmentNames, List.map_map, scopes, List.flatMap_singleton]
    rfl
  | variableNames =>
    refine diagnostics_announced rfl (fun visit => ?_) (congrArg _ d.enteredOperation?_hooks.symm)
    obtain ⟨hook, scope⟩ := visit
    cases hook with
    | enter node => cases node <;> rfl
    | leave node | arguments position list | directives list => rfl
  | argumentNames =>
    refine diagnostics_announced rfl (fun visit => ?_) (congrArg _ d.arguments?_hooks.symm)
    obtain ⟨hook, scope⟩ := visit
    cases hook <;> rfl
  | directiveUses =>
    refine diagnostics_announced rfl (fun visit => ?_) (congrArg _ d.directives?_hooks.symm)
    obtain ⟨hook, scope⟩ := visit
    cases hook <;> rfl

end NameRule

/-- Each rule that a name is given once counts exactly within its scopes. What a run reports for it
is what is reported for the scopes, one after another. For a name that stands `k` times in a scope
these are `k - 1` diagnostics, one for every mention after the first together with the first, and
there are none besides. -/
theorem repeated_names_reported (n : NameRule) {rules : List RuleName} (h : n.rule ∈ rules)
    (schema : Schema) (d : Document) :
    ((Validation.ofRules rules).diagnostics schema d).filter (·.rule = n.rule) =
        (n.scopes schema d).flatMap n.reported ∧
      ∀ scope,
        (∀ name, (n.reported scope).filter (·.message = n.message name) = n.due scope name ∧
          (n.due scope name).length = (scope.map (·.name)).count name - 1) ∧
        ∀ x ∈ n.reported scope, ∃ mention ∈ scope, x ∈ n.due scope mention.name := by
  refine ⟨?_, fun scope => ⟨fun name => ⟨n.filter_reported scope name, ?_⟩, fun x hx => ?_⟩⟩
  · rw [Validation.filter_diagnostics h, n.diagnostics_single]
  · rw [NameRule.due, List.length_map, Mention.length_pairs]
  · obtain ⟨pair, hpair, rfl⟩ := List.mem_map.mp hx
    have hmem := Mention.mem_pairs_of_mem_repeats hpair
    exact ⟨pair.2, Mention.snd_mem_of_mem_pairs hmem, List.mem_map_of_mem hmem⟩

/-- A query with a field that has an argument three times, and a directive twice. One of the
directives has an argument twice. -/
def crowdedDocument : Document :=
  ⟨[.bare ⟨⟨⟨1, 1⟩, ⟨1, 47⟩⟩,
      [.field ⟨⟨1, 3⟩, none, "f", [⟨"a", .atom .null⟩, ⟨"a", .atom (.int 1)⟩, ⟨"a", .atom (.int 2)⟩],
        [⟨⟨1, 25⟩, "x", [⟨"b", .atom .null⟩, ⟨"b", .atom .null⟩]⟩, ⟨⟨1, 42⟩, "x", []⟩]⟩
        ⟨⟨1, 3⟩, ⟨1, 3⟩⟩ []]⟩], []⟩

/-- The argument of the field is reported twice, that of the directive once. -/
theorem repeated_names_reported_crowded :
    NameRule.argumentNames.rule ∈ RuleName.all ∧
      (Validation.full.diagnostics default crowdedDocument).filter
          (·.rule = .uniqueArgumentNames) =
        [⟨.uniqueArgumentNames, "There can be only one argument named \"a\".", [⟨.argument, ⟨1, 3⟩⟩]⟩,
          ⟨.uniqueArgumentNames, "There can be only one argument named \"a\".", [⟨.argument, ⟨1, 3⟩⟩]⟩,
          ⟨.uniqueArgumentNames, "There can be only one argument named \"b\".",
            [⟨.argument, ⟨1, 25⟩⟩]⟩] := by
  have hrule : NameRule.argumentNames.rule ∈ RuleName.all := by decide
  refine ⟨hrule, ?_⟩
  exact (repeated_names_reported .argumentNames hrule default crowdedDocument).1.trans (by decide)

end GraphQLCheck
