import GraphQLCheck.Proofs.Overlap.Comparisons

/-!
# The calls of the search for conflicts

The search without the depths that are given to it. A `Task` is a call of one of its functions;
`calls` says which calls it makes in turn and in what state the first of them starts, and `returns`
what becomes of what they find. Nothing here counts how deep calls are nested, so a task need not
come to an end: it does if there is a finite tree of calls, which is what `Runs` asks for.

All states that calls start in are those of `Inside`. `Settles` puts together that calls come to an
end and that what is remembered is true in all these states.
-/

namespace GraphQLCheck.Overlap

/-- A call of the search. -/
inductive Task where
  /-- Compare two fields. -/
  | fields (exclusive : Bool) (c : Candidate)
  /-- Forget which fragments were met. -/
  | afresh
  /-- Compare the fields of a set with those of a fragment. -/
  | fragment (exclusive : Bool) (entry : Entry) (name : String)
  /-- Compare two fragments. -/
  | pair (exclusive : Bool) (names : String × String)
  /-- Look for conflicts inside a set. -/
  | within (parent? : Option TypeDefinition) (address : Address) (items : List Selection)

/-- What calls pass on: the fragments met, and what is remembered. -/
abbrev CallState := List String × Memory

namespace Task

/-- The calls that compare what two sets select. -/
def ofSets (exclusive : Bool) (entry other : Entry) : List Task :=
  (Candidate.between entry.fields other.fields).map (fields exclusive) ++
    (afresh :: other.fragments.map (fragment exclusive entry)) ++
    (afresh :: entry.fragments.map (fragment exclusive other)) ++
    (entry.fragments.flatMap fun x => other.fragments.map (x, ·)).map (pair exclusive)

/-- The calls that compare the fragments that a set refers to with its fields and with one
another. -/
def ofFragments (entry : Entry) : List String → List Task
  | [] => []
  | name :: rest =>
    [fragment false entry name] ++ (rest.map (name, ·)).map (pair false) ++ ofFragments entry rest

variable (schema : Schema) (d : Document)

/-- The calls that a call makes one after another, and the state in which the first one starts. -/
def calls : Task → CallState → List Task × CallState
  | fields exclusive c, (names, m) =>
    let exclusive := exclusive || fromDifferentObjects c.first c.second
    match ownReason? schema exclusive c.first c.second with
    | some _ => ([], names, m)
    | none =>
      if c.first.items.isEmpty || c.second.items.isEmpty then ([], names, m)
      else
        let (entry, m) := m.entry schema (c.first.type? schema) c.first.address c.first.items
        let (other, m) := m.entry schema (c.second.type? schema) c.second.address c.second.items
        (ofSets exclusive entry other, names, m)
  | afresh, (_, m) => ([], [], m)
  | fragment exclusive entry name, (names, m) =>
    if name ∈ names then ([], names, m)
    else
      match d.placedFragment? name with
      | none => ([], name :: names, m)
      | some (address, f) =>
        let (other, m) := fragmentEntry schema address f m
        if other.address = entry.address then ([], name :: names, m)
        else
          ((Candidate.between entry.fields other.fields).map (fields exclusive) ++
            other.fragments.map (fragment exclusive entry), name :: names, m)
  | pair exclusive (a, b), (names, m) =>
    if a = b then ([], names, m)
    else if m.compared.contains a b exclusive then ([], names, m)
    else
      let m := { m with compared := m.compared.insert a b exclusive }
      match d.placedFragment? a, d.placedFragment? b with
      | some (address, f), some (address', g) =>
        let (entry, m) := fragmentEntry schema address f m
        let (other, m) := fragmentEntry schema address' g m
        ((Candidate.between entry.fields other.fields).map (fields exclusive) ++
          (other.fragments.map (a, ·)).map (pair exclusive) ++
          (entry.fragments.map (·, b)).map (pair exclusive), names, m)
      | _, _ => ([], names, m)
  | within parent? address items, (names, m) =>
    let (entry, m) := m.entry schema parent? address items
    ((Candidate.within entry.fields).map (fields false) ++
      (afresh :: ofFragments entry entry.fragments), names, m)

/-- What a call finds and passes on, given the state in which it starts and what its own calls find
and pass on. The fragments met are those of the set at hand. -/
def returns : Task → CallState → List Conflict × CallState → List Conflict × CallState
  | fields exclusive c, (names, _), (parts, _, m) =>
    match ownReason? schema (exclusive || fromDifferentObjects c.first c.second) c.first
      c.second with
    | some reason => ([⟨c.name, reason, [c.first.node], [c.second.node]⟩], names, m)
    | none => (if parts.isEmpty then [] else [Conflict.ofParts c parts], names, m)
  | within _ _ _, (names, _), (found, _, m) => (found, names, m)
  | _, _, result => result

theorem returns_memory (t : Task) (s : CallState) (inner : List Conflict × CallState) :
    (t.returns schema s inner).2.2 = inner.2.2 := by
  cases t with
  | fields exclusive c =>
    rw [returns]
    split <;> rfl
  | _ => rfl

section Equations

variable {schema : Schema} {d : Document} {exclusive : Bool} {names : List String} {m : Memory}

/-- Two fields for which nothing but their own selections matters. -/
theorem calls_fields {c : Candidate}
    (hreason : ownReason? schema (exclusive || fromDifferentObjects c.first c.second) c.first
      c.second = none) (hitems : ¬ (c.first.items.isEmpty || c.second.items.isEmpty) = true)
    {entry other : Entry × Memory}
    (hentry : m.entry schema (c.first.type? schema) c.first.address c.first.items = entry)
    (hother : entry.2.entry schema (c.second.type? schema) c.second.address c.second.items = other) :
    calls schema d (fields exclusive c) (names, m) =
      (ofSets (exclusive || fromDifferentObjects c.first c.second) entry.1 other.1, names,
        other.2) := by
  subst hentry hother
  simp only [calls, hreason]
  rw [if_neg hitems]

theorem returns_fields_some {c : Candidate} {reason : Reason} {result : List Conflict × CallState}
    (hreason : ownReason? schema (exclusive || fromDifferentObjects c.first c.second) c.first
      c.second = some reason) :
    returns schema (fields exclusive c) (names, m) result =
      ([⟨c.name, reason, [c.first.node], [c.second.node]⟩], names, result.2.2) := by
  simp only [returns, hreason]

theorem returns_fields_none {c : Candidate} {result : List Conflict × CallState}
    (hreason : ownReason? schema (exclusive || fromDifferentObjects c.first c.second) c.first
      c.second = none) :
    returns schema (fields exclusive c) (names, m) result =
      (if result.1.isEmpty then [] else [Conflict.ofParts c result.1], names, result.2.2) := by
  simp only [returns, hreason]

/-- A fragment that is met for the first time. -/
theorem calls_fragment {e : Entry} {name : String} {place : Address} {f : FragmentDefinition}
    {other : Entry × Memory} (hnew : name ∉ names)
    (hplaced : d.placedFragment? name = some (place, f))
    (hother : fragmentEntry schema place f m = other) (hne : other.1.address ≠ e.address) :
    calls schema d (fragment exclusive e name) (names, m) =
      ((Candidate.between e.fields other.1.fields).map (fields exclusive) ++
        other.1.fragments.map (fragment exclusive e), name :: names, other.2) := by
  subst hother
  simp only [calls, if_neg hnew, hplaced, if_neg hne]

/-- Two fragments that are compared for the first time. -/
theorem calls_pair {a b : String} {place place' : Address} {f g : FragmentDefinition}
    {entry other : Entry × Memory} (hne : a ≠ b)
    (hnew : ¬ m.compared.contains a b exclusive = true)
    (ha : d.placedFragment? a = some (place, f)) (hb : d.placedFragment? b = some (place', g))
    (hentry : fragmentEntry schema place f
      { m with compared := m.compared.insert a b exclusive } = entry)
    (hother : fragmentEntry schema place' g entry.2 = other) :
    calls schema d (pair exclusive (a, b)) (names, m) =
      ((Candidate.between entry.1.fields other.1.fields).map (fields exclusive) ++
        (other.1.fragments.map (a, ·)).map (pair exclusive) ++
        (entry.1.fragments.map (·, b)).map (pair exclusive), names, other.2) := by
  subst hentry hother
  simp only [calls, if_neg hne, if_neg hnew, ha, hb]

end Equations

end Task

/-! ### Calls that come to an end -/

/-- The tasks, done one after another from a state, come to an end with a result: there is a finite
tree of calls. -/
inductive Runs (schema : Schema) (d : Document) :
    List Task → CallState → List Conflict × CallState → Prop where
  /-- There is nothing left to do. -/
  | nil {s : CallState} : Runs schema d [] s ([], s)
  /-- The calls of the first task come to an end, and then the others. -/
  | cons {t : Task} {rest : List Task} {s : CallState} {inner later : List Conflict × CallState}
      (hcalls : Runs schema d (t.calls schema d s).1 (t.calls schema d s).2 inner)
      (hrest : Runs schema d rest (t.returns schema s inner).2 later) :
      Runs schema d (t :: rest) s ((t.returns schema s inner).1 ++ later.1, later.2)

/-- In the course of tasks from a state a call is made in another state. -/
inductive Inside (schema : Schema) (d : Document) :
    List Task → CallState → Task → CallState → Prop where
  /-- The first task. -/
  | here {t : Task} {rest : List Task} {s : CallState} : Inside schema d (t :: rest) s t s
  /-- One of the calls of the first task. -/
  | inner {t u : Task} {rest : List Task} {s s' : CallState}
      (h : Inside schema d (t.calls schema d s).1 (t.calls schema d s).2 u s') :
      Inside schema d (t :: rest) s u s'
  /-- A call after the first task. -/
  | later {t u : Task} {rest : List Task} {s s' : CallState} {inner : List Conflict × CallState}
      (hcalls : Runs schema d (t.calls schema d s).1 (t.calls schema d s).2 inner)
      (h : Inside schema d rest (t.returns schema s inner).2 u s') :
      Inside schema d (t :: rest) s u s'

section Runs

variable {schema : Schema} {d : Document} {t u : Task} {tasks more : List Task} {s s' : CallState}
  {result result' : List Conflict × CallState}

/-- There is one result at most. -/
theorem Runs.unique (h : Runs schema d tasks s result) (h' : Runs schema d tasks s result') :
    result = result' := by
  induction h generalizing result' with
  | nil =>
    cases h'
    rfl
  | cons _ _ ihCalls ihRest =>
    cases h' with
    | cons hcalls hrest =>
      obtain rfl := ihCalls hcalls
      rw [ihRest hrest]

theorem Runs.append (h : Runs schema d tasks s result) (h' : Runs schema d more result.2 result') :
    Runs schema d (tasks ++ more) s (result.1 ++ result'.1, result'.2) := by
  induction h with
  | nil => exact h'
  | cons hcalls _ _ ihRest =>
    rw [List.append_assoc]
    exact .cons hcalls (ihRest h')

/-- A call in the course of tasks and more tasks is one in the course of the former or the latter. -/
theorem Inside.of_append (hruns : Runs schema d tasks s result)
    (h : Inside schema d (tasks ++ more) s u s') :
    Inside schema d tasks s u s' ∨ Inside schema d more result.2 u s' := by
  induction hruns with
  | nil => exact .inr h
  | cons hcalls _ _ ihRest =>
    cases h with
    | here => exact .inl .here
    | inner h => exact .inl (.inner h)
    | later hcalls' h =>
      obtain rfl := hcalls.unique hcalls'
      exact (ihRest h).imp_left (.later hcalls)

end Runs

/-! ### Calls that come to an end and remember what is true -/

/-- The tasks come to an end with a result, and in all states on the way and at the end what is
remembered is true. -/
structure Settles (schema : Schema) (d : Document) (tasks : List Task) (s : CallState)
    (result : List Conflict × CallState) : Prop where
  /-- The tasks come to an end. -/
  runs : Runs schema d tasks s result
  /-- The memory is true at the end. -/
  faithful : Faithful schema d result.2.2
  /-- The memory is true wherever a call is made. -/
  inside : ∀ {t s'}, Inside schema d tasks s t s' → Faithful schema d s'.2

/-- A search that does not look at the fragments met. -/
def onMemory (find : Memory → List Conflict × Memory) (s : CallState) :
    List Conflict × CallState :=
  ((find s.2).1, s.1, (find s.2).2)

theorem eq_of_onMemory {find find' : Memory → List Conflict × Memory} {s : CallState}
    (h : onMemory find s = onMemory find' s) : find s.2 = find' s.2 := by
  obtain ⟨hfound, hstate⟩ := Prod.mk.inj h
  exact Prod.ext hfound (Prod.mk.inj hstate).2

theorem forEach_onMemory {α : Type} (find : α → Memory → List Conflict × Memory) (list : List α)
    (s : CallState) :
    forEach (fun a => onMemory (find a)) list s = onMemory (forEach find list) s := by
  induction list generalizing s with
  | nil => rfl
  | cons a list ih =>
    have hrest := ih (s.1, (find a s.2).2)
    exact congrArg (fun rest : List Conflict × CallState => ((find a s.2).1 ++ rest.1, rest.2)) hrest

namespace Settles

variable {schema : Schema} {d : Document} {t : Task} {tasks more : List Task} {s : CallState}
  {result result' : List Conflict × CallState}

theorem nil (hs : Faithful schema d s.2) : Settles schema d [] s ([], s) :=
  ⟨.nil, hs, nofun⟩

theorem append (h : Settles schema d tasks s result) (h' : Settles schema d more result.2 result') :
    Settles schema d (tasks ++ more) s (result.1 ++ result'.1, result'.2) :=
  ⟨h.runs.append h'.runs, h'.faithful,
    fun hinside => (Inside.of_append h.runs hinside).elim h.inside h'.inside⟩

/-- A task settles if its calls do. -/
theorem single {s' : CallState} (hs : Faithful schema d s.2)
    (hcalls : t.calls schema d s = (tasks, s')) (h : Settles schema d tasks s' result) :
    Settles schema d [t] s (t.returns schema s result) where
  runs := by
    have hruns : Runs schema d (t.calls schema d s).1 (t.calls schema d s).2 result := by
      rw [hcalls]
      exact h.runs
    simpa only [List.append_nil] using hruns.cons .nil
  faithful := by
    rw [Task.returns_memory]
    exact h.faithful
  inside hinside := by
    cases hinside with
    | here => exact hs
    | inner hinner =>
      rw [hcalls] at hinner
      exact h.inside hinner
    | later _ hlater => cases hlater

/-- A task that makes no calls settles. -/
theorem leaf {s' : CallState} (hs : Faithful schema d s.2) (hs' : Faithful schema d s'.2)
    (hcalls : t.calls schema d s = ([], s')) :
    Settles schema d [t] s (t.returns schema s ([], s')) :=
  single hs hcalls (nil hs')

theorem forEach {α : Type} {find : α → CallState → List Conflict × CallState} {t : α → Task}
    (list : List α) (hs : Faithful schema d s.2)
    (h : ∀ a ∈ list, ∀ s, Faithful schema d s.2 → Settles schema d [t a] s (find a s)) :
    Settles schema d (list.map t) s (Overlap.forEach find list s) := by
  induction list generalizing s with
  | nil => exact nil hs
  | cons a list ih =>
    have hfirst := h a List.mem_cons_self s hs
    exact hfirst.append (ih hfirst.faithful fun b hb => h b (List.mem_cons_of_mem a hb))

theorem forEachOnMemory {α : Type} {find : α → Memory → List Conflict × Memory} {t : α → Task}
    (list : List α) (hs : Faithful schema d s.2)
    (h : ∀ a ∈ list, ∀ s, Faithful schema d s.2 →
      Settles schema d [t a] s (onMemory (find a) s)) :
    Settles schema d (list.map t) s (onMemory (Overlap.forEach find list) s) := by
  rw [← forEach_onMemory]
  exact forEach list hs h

end Settles

end GraphQLCheck.Overlap
