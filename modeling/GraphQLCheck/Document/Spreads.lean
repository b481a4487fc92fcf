import GraphQLCheck.Document.Basic

/-!
# References to fragments

The references to fragments inside a selection set, at any depth but not through the fragments that
they name. They are found set by set: the sets nested in one are put on a stack, and the last one
put there is searched next.
-/

namespace GraphQLCheck

namespace Selection

/-- The reference to a fragment that a selection is. -/
def spread? : Selection → Option FragmentSpread
  | spread node => some node
  | _ => none

/-- The selections inside a field or inline fragment. -/
def nested? : Selection → Option (List Selection)
  | field _ _ selections => some selections
  | spread _ => none
  | inline _ _ selections => some selections

mutual

/-- The number of sets in a selection. -/
def setCount : Selection → Nat
  | field _ _ selections => setCounts selections + 1
  | spread _ => 0
  | inline _ _ selections => setCounts selections + 1

/-- The number of sets nested in a set. -/
def setCounts : List Selection → Nat
  | [] => 0
  | item :: rest => item.setCount + setCounts rest

end

end Selection

namespace SelectionSet

/-- The number of sets on a stack and inside them. -/
def stackCount : List (List Selection) → Nat
  | [] => 0
  | items :: stack => Selection.setCounts items + 1 + stackCount stack

theorem stackCount_append (s t : List (List Selection)) :
    stackCount (s ++ t) = stackCount s + stackCount t := by
  induction s with
  | nil => simp [stackCount]
  | cons items s ih => simp only [List.cons_append, stackCount, ih]; omega

theorem stackCount_reverse (s : List (List Selection)) : stackCount s.reverse = stackCount s := by
  induction s with
  | nil => rfl
  | cons items s ih =>
    simp only [List.reverse_cons, stackCount_append, stackCount, ih]
    omega

/-- The references to fragments directly in a set. -/
def directSpreads (items : List Selection) : List FragmentSpread :=
  items.filterMap Selection.spread?

/-- The sets directly in a set. -/
def directSets (items : List Selection) : List (List Selection) :=
  items.filterMap Selection.nested?

/-- The sets directly in a set hold all sets nested in it. -/
theorem stackCount_directSets (items : List Selection) :
    stackCount (directSets items) = Selection.setCounts items := by
  simp only [directSets]
  induction items with
  | nil => rfl
  | cons item rest ih =>
    cases item <;>
      simp [List.filterMap_cons, Selection.nested?, Selection.setCounts, Selection.setCount,
        stackCount, ih]

/-- The references to fragments in the sets of a stack, the top of the stack first. -/
def spreadsOf : List (List Selection) → List FragmentSpread
  | [] => []
  | items :: stack => directSpreads items ++ spreadsOf ((directSets items).reverse ++ stack)
termination_by stack => stackCount stack
decreasing_by
  rw [stackCount_append, stackCount_reverse, stackCount_directSets]
  simp [stackCount]

/-- The references to fragments inside a selection set, at any depth. -/
def spreads (set : SelectionSet) : List FragmentSpread := spreadsOf [set.items]

end SelectionSet

end GraphQLCheck
