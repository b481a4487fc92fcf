import GraphQLCheck.Proofs.Occurrences

/-!
# The references nested in a set

The references to fragments in a selection set are collected in a loop: sets that are still to be
searched are kept on a stack, which grows while it is worked through. `SpreadSearch` is that loop,
round by round.

## What is proved

* `SpreadSearch.ends_iff` — the loop comes to an end, as each round takes one set off those that are
  on the stack and inside them, and it ends with what `SelectionSet.spreads` gives.
* `Selection.mem_placedSpread_iff` — what a recursion in the order of the text collects is what
  stands in the set, each reference with its address.
* `nested_spreads_found_once` — the loop finds what the recursion collects, each reference once.
-/

namespace GraphQLCheck

open scoped List

/-! ### Where references stand -/

/-- A reference to a fragment stands at an address in a selection that is at an address itself: the
reference is the selection, or stands in the own set of the field or inline fragment that it is. The
fragment referred to does not matter. -/
inductive Selection.SpreadAt : Address → Selection → Address → FragmentSpread → Prop where
  /-- The selection is the reference. -/
  | spread {address : Address} {s : FragmentSpread} : SpreadAt address (.spread s) address s
  /-- It stands in the own set of a field. -/
  | field {address x : Address} {node : Field} {span : Span} {own : List Selection} {i : ℕ}
      {item : Selection} {s : FragmentSpread} :
      own[i]? = some item → SpreadAt (i :: address) item x s →
      SpreadAt address (.field node span own) x s
  /-- It stands in the set of an inline fragment. -/
  | inline {address x : Address} {node : InlineFragment} {span : Span} {own : List Selection}
      {i : ℕ} {item : Selection} {s : FragmentSpread} :
      own[i]? = some item → SpreadAt (i :: address) item x s →
      SpreadAt address (.inline node span own) x s

/-- A reference to a fragment stands at an address in a set. -/
def SelectionSet.SpreadAt (set : SelectionSet) (address : Address) (s : FragmentSpread) : Prop :=
  ∃ (i : ℕ) (item : Selection), set.items[i]? = some item ∧ item.SpreadAt [i] address s

namespace Selection

theorem placedSpreads_eq_flatMap (address : Address) (index : ℕ) (items : List Selection) :
    placedSpreads address index items =
      (items.zipIdx index).flatMap fun p => placedSpread (p.2 :: address) p.1 := by
  induction items generalizing index with
  | nil => rfl
  | cons item rest ih => rw [placedSpreads, List.zipIdx_cons, List.flatMap_cons, ih]

theorem mem_placedSpreads_iff {address : Address} {items : List Selection}
    {p : Address × FragmentSpread} :
    p ∈ placedSpreads address 0 items ↔
      ∃ i item, items[i]? = some item ∧ p ∈ placedSpread (i :: address) item := by
  rw [placedSpreads_eq_flatMap, List.mem_flatMap]
  simp only [Prod.exists, List.mem_zipIdx_iff_getElem?]
  exact exists_comm

/-- The recursion in the order of the text meets the references that stand in a selection. -/
theorem mem_placedSpread_iff {address x : Address} {item : Selection} {s : FragmentSpread} :
    (x, s) ∈ placedSpread address item ↔ item.SpreadAt address x s := by
  constructor
  · intro h
    induction item using set_induction generalizing address with
    | field node span own ih =>
      obtain ⟨i, item, hitem, h⟩ := mem_placedSpreads_iff.mp h
      exact .field hitem (ih item (List.mem_of_getElem? hitem) h)
    | spread node =>
      obtain ⟨rfl, rfl⟩ := Prod.mk.inj (List.mem_singleton.mp h)
      exact .spread
    | inline node span own ih =>
      obtain ⟨i, item, hitem, h⟩ := mem_placedSpreads_iff.mp h
      exact .inline hitem (ih item (List.mem_of_getElem? hitem) h)
  · intro h
    induction h with
    | spread => exact List.mem_singleton_self _
    | field hitem _ ih => exact mem_placedSpreads_iff.mpr ⟨_, _, hitem, ih⟩
    | inline hitem _ ih => exact mem_placedSpreads_iff.mpr ⟨_, _, hitem, ih⟩

end Selection

/-! ### The loop -/

/-- The search for references, between two rounds. -/
structure SpreadSearch where
  /-- The sets that are still to be searched, the next one first. -/
  pending : List (List Selection)
  /-- The references found, in the order in which they were found. -/
  found : List FragmentSpread

namespace SpreadSearch

/-- At first there is one set to search. -/
def start (set : SelectionSet) : SpreadSearch := ⟨[set.items], []⟩

/-- Look at a selection: a reference is found, and a set inside has to be searched next. -/
def look (s : SpreadSearch) : Selection → SpreadSearch
  | .field _ _ own => { s with pending := own :: s.pending }
  | .spread node => { s with found := s.found ++ [node] }
  | .inline _ _ own => { s with pending := own :: s.pending }

/-- A round: the next set is taken and its selections are looked at, one after another. There is no
round if no set is left. -/
def round? (s : SpreadSearch) : Option SpreadSearch :=
  match s.pending with
  | [] => none
  | items :: pending => some (items.foldl look { s with pending })

/-- The search comes to an end after a number of rounds, with all that it has found. -/
inductive Ends : SpreadSearch → ℕ → List FragmentSpread → Prop where
  /-- There is no round left. -/
  | done {s : SpreadSearch} : s.round? = none → Ends s 0 s.found
  /-- There is a round, and the search comes to an end after it. -/
  | round {s s' : SpreadSearch} {rounds : ℕ} {found : List FragmentSpread} :
      s.round? = some s' → Ends s' rounds found → Ends s (rounds + 1) found

open SelectionSet

variable {s s' : SpreadSearch} {rounds : ℕ} {found : List FragmentSpread}

theorem foldl_look (s : SpreadSearch) (items : List Selection) :
    items.foldl look s = ⟨(directSets items).reverse ++ s.pending,
      s.found ++ directSpreads items⟩ := by
  unfold directSets directSpreads
  induction items generalizing s with
  | nil => simp
  | cons item rest ih =>
    rw [List.foldl_cons, ih]
    cases item <;> simp [look, List.filterMap_cons, Selection.nested?, Selection.spread?]

theorem round?_eq_some_iff :
    s.round? = some s' ↔ ∃ items pending, s.pending = items :: pending ∧
      s' = ⟨(directSets items).reverse ++ pending,
        s.found ++ directSpreads items⟩ := by
  unfold round?
  cases hpending : s.pending with
  | nil => simp
  | cons items pending => simp [foldl_look, eq_comm]

theorem round?_eq_none_iff : s.round? = none ↔ s.pending = [] := by
  unfold round?
  split <;> simp_all

/-- A round takes one set off those that are on the stack and inside them. -/
theorem stackCount_round (h : s.round? = some s') :
    stackCount s.pending = stackCount s'.pending + 1 := by
  obtain ⟨items, pending, hpending, rfl⟩ := round?_eq_some_iff.mp h
  rw [hpending, stackCount, stackCount_append,
    stackCount_reverse, stackCount_directSets]
  omega

/-- A round changes nothing about what is found in the end. -/
theorem spreadsOf_round (h : s.round? = some s') :
    s'.found ++ spreadsOf s'.pending = s.found ++ spreadsOf s.pending := by
  obtain ⟨items, pending, hpending, rfl⟩ := round?_eq_some_iff.mp h
  rw [hpending, spreadsOf, List.append_assoc]

theorem Ends.eq (h : s.Ends rounds found) :
    rounds = stackCount s.pending ∧
      found = s.found ++ spreadsOf s.pending := by
  induction h with
  | done hnone =>
    rw [round?_eq_none_iff.mp hnone, spreadsOf, List.append_nil]
    exact ⟨rfl, rfl⟩
  | round hround _ ih =>
    obtain ⟨rfl, rfl⟩ := ih
    exact ⟨(stackCount_round hround).symm, spreadsOf_round hround⟩

theorem exists_ends (s : SpreadSearch) : ∃ rounds found, s.Ends rounds found := by
  -- By induction on the number of sets on the stack and inside them.
  induction hcount : stackCount s.pending using Nat.strongRecOn generalizing s with
  | _ count ih =>
    cases hround : s.round? with
    | none => exact ⟨0, s.found, .done hround⟩
    | some s' =>
      have hless : stackCount s'.pending < count := by
        rw [← hcount, stackCount_round hround]
        exact Nat.lt_succ_self _
      obtain ⟨rounds, found, hends⟩ := ih _ hless s' rfl
      exact ⟨rounds + 1, found, .round hround hends⟩

/-- The search comes to an end in one way only: after as many rounds as there are sets, with what
the sets on the stack yield. -/
theorem ends_iff (s : SpreadSearch) :
    s.Ends rounds found ↔ rounds = stackCount s.pending ∧
      found = s.found ++ spreadsOf s.pending := by
  refine ⟨Ends.eq, ?_⟩
  rintro ⟨rfl, rfl⟩
  obtain ⟨rounds, found, hends⟩ := s.exists_ends
  obtain ⟨rfl, rfl⟩ := hends.eq
  exact hends

end SpreadSearch

/-- The loop that collects the references in a set comes to an end, after one round for the set and
for each set nested in it. What it has found then is a rearrangement of what a recursion collects in
the order of the text: each reference that stands in the set, at whatever depth, once for its
address. It has found nothing exactly if no reference stands in the set. -/
theorem nested_spreads_found_once (set : SelectionSet) :
    (∀ rounds found, (SpreadSearch.start set).Ends rounds found ↔
      rounds = Selection.setCounts set.items + 1 ∧ found = set.spreads) ∧
    set.spreads ~ Selection.spreadsWithin set.items ∧
    (∃ placed : List (Address × FragmentSpread), placed.map (·.2) = set.spreads ∧
      (placed.map (·.1)).Nodup ∧ ∀ address s, (address, s) ∈ placed ↔ set.SpreadAt address s) ∧
    (set.spreads = [] ↔ ∀ address s, ¬ set.SpreadAt address s) := by
  obtain ⟨placed, hmap, hperm⟩ := set.exists_placed_spreads
  have hmem (address : Address) (s : FragmentSpread) :
      (address, s) ∈ placed ↔ set.SpreadAt address s := by
    rw [hperm.mem_iff, Selection.mem_placedSpreads_iff]
    simp only [Selection.mem_placedSpread_iff]
    rfl
  refine ⟨fun rounds found => ?_, set.spreads_perm, ⟨placed, hmap, ?_, hmem⟩, ?_⟩
  · exact (SpreadSearch.start set).ends_iff
  · exact (hperm.map _).nodup_iff.mpr (Selection.nodup_placedSpreads set.items [] 0)
  · rw [← hmap, List.map_eq_nil_iff, List.eq_nil_iff_forall_not_mem, Prod.forall]
    simp only [hmem]

end GraphQLCheck
