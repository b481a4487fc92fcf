import GraphQLCheck.Proofs.SpreadGraph
import GraphQLCheck.Proofs.UniqueNames
import Mathlib.Data.List.Lex
import Mathlib.Data.Set.Subsingleton

/-!
# The fields at the top of a subscription

A field is at the top of a set if it stands in the set itself, in an inline fragment of it or in a
fragment that it refers to, and so on. The search for them enters each fragment once, where it first
meets a reference to it. Here it is shown that nothing is missed by that: of the fields under one
response name it has the one that is met first if every reference is followed wherever it stands,
only not inside the fragment that it names.

Where a field is met is said by its `Route`: the numbers of the selections on the way to it. Routes
in lexicographic order are the order of a walk in depth.

## What is proved

* `Runs` — the search as its calls, without a depth; `runs_selections` says that the depth that is
  given suffices.
* `Runs.spec` — what a call adds: the first fields met under the response names that are new. The
  invariant is that fragments entered before are dealt with, except those that the call is inside
  of (`Settled`).
* `subscriptions_judged_by_top_fields` — what the rule reports.
-/

namespace GraphQLCheck

/-- The way to a field: the number of a selection in each set that is gone through. -/
abbrev Route := List ℕ

namespace Document

/-- A field is at the top of a set. -/
inductive AtTop (d : Document) : List Selection → Field → Prop where
  /-- It stands in the set. -/
  | field {items own : List Selection} {f : Field} {span : Span} :
      .field f span own ∈ items → AtTop d items f
  /-- It is at the top of an inline fragment. -/
  | inline {items own : List Selection} {f : Field} {node : InlineFragment} {span : Span} :
      .inline node span own ∈ items → AtTop d own f → AtTop d items f
  /-- It is at the top of a fragment that is referred to. -/
  | fragment {items : List Selection} {f : Field} {node : FragmentSpread}
      {g : FragmentDefinition} :
      .spread node ∈ items → d.fragment? node.name = some g → AtTop d g.selectionSet.items f →
      AtTop d items f

/-- A field is met on a route through a set, where references are followed but for those to the
fragments that one is inside of. -/
inductive MetAt (d : Document) : List String → List Selection → Route → Field → Prop where
  /-- The first selection is the field. -/
  | field {inside : List String} {f : Field} {span : Span} {own rest : List Selection} :
      MetAt d inside (.field f span own :: rest) [0] f
  /-- It is met in the first selection, an inline fragment. -/
  | inline {inside : List String} {node : InlineFragment} {span : Span}
      {own rest : List Selection} {route : Route} {f : Field} :
      MetAt d inside own route f → MetAt d inside (.inline node span own :: rest) (0 :: route) f
  /-- It is met in the fragment that the first selection refers to. -/
  | fragment {inside : List String} {node : FragmentSpread} {g : FragmentDefinition}
      {rest : List Selection} {route : Route} {f : Field} :
      node.name ∉ inside → d.fragment? node.name = some g →
      MetAt d (node.name :: inside) g.selectionSet.items route f →
      MetAt d inside (.spread node :: rest) (0 :: route) f
  /-- It is met in a later selection. -/
  | later {inside : List String} {item : Selection} {rest : List Selection} {i : ℕ} {route : Route}
      {f : Field} :
      MetAt d inside rest (i :: route) f → MetAt d inside (item :: rest) ((i + 1) :: route) f

end Document

namespace Route

/-- The route to the same place if there is one more selection in front. -/
def later : Route → Route
  | [] => []
  | i :: route => (i + 1) :: route

theorem later_strictMono : StrictMono later := by
  intro r q h
  cases q with
  | nil => exact absurd h (List.not_lt_nil r)
  | cons j q =>
    cases r with
    | nil => exact List.nil_lt_cons _ _
    | cons i r =>
      rw [later, later, List.cons_lt_cons_iff] at *
      rcases h with h | ⟨rfl, h⟩
      · exact .inl (Nat.succ_lt_succ h)
      · exact .inr ⟨rfl, h⟩

theorem cons_strictMono (i : ℕ) : StrictMono fun r : Route => i :: r :=
  fun _ _ h => List.cons_lt_cons_iff.mpr (.inr ⟨rfl, h⟩)

end Route

namespace Document

variable {d : Document} {inside : List String} {rest own : List Selection} {route : Route}
  {f : Field}

/-! ### Where fields are met -/

theorem MetAt.atTop {items : List Selection} (h : d.MetAt inside items route f) :
    d.AtTop items f := by
  induction h with
  | field => exact .field List.mem_cons_self
  | inline _ ih => exact .inline List.mem_cons_self ih
  | fragment _ hg _ ih => exact .fragment List.mem_cons_self hg ih
  | later _ ih =>
    cases ih with
    | field hmem => exact .field (List.mem_cons_of_mem _ hmem)
    | inline hmem h => exact .inline (List.mem_cons_of_mem _ hmem) h
    | fragment hmem hg h => exact .fragment (List.mem_cons_of_mem _ hmem) hg h

/-- There is one field at the end of a route. -/
theorem MetAt.unique {items : List Selection} {g : Field} (h : d.MetAt inside items route f)
    (h' : d.MetAt inside items route g) : f = g := by
  induction h with
  | field =>
    cases h'
    rfl
  | inline _ ih =>
    cases h' with
    | inline h' => exact ih h'
  | fragment _ hdefined _ ih =>
    cases h' with
    | fragment _ hdefined' h' =>
      obtain rfl := Option.some.inj (hdefined.symm.trans hdefined')
      exact ih h'
  | later _ ih =>
    cases h' with
    | later h' => exact ih h'

theorem MetAt.exists_cons {items : List Selection} (h : d.MetAt inside items route f) :
    ∃ i r, route = i :: r := by
  cases h <;> exact ⟨_, _, rfl⟩

/-- A field is met in the first selection or in a later one. -/
theorem metAt_cons_iff {item : Selection} :
    d.MetAt inside (item :: rest) route f ↔
      d.MetAt inside [item] route f ∨ ∃ r, r.later = route ∧ d.MetAt inside rest r f := by
  constructor
  · intro h
    cases h with
    | field => exact .inl .field
    | inline h => exact .inl (.inline h)
    | fragment hnot hg h => exact .inl (.fragment hnot hg h)
    | @later _ _ _ i r _ h => exact .inr ⟨i :: r, rfl, h⟩
  · rintro (h | ⟨r, rfl, h⟩)
    · cases h with
      | field => exact .field
      | inline h => exact .inline h
      | fragment hnot hg h => exact .fragment hnot hg h
      | later h => cases h
    · obtain ⟨i, q, rfl⟩ := h.exists_cons
      exact .later h

theorem metAt_field_iff {node : Field} {span : Span} :
    d.MetAt inside [.field node span own] route f ↔ route = [0] ∧ f = node := by
  constructor
  · intro h
    cases h with
    | field => exact ⟨rfl, rfl⟩
    | later h => cases h
  · rintro ⟨rfl, rfl⟩
    exact .field

theorem metAt_inline_iff {node : InlineFragment} {span : Span} :
    d.MetAt inside [.inline node span own] route f ↔
      ∃ r, 0 :: r = route ∧ d.MetAt inside own r f := by
  constructor
  · intro h
    cases h with
    | inline h => exact ⟨_, rfl, h⟩
    | later h => cases h
  · rintro ⟨r, rfl, h⟩
    exact .inline h

theorem metAt_spread_iff {node : FragmentSpread} {g : FragmentDefinition}
    (hnot : node.name ∉ inside) (hg : d.fragment? node.name = some g) :
    d.MetAt inside [.spread node] route f ↔
      ∃ r, 0 :: r = route ∧ d.MetAt (node.name :: inside) g.selectionSet.items r f := by
  constructor
  · intro h
    cases h with
    | fragment _ hg' h =>
      obtain rfl := Option.some.inj (hg.symm.trans hg')
      exact ⟨_, rfl, h⟩
    | later h => cases h
  · rintro ⟨r, rfl, h⟩
    exact .fragment hnot hg h

/-- What is met in the first selection comes before what is met in a later one. -/
theorem MetAt.lt_later {item : Selection} {r : Route} {g : Field}
    (h : d.MetAt inside [item] route f) (hlater : d.MetAt inside rest r g) : route < r.later := by
  obtain ⟨i, q, rfl⟩ := hlater.exists_cons
  have hzero : ∃ q', route = 0 :: q' := by
    cases h with
    | later h => cases h
    | _ => exact ⟨_, rfl⟩
  obtain ⟨q', rfl⟩ := hzero
  exact List.cons_lt_cons_iff.mpr (.inl (Nat.succ_pos i))

end Document

namespace TopFields

variable {d : Document} {items : List Selection} {top mid result : TopFields} {name : String}

/-! ### The calls of the search -/

/-- A fragment is marked as followed. -/
def mark (top : TopFields) (name : String) : TopFields :=
  { top with followed := name :: top.followed }

/-- The search through selections as the calls that it makes. -/
inductive Runs (d : Document) : List Selection → TopFields → TopFields → Prop where
  /-- There is nothing left. -/
  | nil {top : TopFields} : Runs d [] top top
  /-- A field is added. -/
  | field {node : Field} {span : Span} {own rest : List Selection} {top result : TopFields} :
      Runs d rest (top.add node) result → Runs d (.field node span own :: rest) top result
  /-- An inline fragment is searched. -/
  | inline {node : InlineFragment} {span : Span} {own rest : List Selection}
      {top mid result : TopFields} :
      Runs d own top mid → Runs d rest mid result → Runs d (.inline node span own :: rest) top result
  /-- The fragment was followed before. -/
  | again {node : FragmentSpread} {rest : List Selection} {top result : TopFields} :
      node.name ∈ top.followed → Runs d rest top result → Runs d (.spread node :: rest) top result
  /-- There is no such fragment. -/
  | missing {node : FragmentSpread} {rest : List Selection} {top result : TopFields} :
      node.name ∉ top.followed → d.fragment? node.name = none →
      Runs d rest (top.mark node.name) result → Runs d (.spread node :: rest) top result
  /-- The fragment is searched. -/
  | fragment {node : FragmentSpread} {f : FragmentDefinition} {rest : List Selection}
      {top mid result : TopFields} :
      node.name ∉ top.followed → d.fragment? node.name = some f →
      Runs d f.selectionSet.items (top.mark node.name) mid → Runs d rest mid result →
      Runs d (.spread node :: rest) top result

theorem Runs.unique {other : TopFields} (h : Runs d items top result)
    (h' : Runs d items top other) : result = other := by
  induction h generalizing other with
  | nil =>
    cases h'
    rfl
  | field _ ih =>
    cases h' with
    | field h' => exact ih h'
  | inline _ _ ihOwn ihRest =>
    cases h' with
    | inline hown hrest =>
      obtain rfl := ihOwn hown
      exact ihRest hrest
  | again hmem _ ih =>
    cases h' with
    | again _ h' => exact ih h'
    | missing hnot | fragment hnot => exact absurd hmem hnot
  | missing hnot hnone _ ih =>
    cases h' with
    | again hmem => exact absurd hmem hnot
    | missing _ _ h' => exact ih h'
    | fragment _ hsome =>
      rw [hnone] at hsome
      cases hsome
  | fragment hnot hsome _ _ ihOwn ihRest =>
    cases h' with
    | again hmem => exact absurd hmem hnot
    | missing _ hnone =>
      rw [hnone] at hsome
      cases hsome
    | fragment _ hsome' hown hrest =>
      obtain rfl := Option.some.inj (hsome.symm.trans hsome')
      obtain rfl := ihOwn hown
      exact ihRest hrest

theorem followed_add (top : TopFields) (f : Field) : (top.add f).followed = top.followed := by
  unfold add
  split_ifs <;> rfl

theorem Runs.followed_subset (h : Runs d items top result) : top.followed ⊆ result.followed := by
  induction h with
  | nil => exact List.Subset.refl _
  | field _ ih =>
    rw [followed_add] at ih
    exact ih
  | inline _ _ ihOwn ihRest => exact List.Subset.trans ihOwn ihRest
  | again _ _ ih => exact ih
  | missing _ _ _ ih => exact List.Subset.trans (List.subset_cons_self _ _) ih
  | fragment _ _ _ _ ihOwn ihRest =>
    exact List.Subset.trans (List.subset_cons_self _ _) (List.Subset.trans ihOwn ihRest)

/-- Entering a fragment searches it, as long as fewer than `depth` fragments are not followed yet. -/
def Enters (d : Document) (depth : ℕ) (enter : FragmentDefinition → TopFields → TopFields) : Prop :=
  ∀ f top, d.unvisited top.followed < depth → Runs d f.selectionSet.items top (enter f top)

theorem runs_of_enters {depth : ℕ} {enter : FragmentDefinition → TopFields → TopFields}
    (henter : Enters d depth enter) (items : List Selection)
    (hdepth : d.unvisited top.followed ≤ depth) :
    Runs d items top (selections d enter items top) := by
  have hafter {items : List Selection} {top result : TopFields} (h : Runs d items top result)
      (hdepth : d.unvisited top.followed ≤ depth) : d.unvisited result.followed ≤ depth :=
    (Document.unvisited_le h.followed_subset).trans hdepth
  induction items using Selection.items_induction generalizing top with
  | nil => exact .nil
  | field node span own rest _ ihRest =>
    refine .field (ihRest ?_)
    rwa [followed_add]
  | inline node span own rest ihOwn ihRest =>
    exact .inline (ihOwn hdepth) (ihRest (hafter (ihOwn hdepth) hdepth))
  | spread node rest ihRest =>
    rw [selections, selection, follow]
    split_ifs with hmem
    · exact .again hmem (ihRest hdepth)
    · have hmark : d.unvisited (top.mark node.name).followed ≤ depth :=
        (Document.unvisited_le (List.subset_cons_self _ _)).trans hdepth
      cases hf : d.fragment? node.name with
      | none => exact .missing hmem hf (ihRest hmark)
      | some f =>
        have hname := Document.name_of_fragment? hf
        have hfewer : d.unvisited (top.mark node.name).followed < depth := by
          rw [← hname] at hmem ⊢
          exact (Document.unvisited_lt (Document.mem_of_fragment? hf) hmem).trans_le hdepth
        have hown := henter f (top.mark node.name) hfewer
        exact .fragment hmem hf hown (ihRest (hafter hown hmark))

theorem enters_fragment (d : Document) (depth : ℕ) : Enters d depth (fragment d depth) := by
  induction depth with
  | zero => exact fun f top hdepth => absurd hdepth (Nat.not_lt_zero _)
  | succ depth ih =>
    exact fun f top hdepth => runs_of_enters ih f.selectionSet.items (Nat.le_of_lt_succ hdepth)

/-- The depth that is given suffices, so that the search comes to an end. -/
theorem runs_selections (d : Document) (items : List Selection) (top : TopFields) :
    Runs d items top (selections d (fragment d d.fragments.length) items top) :=
  runs_of_enters (enters_fragment d _) items List.countP_le_length

/-! ### What has been dealt with -/

/-- There is a field of a response name. -/
def Has (top : TopFields) (name : String) : Prop := ∃ f ∈ top.fields, f.responseName = name

/-- The fields at the top of a selection are there, but for those of the fragments that it refers
to, which have been followed. -/
inductive Handled (top : TopFields) : Selection → Prop where
  /-- A field. -/
  | field {node : Field} {span : Span} {own : List Selection} :
      top.Has node.responseName → Handled top (.field node span own)
  /-- An inline fragment. -/
  | inline {node : InlineFragment} {span : Span} {own : List Selection} :
      (∀ item ∈ own, Handled top item) → Handled top (.inline node span own)
  /-- A reference. -/
  | spread {node : FragmentSpread} : node.name ∈ top.followed → Handled top (.spread node)

/-- All that was found before is still there. -/
structure Le (top result : TopFields) : Prop where
  /-- The fragments followed before. -/
  followed : top.followed ⊆ result.followed
  /-- The response names met before. -/
  has : ∀ name, top.Has name → result.Has name

theorem Handled.mono {item : Selection} (h : Handled top item) (hle : top.Le result) :
    Handled result item := by
  induction h with
  | field hhas => exact .field (hle.has _ hhas)
  | inline _ ih => exact .inline ih
  | spread hmem => exact .spread (hle.followed hmem)

/-- The fragments followed so far are dealt with, except those that the search is inside of. -/
structure Settled (d : Document) (inside : List String) (top : TopFields) : Prop where
  /-- One is only inside of fragments that have been followed. -/
  subset : inside ⊆ top.followed
  /-- The other ones are dealt with. -/
  handled : ∀ name ∈ top.followed, name ∉ inside → ∀ f, d.fragment? name = some f →
    ∀ item ∈ f.selectionSet.items, Handled top item

theorem Settled.mono {inside : List String} (h : Settled d inside top) (hle : top.Le result)
    (hsame : result.followed = top.followed) : Settled d inside result where
  subset := by
    rw [hsame]
    exact h.subset
  handled name hname hnot f hf item hitem := by
    rw [hsame] at hname
    exact (h.handled name hname hnot f hf item hitem).mono hle

/-- All response names that are met in selections that are dealt with are there. -/
theorem Settled.has_of_metAt {inside inside' : List String} {route : Route} {f : Field}
    (h : Settled d inside top) (hitems : ∀ item ∈ items, Handled top item)
    (hsub : inside ⊆ inside') (hmet : d.MetAt inside' items route f) : top.Has f.responseName := by
  induction hmet with
  | field =>
    cases hitems _ List.mem_cons_self with
    | field hhas => exact hhas
  | inline _ ih =>
    cases hitems _ List.mem_cons_self with
    | inline hown => exact ih hown hsub
  | fragment hnot hg _ ih =>
    cases hitems _ List.mem_cons_self with
    | spread hname =>
      exact ih (h.handled _ hname (fun hmem => hnot (hsub hmem)) _ hg)
        (List.subset_cons_of_subset _ hsub)
  | later _ ih => exact ih (fun item hitem => hitems item (List.mem_cons_of_mem _ hitem)) hsub

/-- If one is inside of no fragment, then also those that are met without regard to that. -/
theorem Settled.has_of_atTop {f : Field} (h : Settled d [] top)
    (hitems : ∀ item ∈ items, Handled top item) (htop : d.AtTop items f) :
    top.Has f.responseName := by
  induction htop with
  | field hmem =>
    cases hitems _ hmem with
    | field hhas => exact hhas
  | inline hmem _ ih =>
    cases hitems _ hmem with
    | inline hown => exact ih hown
  | fragment hmem hg _ ih =>
    cases hitems _ hmem with
    | spread hname => exact ih (h.handled _ hname List.not_mem_nil _ hg)

/-! ### What is added -/

/-- Of the fields that are met, those are added whose response names are new, each where its name is
met first. -/
structure AddsFirst (met : Route → Field → Prop) (top result : TopFields)
    (new : List (Route × Field)) : Prop where
  /-- They are added at the end. -/
  fields : result.fields = top.fields ++ new.map (·.2)
  /-- They are met. -/
  sound : ∀ p ∈ new, met p.1 p.2
  /-- They are in the order in which they are met. -/
  sorted : new.Pairwise fun p q => p.1 < q.1
  /-- Their names were not there. -/
  fresh : ∀ p ∈ new, ¬ top.Has p.2.responseName
  /-- Their names are different. -/
  different : new.Pairwise fun p q => p.2.responseName ≠ q.2.responseName
  /-- No other field is met under one of these names before. -/
  first : ∀ route g, met route g →
    top.Has g.responseName ∨ ∃ p ∈ new, p.2.responseName = g.responseName ∧ p.1 ≤ route

variable {met met' : Route → Field → Prop} {new new' : List (Route × Field)}

theorem AddsFirst.has_iff (h : AddsFirst met top result new) :
    result.Has name ↔ top.Has name ∨ ∃ p ∈ new, p.2.responseName = name := by
  simp only [Has, h.fields, List.mem_append, List.mem_map, or_and_right, exists_or]
  refine or_congr_right ⟨?_, ?_⟩
  · rintro ⟨f, ⟨p, hp, rfl⟩, hname⟩
    exact ⟨p, hp, hname⟩
  · rintro ⟨p, hp, hname⟩
    exact ⟨p.2, ⟨p, hp, rfl⟩, hname⟩

theorem AddsFirst.le (h : AddsFirst met top result new) (hfollowed : top.followed ⊆ result.followed) :
    top.Le result :=
  ⟨hfollowed, fun _ hhas => h.has_iff.mpr (.inl hhas)⟩

theorem AddsFirst.congr (h : AddsFirst met top result new)
    (hmet : ∀ route f, met' route f ↔ met route f) : AddsFirst met' top result new where
  fields := h.fields
  sound p hp := (hmet _ _).mpr (h.sound p hp)
  sorted := h.sorted
  fresh := h.fresh
  different := h.different
  first route g hg := h.first route g ((hmet _ _).mp hg)

theorem AddsFirst.of_mark (h : AddsFirst met (top.mark name) result new) :
    AddsFirst met top result new :=
  ⟨h.fields, h.sound, h.sorted, h.fresh, h.different, h.first⟩

/-- Nothing is added if all names are there. -/
theorem addsFirst_nil (hfields : result.fields = top.fields)
    (hmet : ∀ route g, met route g → top.Has g.responseName) : AddsFirst met top result [] where
  fields := by rw [hfields, List.map_nil, List.append_nil]
  sound := List.forall_mem_nil _
  sorted := .nil
  fresh := List.forall_mem_nil _
  different := .nil
  first route g hg := .inl (hmet route g hg)

theorem exists_addsFirst_add (top : TopFields) (node : Field) :
    ∃ new, AddsFirst (fun route f => route = [0] ∧ f = node) top (top.add node) new := by
  by_cases hhas : top.Has node.responseName
  · have hadd : top.add node = top := by
      obtain ⟨f, hf, hname⟩ := hhas
      exact if_pos (List.any_eq_true.mpr ⟨f, hf, decide_eq_true hname⟩)
    rw [hadd]
    exact ⟨[], addsFirst_nil rfl fun route g hg => hg.2 ▸ hhas⟩
  · have hadd : top.add node = { top with fields := top.fields ++ [node] } := by
      refine if_neg fun hany => hhas ?_
      obtain ⟨f, hf, hname⟩ := List.any_eq_true.mp hany
      exact ⟨f, hf, of_decide_eq_true hname⟩
    rw [hadd]
    refine ⟨[([0], node)], rfl, ?_, List.pairwise_singleton _ _, ?_, List.pairwise_singleton _ _, ?_⟩
    · simp
    · simpa using hhas
    · rintro route g ⟨rfl, rfl⟩
      exact .inr ⟨_, List.mem_singleton_self _, rfl, le_rfl⟩

/-- Two steps add what both add, if all that the first one meets comes before. -/
theorem AddsFirst.append (h : AddsFirst met top mid new) (h' : AddsFirst met' mid result new')
    (hbefore : ∀ r f, met r f → ∀ q g, met' q g → r < q) :
    AddsFirst (fun r f => met r f ∨ met' r f) top result (new ++ new') where
  fields := by rw [h'.fields, h.fields, List.map_append, List.append_assoc]
  sound p hp := (List.mem_append.mp hp).imp (h.sound p) (h'.sound p)
  sorted := List.pairwise_append.mpr ⟨h.sorted, h'.sorted, fun p hp q hq =>
    hbefore _ _ (h.sound p hp) _ _ (h'.sound q hq)⟩
  fresh p hp hhas := by
    rcases List.mem_append.mp hp with hp | hp
    · exact h.fresh p hp hhas
    · exact h'.fresh p hp (h.has_iff.mpr (.inl hhas))
  different := List.pairwise_append.mpr ⟨h.different, h'.different, fun p hp q hq hname =>
    h'.fresh q hq (h.has_iff.mpr (.inr ⟨p, hp, hname⟩))⟩
  first route g hg := by
    rcases hg with hg | hg
    · exact (h.first route g hg).imp_right fun ⟨p, hp, hname⟩ =>
        ⟨p, List.mem_append_left _ hp, hname⟩
    · rcases h'.first route g hg with hhas | ⟨p, hp, hname⟩
      · refine (h.has_iff.mp hhas).imp_right fun ⟨p, hp, hname⟩ =>
          ⟨p, List.mem_append_left _ hp, hname, ?_⟩
        exact (hbefore _ _ (h.sound p hp) _ _ hg).le
      · exact .inr ⟨p, List.mem_append_right _ hp, hname⟩

/-- The same fields on other routes in the same order. -/
theorem AddsFirst.relabel (h : AddsFirst met top result new) {label : Route → Route}
    (hlabel : StrictMono label) :
    AddsFirst (fun r f => ∃ q, label q = r ∧ met q f) top result
      (new.map fun p => (label p.1, p.2)) where
  fields := by rw [h.fields, List.map_map]; rfl
  sound := List.forall_mem_map.mpr fun p hp => ⟨p.1, rfl, h.sound p hp⟩
  sorted := List.pairwise_map.mpr (h.sorted.imp fun hlt => hlabel hlt)
  fresh := List.forall_mem_map.mpr h.fresh
  different := List.pairwise_map.mpr h.different
  first := by
    rintro _ g ⟨q, rfl, hg⟩
    refine (h.first q g hg).imp_right fun ⟨p, hp, hname, hle⟩ => ?_
    exact ⟨_, List.mem_map_of_mem hp, hname, hlabel.monotone hle⟩

/-- A first selection is searched, and then the later ones. -/
theorem AddsFirst.cons {inside : List String} {item : Selection} {rest : List Selection}
    (h : AddsFirst (d.MetAt inside [item]) top mid new)
    (h' : AddsFirst (d.MetAt inside rest) mid result new') :
    ∃ all, AddsFirst (d.MetAt inside (item :: rest)) top result all := by
  refine ⟨_, (h.append (h'.relabel Route.later_strictMono) ?_).congr fun route f => ?_⟩
  · rintro r f hr _ g ⟨q, rfl, hq⟩
    exact hr.lt_later hq
  · exact Document.metAt_cons_iff

/-- What a call adds, and that it leaves no fragment half done which it was not inside of. -/
theorem Runs.spec {inside : List String} (h : Runs d items top result)
    (hsettled : Settled d inside top) :
    Settled d inside result ∧ (∀ item ∈ items, Handled result item) ∧
      ∃ new, AddsFirst (d.MetAt inside items) top result new := by
  induction h generalizing inside with
  | nil => exact ⟨hsettled, List.forall_mem_nil _, [], addsFirst_nil rfl nofun⟩
  | @field node span own rest top result hrest ih =>
    obtain ⟨new, hadd⟩ := exists_addsFirst_add top node
    have hle := hadd.le fun name hname => by rwa [followed_add]
    obtain ⟨hafter, hhandled, new', hnew'⟩ := ih (hsettled.mono hle (followed_add top node))
    have hhas : (top.add node).Has node.responseName := by
      rcases hadd.first [0] node ⟨rfl, rfl⟩ with hhas | ⟨p, hp, hname, -⟩
      · exact hle.has _ hhas
      · exact hadd.has_iff.mpr (.inr ⟨p, hp, hname⟩)
    have hkept := hnew'.le hrest.followed_subset
    refine ⟨hafter, List.forall_mem_cons.mpr ⟨.field (hkept.has _ hhas), hhandled⟩, ?_⟩
    exact (hadd.congr fun _ _ => Document.metAt_field_iff).cons hnew'
  | inline hown hrest ihOwn ihRest =>
    obtain ⟨hmid, hhandled, new, hnew⟩ := ihOwn hsettled
    obtain ⟨hafter, hlater, new', hnew'⟩ := ihRest hmid
    have hkept := hnew'.le hrest.followed_subset
    refine ⟨hafter, List.forall_mem_cons.mpr ⟨?_, hlater⟩, ?_⟩
    · exact .inline fun item hitem => (hhandled item hitem).mono hkept
    · refine ((hnew.relabel (Route.cons_strictMono 0)).congr fun _ _ => ?_).cons hnew'
      exact Document.metAt_inline_iff
  | @again node rest top result hmem hrest ih =>
    obtain ⟨hafter, hlater, new', hnew'⟩ := ih hsettled
    refine ⟨hafter, List.forall_mem_cons.mpr ⟨.spread (hrest.followed_subset hmem), hlater⟩, ?_⟩
    have hspread : ∀ item ∈ [Selection.spread node], Handled top item :=
      List.forall_mem_singleton.mpr (.spread hmem)
    exact (addsFirst_nil rfl fun _ _ => hsettled.has_of_metAt hspread (List.Subset.refl _)).cons
      hnew'
  | @missing node rest top result hnot hnone hrest ih =>
    have hadd : AddsFirst (d.MetAt inside [.spread node]) top (top.mark node.name) [] := by
      refine addsFirst_nil rfl fun route g hg => ?_
      cases hg with
      | fragment _ hsome =>
        rw [hnone] at hsome
        cases hsome
      | later h => cases h
    have hle := hadd.le (List.subset_cons_self _ _)
    have hmark : Settled d inside (top.mark node.name) := by
      refine ⟨List.Subset.trans hsettled.subset hle.followed, fun other hother hout f hf => ?_⟩
      rcases List.mem_cons.mp hother with rfl | hother
      · rw [hnone] at hf
        cases hf
      · exact fun item hitem => (hsettled.handled other hother hout f hf item hitem).mono hle
    obtain ⟨hafter, hlater, new', hnew'⟩ := ih hmark
    refine ⟨hafter, List.forall_mem_cons.mpr ⟨.spread ?_, hlater⟩, hadd.cons hnew'⟩
    exact hrest.followed_subset List.mem_cons_self
  | @fragment node f rest top mid result hnot hf hown hrest ihOwn ihRest =>
    have hle : top.Le (top.mark node.name) := ⟨List.subset_cons_self _ _, fun _ h => h⟩
    have hmark : Settled d (node.name :: inside) (top.mark node.name) := by
      refine ⟨List.cons_subset_cons _ hsettled.subset, fun other hother hout g hg item hitem => ?_⟩
      rw [List.mem_cons, not_or] at hout
      have hbefore : other ∈ top.followed := (List.mem_cons.mp hother).resolve_left hout.1
      exact (hsettled.handled other hbefore hout.2 g hg item hitem).mono hle
    obtain ⟨hinner, hhandled, new, hnew⟩ := ihOwn hmark
    -- The fragment itself is dealt with now, so that one is not inside of it any more.
    have hmid : Settled d inside mid := by
      refine ⟨List.Subset.trans (List.subset_cons_self _ _) hinner.subset,
        fun other hother hout g hg => ?_⟩
      by_cases hname : other = node.name
      · rw [hname, hf] at hg
        obtain rfl := Option.some.inj hg
        exact hhandled
      · exact hinner.handled other hother (by simp [hname, hout]) g hg
    obtain ⟨hafter, hlater, new', hnew'⟩ := ihRest hmid
    refine ⟨hafter, List.forall_mem_cons.mpr ⟨.spread ?_, hlater⟩, ?_⟩
    · exact hrest.followed_subset (hown.followed_subset List.mem_cons_self)
    · have hout : node.name ∉ inside := fun hmem => hnot (hsettled.subset hmem)
      refine ((hnew.of_mark.relabel (Route.cons_strictMono 0)).congr fun _ _ => ?_).cons hnew'
      exact Document.metAt_spread_iff hout hf

end TopFields

namespace Operation

variable {d : Document} {o : Operation}

/-! ### The whole search -/

/-- The response names at the top of an operation. -/
def topNames (d : Document) (o : Operation) : Set String :=
  {name | ∃ f, d.AtTop o.selectionSet.items f ∧ f.responseName = name}

/-- For each response name at the top of an operation the first field met, with its route. They are
in the order in which they are met. -/
structure FirstMet (d : Document) (o : Operation) (firsts : List (Route × Field)) : Prop where
  /-- A field is there if it is met before all others of its response name. -/
  mem_iff : ∀ route f, (route, f) ∈ firsts ↔ d.MetAt [] o.selectionSet.items route f ∧
    ∀ r g, d.MetAt [] o.selectionSet.items r g → g.responseName = f.responseName → route ≤ r
  /-- The routes are in order. -/
  sorted : firsts.Pairwise fun p q => p.1 < q.1
  /-- All response names at the top are there. -/
  name_iff : ∀ name, (∃ p ∈ firsts, p.2.responseName = name) ↔ name ∈ o.topNames d
  /-- No response name is there twice. -/
  nodup : (firsts.map (·.2.responseName)).Nodup

/-- The search finds for each response name the first field met. -/
theorem exists_firstMet (d : Document) (o : Operation) :
    ∃ firsts, o.FirstMet d firsts ∧ o.topFields d = firsts.map (·.2) := by
  have hstart : TopFields.Settled d [] ⟨[], []⟩ :=
    ⟨List.Subset.refl _, fun _ hname => absurd hname List.not_mem_nil⟩
  obtain ⟨hsettled, hhandled, firsts, hadds⟩ :=
    (TopFields.runs_selections d o.selectionSet.items ⟨[], []⟩).spec hstart
  have hnone (name : String) : ¬ (⟨[], []⟩ : TopFields).Has name := by simp [TopFields.Has]
  have hfirst {r : Route} {g : Field} (hg : d.MetAt [] o.selectionSet.items r g) :=
    (hadds.first r g hg).resolve_left (hnone _)
  have hnodup : (firsts.map (·.2.responseName)).Nodup := List.pairwise_map.mpr hadds.different
  refine ⟨firsts, ⟨fun route f => ⟨fun hmem => ⟨hadds.sound _ hmem, ?_⟩, ?_⟩, hadds.sorted, ?_,
    hnodup⟩, hadds.fields⟩
  · intro r g hg hname
    obtain ⟨p, hp, hsame, hle⟩ := hfirst hg
    obtain rfl := List.inj_on_of_nodup_map hnodup hmem hp (hsame.trans hname).symm
    exact hle
  · rintro ⟨hmet, hmin⟩
    obtain ⟨⟨r, g⟩, hp, hsame, hle⟩ := hfirst hmet
    obtain rfl : route = r := le_antisymm (hmin r g (hadds.sound _ hp) hsame) hle
    obtain rfl := hmet.unique (hadds.sound _ hp)
    exact hp
  · intro name
    constructor
    · rintro ⟨p, hp, rfl⟩
      exact ⟨p.2, (hadds.sound p hp).atTop, rfl⟩
    · rintro ⟨f, htop, rfl⟩
      exact (hadds.has_iff.mp (hsettled.has_of_atTop hhandled htop)).resolve_left (hnone _)

end Operation

/-! ### The rule -/

/-- What a run with a rule reports that looks at operations only, when they are entered. -/
theorem Validation.diagnostics_of_operations {r : RuleName} {look : Setting → Visit → List Finding}
    {schema : Schema} {d : Document} {judge : Operation → List Finding}
    (hlook : r.report = Report.each look)
    (hjudge : ∀ visit, look (.of schema d) visit = visit.hook.enteredOperation?.elim [] judge) :
    (ofRules [r]).diagnostics schema d =
      (d.operations.map fun o => (judge o).map (Diagnostic.ofFinding r)).flatten := by
  rw [diagnostics_each hlook hjudge, d.enteredOperation?_hooks, List.flatMap_def]

/-- What is to be reported of an operation. -/
inductive Operation.TopJudged (d : Document) (o : Operation) : List Diagnostic → Prop where
  /-- Nothing of a query or mutation. -/
  | other : o.kind ≠ .subscription → TopJudged d o []
  /-- Nothing of a subscription with at most one response name at the top. -/
  | single : o.kind = .subscription → (o.topNames d).Subsingleton → TopJudged d o []
  /-- Of one with several, the first field met under each response name but the first. -/
  | several {firsts : List (Route × Field)} :
      o.kind = .subscription → (o.topNames d).Nontrivial → o.FirstMet d firsts →
      TopJudged d o [⟨.singleFieldSubscriptions, Rule.severalFields o,
        firsts.tail.map (·.2.ref)⟩]

/-- The findings of the rule about an operation. -/
def Rule.topFindings (d : Document) (o : Operation) : List Finding :=
  match o.kind, o.topFields d with
  | .subscription, _ :: extra :: more => [⟨severalFields o, (extra :: more).map Field.ref⟩]
  | _, _ => []

theorem Operation.topJudged_topFindings (d : Document) (o : Operation) :
    o.TopJudged d ((Rule.topFindings d o).map (Diagnostic.ofFinding .singleFieldSubscriptions)) := by
  by_cases hkind : o.kind = .subscription
  · obtain ⟨firsts, hfirst, hfields⟩ := o.exists_firstMet d
    rw [Rule.topFindings, hkind, hfields]
    cases firsts with
    | nil =>
      have hempty : o.topNames d = ∅ := by
        refine Set.eq_empty_iff_forall_notMem.mpr fun name hname => ?_
        simpa using (hfirst.name_iff name).mpr hname
      exact .single hkind (hempty ▸ Set.subsingleton_empty)
    | cons p rest =>
      cases rest with
      | nil =>
        refine .single hkind fun a ha b hb => ?_
        obtain ⟨_, hp, rfl⟩ := (hfirst.name_iff a).mpr ha
        obtain ⟨_, hq, rfl⟩ := (hfirst.name_iff b).mpr hb
        rw [List.mem_singleton.mp hp, List.mem_singleton.mp hq]
      | cons q more =>
        have hnames : (o.topNames d).Nontrivial := by
          refine ⟨p.2.responseName, (hfirst.name_iff _).mp ⟨p, by simp, rfl⟩, q.2.responseName,
            (hfirst.name_iff _).mp ⟨q, by simp, rfl⟩, ?_⟩
          have hnodup := hfirst.nodup
          simp only [List.map_cons, List.nodup_cons, List.mem_cons, not_or] at hnodup
          exact hnodup.1.1
        simpa [Diagnostic.ofFinding, Function.comp_def] using
          TopJudged.several hkind hnames hfirst
  · have hnone : Rule.topFindings d o = [] := by
      unfold Rule.topFindings
      split
      · contradiction
      · rfl
    rw [hnone]
    exact .other hkind

/-- The search for the fields at the top of an operation comes to an end whatever fragments there
are, and the rule on subscriptions goes by what it finds: for each operation in turn it reports one
thing if it is a subscription with several response names at the top, and nothing otherwise. The
nodes it then names are the first fields met under each response name but the first. -/
theorem subscriptions_judged_by_top_fields (schema : Schema) (d : Document)
    (rules : List RuleName) (hrule : .singleFieldSubscriptions ∈ rules) :
    (∀ o ∈ d.operations, ∃ top, top.fields = o.topFields d ∧
        ∀ result, TopFields.Runs d o.selectionSet.items ⟨[], []⟩ result ↔ result = top) ∧
      ∃ verdicts, List.Forall₂ (Operation.TopJudged d) d.operations verdicts ∧
        ((Validation.ofRules rules).diagnostics schema d).filter
          (·.rule = .singleFieldSubscriptions) = verdicts.flatten := by
  constructor
  · intro o _
    have hruns := TopFields.runs_selections d o.selectionSet.items ⟨[], []⟩
    refine ⟨_, rfl, fun result => ⟨fun h => h.unique hruns, ?_⟩⟩
    rintro rfl
    exact hruns
  · have hjudged : List.Forall₂ (Operation.TopJudged d) d.operations (d.operations.map fun o =>
        (Rule.topFindings d o).map (Diagnostic.ofFinding .singleFieldSubscriptions)) :=
      List.forall₂_map_right_iff.mpr (List.forall₂_same.mpr fun o _ => o.topJudged_topFindings d)
    refine ⟨_, hjudged, ?_⟩
    rw [Validation.filter_diagnostics hrule]
    refine Validation.diagnostics_of_operations rfl fun visit => ?_
    obtain ⟨hook, scope⟩ := visit
    cases hook with
    | enter node => cases node <;> rfl
    | leave node | arguments position list | directives list => rfl

/-- A subscription to two fragments that refer to one another and to themselves, and to one that is
not defined. -/
def knottedDocument : Document :=
  ⟨[.operation ⟨.subscription, ⟨1, 1⟩, some "S", [], [], ⟨⟨⟨1, 16⟩, ⟨1, 34⟩⟩,
      [.spread ⟨⟨1, 18⟩, "A", []⟩, .field ⟨⟨1, 23⟩, none, "a", [], []⟩ ⟨⟨1, 23⟩, ⟨1, 23⟩⟩ [],
        .spread ⟨⟨1, 25⟩, "B", []⟩, .spread ⟨⟨1, 30⟩, "X", []⟩]⟩⟩,
    .fragment ⟨⟨2, 1⟩, "A", "S", [], ⟨⟨⟨2, 17⟩, ⟨2, 38⟩⟩,
      [.spread ⟨⟨2, 19⟩, "B", []⟩, .spread ⟨⟨2, 24⟩, "A", []⟩,
        .field ⟨⟨2, 29⟩, some "x", "a", [], []⟩ ⟨⟨2, 29⟩, ⟨2, 29⟩⟩ [],
        .field ⟨⟨2, 34⟩, none, "a", [], []⟩ ⟨⟨2, 34⟩, ⟨2, 34⟩⟩ []]⟩⟩,
    .fragment ⟨⟨3, 1⟩, "B", "S", [], ⟨⟨⟨3, 17⟩, ⟨3, 26⟩⟩,
      [.spread ⟨⟨3, 19⟩, "A", []⟩, .field ⟨⟨3, 24⟩, none, "b", [], []⟩ ⟨⟨3, 24⟩, ⟨3, 24⟩⟩ []]⟩⟩], []⟩

/-- The field of `B` is met first, so the alias and the field of `A` are reported. -/
theorem knotted_subscription_judged :
    ∃ verdicts, List.Forall₂ (Operation.TopJudged knottedDocument) knottedDocument.operations
        verdicts ∧
      verdicts.flatten = [⟨.singleFieldSubscriptions,
        "Subscription \"S\" must select only one top level field.",
        [⟨.field, ⟨2, 29⟩⟩, ⟨.field, ⟨2, 34⟩⟩]⟩] := by
  obtain ⟨-, verdicts, hjudged, hreported⟩ := subscriptions_judged_by_top_fields default
    knottedDocument [.singleFieldSubscriptions] List.mem_cons_self
  refine ⟨verdicts, hjudged, hreported.symm.trans ?_⟩
  decide +kernel

end GraphQLCheck
