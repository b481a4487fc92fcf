import GraphQLCheck.Document.Spreads
import GraphQLCheck.Traversal.Hook
import Mathlib.Data.Finset.Card
import Mathlib.Data.List.Perm.Basic
import Mathlib.Logic.Relation

/-!
# The graph of fragments

The nodes of the graph are the names of the fragments that a document defines, and its edges are the
references to fragments, at any depth, in the first definition of each name. A reference is told
apart from all others by its `Site`: the fragment that holds it and its address in there.

The stack of sets that `SelectionSet.spreads` works through finds every reference once
(`spreads_perm`), and a graph without cycles has a `rank` that falls along every edge
(`Acyclic.exists_rank`).
-/

namespace GraphQLCheck

namespace Address

variable {a x y : Address} {i j k : ℕ}

/-- Two branches of a set that an address goes through are the same. -/
theorem branch_unique (hi : i :: a <:+ x) (hj : j :: a <:+ x) : i = j := by
  have h : i :: a <:+ j :: a := List.suffix_of_suffix_length_le hi hj (by simp)
  have := h.eq_of_length (by simp)
  simpa using this

/-- The address goes through the set at `a`, by the selection with the number `i` or by a later
one. -/
def EntersFrom (x a : Address) (i : ℕ) : Prop :=
  ∃ j, i ≤ j ∧ j :: a <:+ x

theorem EntersFrom.suffix (h : EntersFrom x a i) : a <:+ x := by
  obtain ⟨j, -, hj⟩ := h
  exact (List.suffix_cons j a).trans hj

theorem EntersFrom.of_suffix (h : i :: a <:+ x) : EntersFrom x a i :=
  ⟨i, le_rfl, h⟩

theorem EntersFrom.of_nested (h : EntersFrom x (i :: a) k) : EntersFrom x a i :=
  .of_suffix h.suffix

theorem EntersFrom.of_later (h : EntersFrom x a (i + 1)) : EntersFrom x a i := by
  obtain ⟨j, hle, hj⟩ := h
  exact ⟨j, by omega, hj⟩

/-- What one branch of a set holds and what the later ones hold have different addresses. -/
theorem EntersFrom.ne (hy : EntersFrom y a (i + 1)) (hx : i :: a <:+ x) : x ≠ y := by
  rintro rfl
  obtain ⟨j, hle, hj⟩ := hy
  have := branch_unique hx hj
  omega

end Address

namespace Selection

/-- Induction over the selections of a set: first over those inside the first selection, then over
the later ones. -/
theorem items_induction {P : List Selection → Prop} (nil : P [])
    (field : ∀ node span items rest, P items → P rest → P (.field node span items :: rest))
    (spread : ∀ node rest, P rest → P (.spread node :: rest))
    (inline : ∀ node span items rest, P items → P rest → P (.inline node span items :: rest)) :
    ∀ items, P items
  | [] => nil
  | .field node span items :: rest =>
    field node span items rest (items_induction nil field spread inline items)
      (items_induction nil field spread inline rest)
  | .spread node :: rest => spread node rest (items_induction nil field spread inline rest)
  | .inline node span items :: rest =>
    inline node span items rest (items_induction nil field spread inline items)
      (items_induction nil field spread inline rest)

/-! ### References in the order of the text -/

mutual

/-- The references to fragments in a selection at an address, in the order of the text. -/
def placedSpread (address : Address) : Selection → List (Address × FragmentSpread)
  | field _ _ items => placedSpreads address 0 items
  | spread node => [(address, node)]
  | inline _ _ items => placedSpreads address 0 items

/-- The references to fragments in the selections of a set at an address, from the given number
on. -/
def placedSpreads (address : Address) (index : ℕ) :
    List Selection → List (Address × FragmentSpread)
  | [] => []
  | item :: rest => placedSpread (index :: address) item ++ placedSpreads address (index + 1) rest

end

/-- The references to fragments in selections, in the order of the text. -/
def spreadsWithin (items : List Selection) : List FragmentSpread :=
  (placedSpreads [] 0 items).map (·.2)

theorem map_snd_placedSpreads (items : List Selection) (a b : Address) (i j : ℕ) :
    (placedSpreads a i items).map (·.2) = (placedSpreads b j items).map (·.2) := by
  induction items using items_induction generalizing a b i j with
  | nil => rfl
  | field node span items rest ihItems ihRest =>
    simp only [placedSpreads, placedSpread, List.map_append]
    rw [ihItems (i :: a) (j :: b) 0 0, ihRest a b (i + 1) (j + 1)]
  | spread node rest ihRest =>
    simp only [placedSpreads, placedSpread, List.map_append]
    rw [ihRest a b (i + 1) (j + 1)]
    rfl
  | inline node span items rest ihItems ihRest =>
    simp only [placedSpreads, placedSpread, List.map_append]
    rw [ihItems (i :: a) (j :: b) 0 0, ihRest a b (i + 1) (j + 1)]

theorem map_snd_placedSpreads_eq (items : List Selection) (a : Address) (i : ℕ) :
    (placedSpreads a i items).map (·.2) = spreadsWithin items :=
  map_snd_placedSpreads items a [] i 0

@[simp] theorem spreadsWithin_nil : spreadsWithin [] = [] := rfl

@[simp] theorem spreadsWithin_field (node : Field) (span : Span) (items rest : List Selection) :
    spreadsWithin (field node span items :: rest) = spreadsWithin items ++ spreadsWithin rest := by
  rw [spreadsWithin, placedSpreads, placedSpread, List.map_append, map_snd_placedSpreads_eq,
    map_snd_placedSpreads_eq]

@[simp] theorem spreadsWithin_spread (node : FragmentSpread) (rest : List Selection) :
    spreadsWithin (spread node :: rest) = node :: spreadsWithin rest := by
  rw [spreadsWithin, placedSpreads, placedSpread, List.map_append, map_snd_placedSpreads_eq]
  rfl

@[simp] theorem spreadsWithin_inline (node : InlineFragment) (span : Span)
    (items rest : List Selection) :
    spreadsWithin (inline node span items :: rest) = spreadsWithin items ++ spreadsWithin rest := by
  rw [spreadsWithin, placedSpreads, placedSpread, List.map_append, map_snd_placedSpreads_eq,
    map_snd_placedSpreads_eq]

/-- The address of a reference goes through the set that holds it. -/
theorem entersFrom_of_mem_placedSpreads {items : List Selection} {a x : Address} {i : ℕ}
    {s : FragmentSpread} (h : (x, s) ∈ placedSpreads a i items) : x.EntersFrom a i := by
  induction items using items_induction generalizing a i with
  | nil => simp [placedSpreads] at h
  | field node span items rest ihItems ihRest =>
    rw [placedSpreads, List.mem_append, placedSpread] at h
    rcases h with h | h
    · exact (ihItems h).of_nested
    · exact (ihRest h).of_later
  | spread node rest ihRest =>
    rw [placedSpreads, List.mem_append, placedSpread, List.mem_singleton, Prod.mk.injEq] at h
    rcases h with ⟨rfl, -⟩ | h
    · exact .of_suffix List.suffix_rfl
    · exact (ihRest h).of_later
  | inline node span items rest ihItems ihRest =>
    rw [placedSpreads, List.mem_append, placedSpread] at h
    rcases h with h | h
    · exact (ihItems h).of_nested
    · exact (ihRest h).of_later

/-- Different references have different addresses. -/
theorem nodup_placedSpreads (items : List Selection) (a : Address) (i : ℕ) :
    ((placedSpreads a i items).map (·.1)).Nodup := by
  refine List.pairwise_map.mpr ?_
  induction items using items_induction generalizing a i with
  | nil => simp [placedSpreads]
  | field node span items rest ihItems ihRest =>
    rw [placedSpreads, placedSpread, List.pairwise_append]
    refine ⟨ihItems _ _, ihRest _ _, fun p hp q hq => ?_⟩
    exact (entersFrom_of_mem_placedSpreads hq).ne (entersFrom_of_mem_placedSpreads hp).suffix
  | spread node rest ihRest =>
    rw [placedSpreads, placedSpread, List.singleton_append, List.pairwise_cons]
    refine ⟨fun q hq => ?_, ihRest _ _⟩
    exact (entersFrom_of_mem_placedSpreads hq).ne List.suffix_rfl
  | inline node span items rest ihItems ihRest =>
    rw [placedSpreads, placedSpread, List.pairwise_append]
    refine ⟨ihItems _ _, ihRest _ _, fun p hp q hq => ?_⟩
    exact (entersFrom_of_mem_placedSpreads hq).ne (entersFrom_of_mem_placedSpreads hp).suffix

end Selection

namespace SelectionSet

open scoped List

/-! ### The stack of sets -/

/-- The references directly in a set and those in the sets directly in it are all its
references. -/
theorem direct_perm (items : List Selection) :
    (directSpreads items ++ (directSets items).flatMap Selection.spreadsWithin) ~
      Selection.spreadsWithin items := by
  induction items with
  | nil => simp [directSpreads, directSets]
  | cons item rest ih =>
    simp only [directSpreads, directSets] at ih
    cases item with
    | field node span items =>
      simp only [directSpreads, directSets, List.filterMap_cons, Selection.spread?,
        Selection.nested?, List.flatMap_cons, Selection.spreadsWithin_field]
      exact (List.perm_append_comm_assoc _ _ _).trans (ih.append_left _)
    | spread node =>
      simp only [directSpreads, directSets, List.filterMap_cons, Selection.spread?,
        Selection.nested?, Selection.spreadsWithin_spread, List.cons_append]
      exact ih.cons node
    | inline node span items =>
      simp only [directSpreads, directSets, List.filterMap_cons, Selection.spread?,
        Selection.nested?, List.flatMap_cons, Selection.spreadsWithin_inline]
      exact (List.perm_append_comm_assoc _ _ _).trans (ih.append_left _)

/-- The references that the stack yields are those of the sets on it. -/
theorem spreadsOf_perm (stack : List (List Selection)) :
    spreadsOf stack ~ stack.flatMap Selection.spreadsWithin := by
  fun_induction spreadsOf stack with
  | case1 => simp
  | case2 items stack ih =>
    rw [List.flatMap_append] at ih
    have hrev := (directSets items).reverse_perm.flatMap_right Selection.spreadsWithin
    calc directSpreads items ++ spreadsOf ((directSets items).reverse ++ stack)
        ~ directSpreads items ++ ((directSets items).reverse.flatMap Selection.spreadsWithin ++
            stack.flatMap Selection.spreadsWithin) := ih.append_left _
      _ ~ directSpreads items ++ ((directSets items).flatMap Selection.spreadsWithin ++
            stack.flatMap Selection.spreadsWithin) := (hrev.append_right _).append_left _
      _ = (directSpreads items ++ (directSets items).flatMap Selection.spreadsWithin) ++
            stack.flatMap Selection.spreadsWithin := (List.append_assoc ..).symm
      _ ~ (items :: stack).flatMap Selection.spreadsWithin := by
        rw [List.flatMap_cons]
        exact (direct_perm items).append_right _

/-- The references that are found in a set are those that are nested in it. -/
theorem spreads_perm (set : SelectionSet) :
    set.spreads ~ Selection.spreadsWithin set.items := by
  simpa [spreads] using spreadsOf_perm [set.items]

/-- The references that are found in a set, each at its own address. -/
theorem exists_placed_spreads (set : SelectionSet) :
    ∃ placed : List (Address × FragmentSpread), placed.map (·.2) = set.spreads ∧
      placed ~ Selection.placedSpreads [] 0 set.items := by
  have h : (· ~ List.map Prod.snd ·) set.spreads (Selection.placedSpreads [] 0 set.items) :=
    set.spreads_perm
  rw [← List.eq_map_comp_perm] at h
  obtain ⟨placed, heq, hperm⟩ := h
  exact ⟨placed, heq.symm, hperm⟩

end SelectionSet

/-! ### Edges and cycles -/

/-- Where a reference to a fragment stands: in the first definition of a fragment, at an address. -/
structure Site where
  /-- The name of the fragment that holds the reference. -/
  fragment : String
  /-- The address of the reference in the first definition of that fragment. -/
  address : Address
  deriving DecidableEq, Repr

namespace Document

open Relation

variable {d : Document} {a b : String}

/-- `d.Holds site s`: the reference `s` stands at `site`. -/
def Holds (d : Document) (site : Site) (s : FragmentSpread) : Prop :=
  ∃ f, d.fragment? site.fragment = some f ∧
    (site.address, s) ∈ Selection.placedSpreads [] 0 f.selectionSet.items

/-- A reference from a fragment to a defined one, at a site that is not among the `closed` ones. -/
def RefersBut (d : Document) (closed : List Site) (a b : String) : Prop :=
  ∃ site s, site.fragment = a ∧ site ∉ closed ∧ d.Holds site s ∧ s.name = b ∧
    (d.fragment? b).isSome

/-- Without the references at the `closed` sites there is no cycle. -/
def AcyclicBut (d : Document) (closed : List Site) : Prop := ∀ a, ¬ TransGen (d.RefersBut closed) a a

/-- A reference from a fragment to a defined one. -/
def Refers (d : Document) : String → String → Prop := d.RefersBut []

/-- No fragment refers to itself, directly or through others. -/
def Acyclic (d : Document) : Prop := d.AcyclicBut []

theorem RefersBut.refers {closed : List Site} (h : d.RefersBut closed a b) : d.Refers a b := by
  obtain ⟨site, s, hsite, -, hrest⟩ := h
  exact ⟨site, s, hsite, List.not_mem_nil, hrest⟩

/-- The references of a fragment are the nested ones of its first definition. -/
theorem refers_iff {f : FragmentDefinition} (hf : d.fragment? a = some f) :
    d.Refers a b ↔ (∃ s ∈ Selection.spreadsWithin f.selectionSet.items, s.name = b) ∧
      (d.fragment? b).isSome := by
  constructor
  · rintro ⟨site, s, rfl, -, ⟨g, hg, hs⟩, rfl, hb⟩
    obtain rfl : f = g := Option.some.inj (hf.symm.trans hg)
    exact ⟨⟨s, List.mem_map.mpr ⟨_, hs, rfl⟩, rfl⟩, hb⟩
  · rintro ⟨⟨s, hs, rfl⟩, hb⟩
    obtain ⟨⟨address, t⟩, ht, rfl⟩ := List.mem_map.mp hs
    exact ⟨⟨a, address⟩, t, rfl, List.not_mem_nil, ⟨f, hf, ht⟩, rfl, hb⟩

theorem Refers.source_defined (h : d.Refers a b) : (d.fragment? a).isSome := by
  obtain ⟨site, s, rfl, -, ⟨f, hf, -⟩, -⟩ := h
  simp [hf]

theorem Refers.target_defined (h : d.Refers a b) : (d.fragment? b).isSome := by
  obtain ⟨site, s, -, -, -, -, hb⟩ := h
  exact hb

theorem name_of_fragment? {f : FragmentDefinition} (h : d.fragment? a = some f) : f.name = a := by
  simpa using List.find?_some h

theorem mem_of_fragment? {f : FragmentDefinition} (h : d.fragment? a = some f) :
    f ∈ d.fragments :=
  List.mem_of_find?_eq_some h

/-- A graph without cycles has a rank that falls along every edge; it is the number of fragments
that can be reached. -/
theorem Acyclic.exists_rank (h : d.Acyclic) :
    ∃ rank : String → ℕ, (∀ a b, d.Refers a b → rank b < rank a) ∧
      ∀ a, (d.fragment? a).isSome → rank a < d.fragments.length := by
  classical
  let names := (d.fragments.map (·.name)).toFinset
  let below (a : String) := names.filter (TransGen d.Refers a)
  have hmem {a : String} (ha : (d.fragment? a).isSome) : a ∈ names := by
    obtain ⟨f, hf⟩ := Option.isSome_iff_exists.mp ha
    rw [List.mem_toFinset, List.mem_map]
    exact ⟨f, mem_of_fragment? hf, name_of_fragment? hf⟩
  have hself (a : String) : a ∉ below a := fun ha => h a (Finset.mem_filter.mp ha).2
  refine ⟨fun a => (below a).card, fun a b hab => Finset.card_lt_card ?_, fun a ha => ?_⟩
  · rw [Finset.ssubset_iff_of_subset]
    · exact ⟨b, Finset.mem_filter.mpr ⟨hmem hab.target_defined, .single hab⟩, hself b⟩
    · intro c hc
      obtain ⟨hc, hbc⟩ := Finset.mem_filter.mp hc
      exact Finset.mem_filter.mpr ⟨hc, .head hab hbc⟩
  · have hlt : (below a).card < names.card := by
      refine Finset.card_lt_card ⟨Finset.filter_subset _ _, fun hsub => hself a (hsub (hmem ha))⟩
    have hle : names.card ≤ (d.fragments.map (·.name)).length := List.toFinset_card_le _
    rw [List.length_map] at hle
    exact lt_of_lt_of_le hlt hle

/-! ### Fragments that a search has not visited -/

/-- The number of definitions of fragments that are not among those visited. -/
def unvisited (d : Document) (visited : List String) : ℕ :=
  d.fragments.countP fun f => f.name ∉ visited

theorem unvisited_le {visited more : List String} (h : visited ⊆ more) :
    d.unvisited more ≤ d.unvisited visited := by
  refine List.countP_mono_left fun f _ hf => ?_
  rw [decide_eq_true_eq] at hf ⊢
  exact fun hmem => hf (h hmem)

/-- Visiting a fragment leaves fewer of them. -/
theorem unvisited_lt {visited : List String} {f : FragmentDefinition} (hf : f ∈ d.fragments)
    (hnot : f.name ∉ visited) : d.unvisited (f.name :: visited) < d.unvisited visited := by
  obtain ⟨before, rest, hsplit⟩ := List.append_of_mem hf
  rw [unvisited, unvisited, hsplit, List.countP_append, List.countP_append, List.countP_cons_of_neg,
    List.countP_cons_of_pos]
  · have hmono (list : List FragmentDefinition) :
        (list.countP fun g => g.name ∉ f.name :: visited) ≤
          list.countP fun g => g.name ∉ visited := by
      refine List.countP_mono_left fun g _ hg => ?_
      rw [decide_eq_true_eq] at hg ⊢
      exact fun hmem => hg (List.mem_cons_of_mem _ hmem)
    have hbefore := hmono before
    have hrest := hmono rest
    omega
  · simpa using hnot
  · simp

end Document

end GraphQLCheck
