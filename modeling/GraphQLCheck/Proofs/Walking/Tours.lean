import GraphQLCheck.Proofs.Walking.Parts
import Mathlib.Data.List.Lex

/-!
# Tours of a document

A tour enters every part once, tours what stands in it, and leaves it. `Tour` says so one item at a
time and knows of each step its place; it is a relation, because what stands in a part is given one
level at a time. Four facts follow for every tour of a document (`Document.Tours`): no step is made
twice, the steps are those that the document asks for, parts are entered in the order of the text,
and what is done between entering and leaving a part is what stands in it.
-/

namespace GraphQLCheck

/-- What a walk does at an item. -/
inductive CallKind where
  /-- A part is entered. -/
  | enter
  /-- A part is left. -/
  | leave
  /-- A list is announced. -/
  | announce
  deriving DecidableEq, Repr, Inhabited

/-- Something that a walk does at a place of a document. -/
structure Call where
  /-- The place. -/
  place : List ℕ
  /-- What is done there. -/
  kind : CallKind
  deriving DecidableEq, Repr, Inhabited

/-- The step of the walk that a call at an item is. A part is entered and left, and a list is
announced. -/
def Item.hook? : Item → CallKind → Option Hook
  | part p, .enter => some (.enter p.node)
  | part p, .leave => some (.leave p.node)
  | arguments position list, .announce => some (.arguments position list)
  | directives list, .announce => some (.directives list)
  | _, _ => none

/-- A place is entered and left, and the calls between are those below it. -/
def Call.Nested (calls : List Call) (place : List ℕ) : Prop :=
  ∃ before inside after, calls = before ++ ⟨place, .enter⟩ :: (inside ++ ⟨place, .leave⟩ :: after) ∧
    (∀ call ∈ inside, place <+: call.place ∧ call.place ≠ place) ∧
    (∀ call ∈ before, ¬ place <+: call.place) ∧ ∀ call ∈ after, ¬ place <+: call.place

/-- The calls go through a document: each part is entered and left once and each list is announced
once, in the order of the text and properly nested. -/
structure Document.Tours (d : Document) (calls : List Call) : Prop where
  /-- No call is made twice. -/
  once : calls.Nodup
  /-- The calls are those that the items of the document ask for. -/
  all : ∀ call, call ∈ calls ↔ ∃ above item, d.at? call.place = some (above, item) ∧
    (item.hook? call.kind).isSome
  /-- Parts are entered and lists announced in the order of their places. -/
  ordered : calls.Pairwise fun a b =>
    a.kind ≠ .leave → b.kind ≠ .leave → List.Lex (· < ·) a.place b.place
  /-- What is called between entering and leaving a part is what stands in it. -/
  nested : ∀ place, ⟨place, .enter⟩ ∈ calls → Call.Nested calls place

/-! ### Places side by side -/

section Places

variable {place rest others : List ℕ} {i j : ℕ}

theorem not_isPrefix_of_ne (h : i ≠ j) : ¬ place ++ i :: rest <+: place ++ j :: others := by
  rw [List.prefix_append_right_inj, List.cons_prefix_cons]
  exact fun hle => h hle.1

theorem not_isPrefix_of_below : ¬ place ++ i :: j :: rest <+: place ++ [i] := by
  rw [List.prefix_append_right_inj, List.cons_prefix_cons]
  exact fun hle => List.cons_ne_nil j rest (List.prefix_nil.mp hle.2)

theorem ne_of_below : place ++ [i] ≠ place ++ i :: j :: rest := by
  intro heq
  cases List.append_cancel_left heq

theorem isPrefix_of_below : place ++ [i] <+: place ++ i :: rest := by
  rw [List.prefix_append_right_inj, List.cons_prefix_cons]
  exact ⟨rfl, List.nil_prefix⟩

theorem lex_of_beside (h : i < j) :
    List.Lex (· < ·) (place ++ i :: rest) (place ++ j :: others) :=
  List.Lex.append_left _ (.rel h) place

theorem lex_of_below : List.Lex (· < ·) (place ++ [i]) (place ++ i :: j :: rest) :=
  List.Lex.append_left _ (.cons .nil) place

end Places

theorem Call.Nested.surround {calls : List Call} {place : List ℕ} (h : Nested calls place)
    {outer rest : List Call} (houter : ∀ call ∈ outer, ¬ place <+: call.place)
    (hrest : ∀ call ∈ rest, ¬ place <+: call.place) : Nested (outer ++ calls ++ rest) place := by
  obtain ⟨before, inside, after, rfl, hinside, hbefore, hafter⟩ := h
  refine ⟨outer ++ before, inside, after ++ rest, by simp, hinside, ?_, ?_⟩
  · exact List.forall_mem_append.mpr ⟨houter, hbefore⟩
  · exact List.forall_mem_append.mpr ⟨hafter, hrest⟩

/-! ### Tours -/

/-- The tour of items inside the parts of a path, the first of which has number `k` at a place: the
calls that are made, each with its step and what is known there. -/
inductive Tour (schema : Schema) :
    List Part → List ℕ → ℕ → List Item → List (Call × Visit) → Prop where
  /-- There is nothing left. -/
  | nil {path : List Part} {place : List ℕ} {k : ℕ} : Tour schema path place k [] []
  /-- A list is announced. -/
  | announce {path : List Part} {place : List ℕ} {k : ℕ} {item : Item} {hook : Hook}
      {rest : List Item} {stops : List (Call × Visit)}
      (h : item.hook? .announce = some hook) (hrest : Tour schema path place (k + 1) rest stops) :
      Tour schema path place k (item :: rest)
        ((⟨place ++ [k], .announce⟩, ⟨hook, .inside schema path⟩) :: stops)
  /-- A part is entered, its items are toured, and it is left. -/
  | part {path : List Part} {place : List ℕ} {k : ℕ} {p : Part} {rest : List Item}
      {inner stops : List (Call × Visit)}
      (hinner : Tour schema (p :: path) (place ++ [k]) 0 p.items inner)
      (hrest : Tour schema path place (k + 1) rest stops) :
      Tour schema path place k (.part p :: rest)
        ((⟨place ++ [k], .enter⟩, ⟨.enter p.node, .inside schema (p :: path)⟩) ::
          (inner ++ (⟨place ++ [k], .leave⟩, ⟨.leave p.node, .inside schema (p :: path)⟩) :: stops))

/-- An item is found among items, the first of which has number `k` at a place. -/
def Item.Found (path : List Part) (place : List ℕ) (k : ℕ) (items : List Item) (here : List ℕ)
    (above : List Part) (item : Item) : Prop :=
  ∃ j rest first, here = place ++ (k + j) :: rest ∧ items[j]? = some first ∧
    first.at? path rest = some (above, item)

namespace Item

variable {path above : List Part} {place here : List ℕ} {k : ℕ} {items : List Item}
  {first item : Item}

theorem not_found_nil : ¬ Found path place k [] here above item := by
  rintro ⟨j, rest, first, -, hj, -⟩
  cases hj

/-- An item is found in the first one or in a later one. -/
theorem found_cons_iff : Found path place k (first :: items) here above item ↔
    (∃ rest, here = place ++ k :: rest ∧ first.at? path rest = some (above, item)) ∨
      Found path place (k + 1) items here above item := by
  constructor
  · rintro ⟨j, rest, x, rfl, hj, hx⟩
    cases j with
    | zero =>
      obtain rfl := Option.some.inj hj
      exact .inl ⟨rest, rfl, hx⟩
    | succ j => exact .inr ⟨j, rest, x, by rw [Nat.add_right_comm, Nat.add_assoc], hj, hx⟩
  · rintro (⟨rest, rfl, hx⟩ | ⟨j, rest, x, rfl, hj, hx⟩)
    · exact ⟨0, rest, first, rfl, rfl, hx⟩
    · exact ⟨j + 1, rest, x, by rw [Nat.add_right_comm, Nat.add_assoc], hj, hx⟩

/-- What is found in a part is the part or found among its items. -/
theorem at?_part_iff {p : Part} :
    (∃ rest, here = place ++ k :: rest ∧ (part p).at? path rest = some (above, item)) ↔
      (here = place ++ [k] ∧ above = path ∧ item = part p) ∨
        Found (p :: path) (place ++ [k]) 0 p.items here above item := by
  constructor
  · rintro ⟨rest, rfl, hat⟩
    cases rest with
    | nil =>
      obtain ⟨rfl, rfl⟩ := Prod.mk.inj (Option.some.inj hat)
      exact .inl ⟨rfl, rfl, rfl⟩
    | cons j rest =>
      obtain ⟨first, hfirst, hat⟩ := Option.bind_eq_some_iff.mp hat
      exact .inr ⟨j, rest, first, by simp, hfirst, hat⟩
  · rintro (⟨rfl, rfl, rfl⟩ | ⟨j, rest, first, rfl, hfirst, hat⟩)
    · exact ⟨[], rfl, rfl⟩
    · exact ⟨j :: rest, by simp, Option.bind_eq_some_iff.mpr ⟨first, hfirst, hat⟩⟩

/-- A list is announced, and nothing else is done at it. -/
theorem kind_of_announced {hook : Hook} (h : item.hook? .announce = some hook) {kind : CallKind}
    (hkind : (item.hook? kind).isSome) : kind = .announce := by
  cases item with
  | part p => cases h
  | arguments position list | directives list =>
    cases kind with
    | announce => rfl
    | enter | leave => exact absurd hkind Bool.false_ne_true

theorem path_of_announced {hook : Hook} (h : item.hook? .announce = some hook) :
    item.path path = path := by
  cases item with
  | part p => cases h
  | arguments position list | directives list => rfl

/-- Nothing is found inside a list that is announced. -/
theorem at?_announced {hook : Hook} (h : first.hook? .announce = some hook) {rest : List ℕ}
    (hat : first.at? path rest = some (above, item)) : rest = [] ∧ above = path ∧ item = first := by
  cases rest with
  | nil =>
    obtain ⟨rfl, rfl⟩ := Prod.mk.inj (Option.some.inj hat)
    exact ⟨rfl, rfl, rfl⟩
  | cons j rest =>
    cases first with
    | part p => cases h
    | arguments position list => cases hat
    | directives list => cases hat

/-- Where something is found. -/
theorem Found.place_eq (h : Found path place k items here above item) :
    ∃ j rest, k ≤ j ∧ here = place ++ j :: rest := by
  obtain ⟨j, rest, -, rfl, -, -⟩ := h
  exact ⟨k + j, rest, Nat.le_add_right k j, rfl⟩

end Item

theorem Document.found_iff {d : Document} {here : List ℕ} {above : List Part} {item : Item} :
    Item.Found [] [] 0 [.part (.document d)] here above item ↔ d.at? here = some (above, item) := by
  rw [Item.found_cons_iff, or_iff_left Item.not_found_nil]
  constructor
  · rintro ⟨rest, rfl, hat⟩
    exact hat
  · intro hat
    match here with
    | [] => cases hat
    | 0 :: rest => exact ⟨rest, rfl, hat⟩
    | (j + 1) :: rest => cases hat

namespace Tour

open Item

variable {schema : Schema} {path above : List Part} {place here : List ℕ} {k : ℕ}
  {items others : List Item} {stops : List (Call × Visit)}

/-- Tours one after another. -/
theorem append (h : Tour schema path place k items stops) {later : List (Call × Visit)}
    (hlater : Tour schema path place (k + items.length) others later) :
    Tour schema path place k (items ++ others) (stops ++ later) := by
  induction h with
  | nil => exact hlater
  | announce h _ ih =>
    refine .announce h (ih ?_)
    rwa [List.length_cons, ← Nat.add_assoc, Nat.add_right_comm] at hlater
  | part hinner _ _ ih =>
    rw [List.cons_append, List.cons_append, List.append_assoc, List.cons_append]
    refine .part hinner (ih ?_)
    rwa [List.length_cons, ← Nat.add_assoc, Nat.add_right_comm] at hlater

/-- A stop is a call that an item asks for, and it shows the path to that item. -/
theorem found_of_mem (h : Tour schema path place k items stops) {stop : Call × Visit}
    (hstop : stop ∈ stops) : ∃ above item, Found path place k items stop.1.place above item ∧
      item.hook? stop.1.kind = some stop.2.hook ∧
      stop.2.scope = .inside schema (item.path above) := by
  induction h with
  | nil => cases hstop
  | @announce path place k item hook rest stops hhook hrest ih =>
    rcases List.mem_cons.mp hstop with rfl | hstop
    · refine ⟨path, item, found_cons_iff.mpr (.inl ⟨[], rfl, rfl⟩), hhook, ?_⟩
      rw [path_of_announced hhook]
    · obtain ⟨above, x, hfound, hx⟩ := ih hstop
      exact ⟨above, x, found_cons_iff.mpr (.inr hfound), hx⟩
  | @part path place k p rest inner stops hinner hrest ihInner ihRest =>
    have hpart : Found path place k (.part p :: rest) (place ++ [k]) path (.part p) :=
      found_cons_iff.mpr (.inl ⟨[], rfl, rfl⟩)
    rcases List.mem_cons.mp hstop with rfl | hstop
    · exact ⟨path, .part p, hpart, rfl, rfl⟩
    rcases List.mem_append.mp hstop with hstop | hstop
    · obtain ⟨above, x, hfound, hx⟩ := ihInner hstop
      exact ⟨above, x, found_cons_iff.mpr (.inl (at?_part_iff.mpr (.inr hfound))), hx⟩
    rcases List.mem_cons.mp hstop with rfl | hstop
    · exact ⟨path, .part p, hpart, rfl, rfl⟩
    · obtain ⟨above, x, hfound, hx⟩ := ihRest hstop
      exact ⟨above, x, found_cons_iff.mpr (.inr hfound), hx⟩

/-- What an item asks for is called. -/
theorem mem_of_found (h : Tour schema path place k items stops) {item : Item}
    (hfound : Found path place k items here above item) {kind : CallKind}
    (hkind : (item.hook? kind).isSome) : ⟨here, kind⟩ ∈ stops.map Prod.fst := by
  induction h with
  | nil => exact absurd hfound not_found_nil
  | announce hhook hrest ih =>
    rcases found_cons_iff.mp hfound with ⟨rest, rfl, hat⟩ | hfound
    · obtain ⟨rfl, -, rfl⟩ := at?_announced hhook hat
      obtain rfl := kind_of_announced hhook hkind
      exact List.mem_cons_self
    · exact List.mem_cons_of_mem _ (ih hfound)
  | part hinner hrest ihInner ihRest =>
    rw [List.map_cons, List.map_append, List.map_cons, List.mem_cons, List.mem_append,
      List.mem_cons]
    rcases found_cons_iff.mp hfound with hat | hfound
    · rcases at?_part_iff.mp hat with ⟨rfl, -, rfl⟩ | hfound
      · cases kind with
        | enter => exact .inl rfl
        | leave => exact .inr (.inr (.inl rfl))
        | announce => cases hkind
      · exact .inr (.inl (ihInner hfound))
    · exact .inr (.inr (.inr (ihRest hfound)))

/-- All calls are at the place of one of the items or below it. -/
theorem place_of_mem (h : Tour schema path place k items stops) {call : Call}
    (hcall : call ∈ stops.map Prod.fst) : ∃ j rest, k ≤ j ∧ call.place = place ++ j :: rest := by
  obtain ⟨stop, hstop, rfl⟩ := List.mem_map.mp hcall
  obtain ⟨above, item, hfound, -⟩ := h.found_of_mem hstop
  exact hfound.place_eq

/-- All calls inside a part are below its place. -/
theorem place_of_mem_inner (h : Tour schema path (place ++ [k]) 0 items stops) {call : Call}
    (hcall : call ∈ stops.map Prod.fst) : ∃ j rest, call.place = place ++ k :: j :: rest := by
  obtain ⟨j, rest, -, hplace⟩ := h.place_of_mem hcall
  exact ⟨j, rest, by rw [hplace, List.append_assoc, List.singleton_append]⟩

/-- All calls at later items are beside what is at an item and below it. -/
theorem beside_of_mem (h : Tour schema path place (k + 1) items stops) {call : Call}
    (hcall : call ∈ stops.map Prod.fst) (rest : List ℕ) :
    ¬ place ++ k :: rest <+: call.place ∧ ¬ call.place <+: place ++ k :: rest ∧
      List.Lex (· < ·) (place ++ k :: rest) call.place := by
  obtain ⟨j, others, hj, hplace⟩ := h.place_of_mem hcall
  have hlt : k < j := hj
  rw [hplace]
  exact ⟨not_isPrefix_of_ne hlt.ne, not_isPrefix_of_ne hlt.ne', lex_of_beside hlt⟩

/-- No call is made twice. -/
theorem nodup (h : Tour schema path place k items stops) : (stops.map Prod.fst).Nodup := by
  induction h with
  | nil => exact .nil
  | @announce path place k item hook rest stops hhook hrest ih =>
    refine List.nodup_cons.mpr ⟨fun hmem => ?_, ih⟩
    exact (hrest.beside_of_mem hmem []).1 List.prefix_rfl
  | @part path place k p rest inner stops hinner hrest ihInner ihRest =>
    have hbelow (kind : CallKind) : ⟨place ++ [k], kind⟩ ∉ inner.map Prod.fst := by
      intro hmem
      obtain ⟨j, others, hplace⟩ := hinner.place_of_mem_inner hmem
      exact ne_of_below hplace
    have hbeside (kind : CallKind) : ⟨place ++ [k], kind⟩ ∉ stops.map Prod.fst := fun hmem =>
      (hrest.beside_of_mem hmem []).1 List.prefix_rfl
    have hapart : (inner.map Prod.fst).Disjoint (stops.map Prod.fst) := by
      intro call hcall hlater
      obtain ⟨j, others, hplace⟩ := hinner.place_of_mem_inner hcall
      exact (hrest.beside_of_mem hlater (j :: others)).1 (hplace ▸ List.prefix_rfl)
    rw [List.map_cons, List.map_append, List.map_cons, List.nodup_cons, List.nodup_middle,
      List.nodup_cons]
    refine ⟨?_, ?_, ihInner.append ihRest hapart⟩
    · simp [hbelow, hbeside]
    · simp [hbelow, hbeside]

/-- Of two calls that enter or announce something the earlier one is at the smaller place. -/
theorem ordered (h : Tour schema path place k items stops) :
    (stops.map Prod.fst).Pairwise fun a b =>
      a.kind ≠ .leave → b.kind ≠ .leave → List.Lex (· < ·) a.place b.place := by
  induction h with
  | nil => exact .nil
  | @announce path place k item hook rest stops hhook hrest ih =>
    refine List.pairwise_cons.mpr ⟨fun call hcall _ _ => ?_, ih⟩
    exact (hrest.beside_of_mem hcall []).2.2
  | @part path place k p rest inner stops hinner hrest ihInner ihRest =>
    rw [List.map_cons, List.map_append, List.map_cons, List.pairwise_cons, List.pairwise_append,
      List.pairwise_cons]
    refine ⟨fun call hcall _ hkind => ?_, ihInner, ⟨fun call _ hkind => ?_, ihRest⟩,
      fun call hcall later hlater _ hkind => ?_⟩
    · rcases List.mem_append.mp hcall with hcall | hcall
      · obtain ⟨j, others, hplace⟩ := hinner.place_of_mem_inner hcall
        rw [hplace]
        exact lex_of_below
      · rcases List.mem_cons.mp hcall with rfl | hcall
        · exact absurd rfl hkind
        · exact (hrest.beside_of_mem hcall []).2.2
    · exact absurd rfl hkind
    · rcases List.mem_cons.mp hlater with rfl | hlater
      · exact absurd rfl hkind
      · obtain ⟨j, others, hplace⟩ := hinner.place_of_mem_inner hcall
        rw [hplace]
        exact (hrest.beside_of_mem hlater (j :: others)).2.2

/-- What is called between entering and leaving a part is what stands in it. -/
theorem nested (h : Tour schema path place k items stops)
    (henter : ⟨here, .enter⟩ ∈ stops.map Prod.fst) : Call.Nested (stops.map Prod.fst) here := by
  induction h with
  | nil => cases henter
  | @announce path place k item hook rest stops hhook hrest ih =>
    rcases List.mem_cons.mp henter with heq | henter
    · cases heq
    · have hbefore := (hrest.beside_of_mem henter []).2.1
      simpa using (ih henter).surround (List.forall_mem_singleton.mpr hbefore)
        (List.forall_mem_nil _)
  | @part path place k p rest inner stops hinner hrest ihInner ihRest =>
    rw [List.map_cons, List.map_append, List.map_cons] at henter ⊢
    rcases List.mem_cons.mp henter with heq | henter
    · -- The part itself: its tour is what stands between.
      obtain rfl : here = place ++ [k] := congrArg Call.place heq
      refine ⟨[], inner.map Prod.fst, stops.map Prod.fst, rfl, fun call hcall => ?_,
        List.forall_mem_nil _, fun call hcall => (hrest.beside_of_mem hcall []).1⟩
      obtain ⟨j, others, hplace⟩ := hinner.place_of_mem_inner hcall
      rw [hplace]
      exact ⟨isPrefix_of_below, ne_of_below.symm⟩
    rcases List.mem_append.mp henter with henter | henter
    · -- A part inside it.
      obtain ⟨j, others, hplace⟩ := hinner.place_of_mem_inner henter
      change here = _ at hplace
      have hhere : ¬ here <+: place ++ [k] := hplace ▸ not_isPrefix_of_below
      have hlater : ∀ call ∈ stops.map Prod.fst, ¬ here <+: call.place := fun call hcall =>
        hplace ▸ (hrest.beside_of_mem hcall (j :: others)).1
      have hfirst : ∀ call ∈ [(⟨place ++ [k], .enter⟩ : Call)], ¬ here <+: call.place :=
        List.forall_mem_singleton.mpr hhere
      have hlast : ∀ call ∈ (⟨place ++ [k], .leave⟩ : Call) :: stops.map Prod.fst,
          ¬ here <+: call.place := List.forall_mem_cons.mpr ⟨hhere, hlater⟩
      simpa using (ihInner henter).surround hfirst hlast
    rcases List.mem_cons.mp henter with heq | henter
    · cases heq
    · -- A part of a later item.
      have hbeside := hrest.beside_of_mem henter
      have houter : ∀ call ∈ (⟨place ++ [k], .enter⟩ : Call) ::
          (inner.map Prod.fst ++ [⟨place ++ [k], .leave⟩]), ¬ here <+: call.place := by
        intro call hcall
        rcases List.mem_cons.mp hcall with rfl | hcall
        · exact (hbeside []).2.1
        rcases List.mem_append.mp hcall with hcall | hcall
        · obtain ⟨j, others, hplace⟩ := hinner.place_of_mem_inner hcall
          rw [hplace]
          exact (hbeside (j :: others)).2.1
        · rw [List.mem_singleton.mp hcall]
          exact (hbeside []).2.1
      simpa using (ihRest henter).surround houter (List.forall_mem_nil _)

end Tour

/-- A tour of a document goes through it. -/
theorem Document.tours_of_tour {schema : Schema} {d : Document} {stops : List (Call × Visit)}
    (h : Tour schema [] [] 0 [.part (.document d)] stops) : d.Tours (stops.map Prod.fst) where
  once := h.nodup
  all call := by
    constructor
    · intro hcall
      obtain ⟨stop, hstop, rfl⟩ := List.mem_map.mp hcall
      obtain ⟨above, item, hfound, hhook, -⟩ := h.found_of_mem hstop
      exact ⟨above, item, found_iff.mp hfound, by rw [hhook]; rfl⟩
    · rintro ⟨above, item, hat, hkind⟩
      exact h.mem_of_found (found_iff.mpr hat) hkind
  ordered := h.ordered
  nested _ := h.nested

end GraphQLCheck
