import GraphQLCheck.Proofs.CycleSearch
import GraphQLCheck.Proofs.FieldMerging
import GraphQLCheck.Proofs.Overlap.Calls

/-!
# The search for conflicts comes to an end

In a document without cycles of fragments the calls of the search come to an end, whatever of a walk
is remembered when it starts (`overlap_search_terminates`). No depth is left to chance: each function
of the search, with the depth that it is given, finds what the calls find that count no depth. What
bounds the calls is what bounds the outcome of the search: a fragment has a smaller number than the
one that refers to it, and a field is less deep than the set that selects it (`Fits`).
-/

namespace GraphQLCheck.Overlap

variable {schema : Schema} {d : Document} {rank : String → ℕ} {compare : Comparison} {depth : ℕ}
  {s : CallState}

/-- The comparison of two fields is what the calls come to, for fields to a given depth. -/
def Ends (schema : Schema) (d : Document) (rank : String → ℕ) (depth : ℕ) (compare : Comparison) :
    Prop :=
  ∀ exclusive c s k l, Faithful schema d s.2 → Ready schema d rank depth k c.first →
    Ready schema d rank depth l c.second →
    Settles schema d [.fields exclusive c] s (onMemory (compare exclusive c) s)

/-! ### Fields and fragments -/

section Placed

variable {name n : String} {place : Address} {f : FragmentDefinition} {e : Entry}

/-- The own fields of a fragment can be compared if all fields can that it selects. -/
theorem Ranking.ready_of_placed (hrank : Ranking d rank)
    (hplaced : d.placedFragment? name = some (place, f))
    (hfits : ∀ y, FragmentSelects schema d name y → Fits d rank depth y.items) :
    ∀ y ∈ fieldsOf schema (schema.type? f.condition) place f.selectionSet.items,
      Ready schema d rank depth (rank name) y := by
  intro y hy
  have hselects : FragmentSelects schema d name y := ⟨place, f, hplaced, .field hy⟩
  exact hrank.ready_of_fragment hselects (hfits y hselects)

/-- A fragment that another one refers to has a smaller number, and the other one selects what it
selects. -/
theorem Ranking.of_mentioned (hrank : Ranking d rank)
    (hplaced : d.placedFragment? name = some (place, f))
    (he : Describes schema (schema.type? f.condition) place f.selectionSet.items e)
    (hn : n ∈ e.fragments) :
    rank n < rank name ∧ ∀ y, FragmentSelects schema d n y → FragmentSelects schema d name y :=
  ⟨(hrank.below hplaced).mentioned ((he.fragments n).mp hn),
    fun y hy => (fragmentSelects_iff hplaced he y).mpr (.inr ⟨n, hn, hy⟩)⟩

end Placed

section Level

variable {k l : ℕ} {parent? other? : Option TypeDefinition} {address place : Address}
  {items others : List Selection} {e e' : Entry}

theorem between_settles (exclusive : Bool) (hcompare : Ends schema d rank depth compare)
    (he : Describes schema parent? address items e) (he' : Describes schema other? place others e')
    (hready : ∀ x ∈ fieldsOf schema parent? address items, Ready schema d rank depth k x)
    (hready' : ∀ y ∈ fieldsOf schema other? place others, Ready schema d rank depth l y)
    (hs : Faithful schema d s.2) :
    Settles schema d ((Candidate.between e.fields e'.fields).map (.fields exclusive)) s
      (onMemory (forEach (compare exclusive) (Candidate.between e.fields e'.fields)) s) := by
  refine .forEachOnMemory _ hs fun c hc s hs => ?_
  obtain ⟨x, hx, y, hy, hxc, hyc, -⟩ := he.of_mem_between he' hc
  exact hcompare exclusive c s k l hs ((hready x hx).congr hxc) ((hready' y hy).congr hyc)

theorem within_settles (hcompare : Ends schema d rank depth compare)
    (he : Describes schema parent? address items e)
    (hready : ∀ x ∈ fieldsOf schema parent? address items, Ready schema d rank depth k x)
    (hs : Faithful schema d s.2) :
    Settles schema d ((Candidate.within e.fields).map (.fields false)) s
      (onMemory (forEach (compare false) (Candidate.within e.fields)) s) := by
  refine .forEachOnMemory _ hs fun c hc s hs => ?_
  obtain ⟨x, hx, y, hy, hxc, hyc, -⟩ := he.of_mem_within hc
  exact hcompare false c s k k hs ((hready x hx).congr hxc) ((hready y hy).congr hyc)

/-- Comparing the fields of a set with those of a fragment, to a depth greater than the number of the
fragment. -/
theorem withFragment_settles (exclusive : Bool) (hrank : Ranking d rank)
    (hcompare : Ends schema d rank depth compare) (he : Describes schema parent? address items e)
    (hready : ∀ x ∈ fieldsOf schema parent? address items, Ready schema d rank depth k x)
    {fuel : ℕ} {name : String} (hfuel : rank name < fuel)
    (hfits : ∀ y, FragmentSelects schema d name y → Fits d rank depth y.items)
    (hs : Faithful schema d s.2) :
    Settles schema d [.fragment exclusive e name] s
      (withFragment schema d compare exclusive e fuel name s) := by
  induction fuel generalizing name s with
  | zero => exact absurd hfuel (Nat.not_lt_zero _)
  | succ fuel ih =>
    obtain ⟨names, m⟩ := s
    rw [withFragment]
    by_cases hmem : name ∈ names
    · rw [if_pos hmem]
      exact .leaf hs hs (by rw [Task.calls, if_pos hmem])
    rw [if_neg hmem]
    cases hplaced : d.placedFragment? name with
    | none => exact .leaf hs hs (by simp [Task.calls, hmem, hplaced])
    | some p =>
      obtain ⟨place, f⟩ := p
      obtain ⟨hother, hfaithful, -⟩ := fragmentEntry_spec hplaced hs
      dsimp only at hother hfaithful ⊢
      by_cases hsame : (fragmentEntry schema place f m).1.address = e.address
      · rw [if_pos hsame]
        exact .leaf hs hfaithful (by simp [Task.calls, hmem, hplaced, hsame])
      rw [if_neg hsame]
      have hfields : Settles schema d _ (name :: names, (fragmentEntry schema place f m).2) _ :=
        between_settles exclusive hcompare he hother hready (hrank.ready_of_placed hplaced hfits)
          hfaithful
      have hfragment (n : String) (hn : n ∈ (fragmentEntry schema place f m).1.fragments)
          (s : CallState) (hs : Faithful schema d s.2) :
          Settles schema d [.fragment exclusive e n] s
            (withFragment schema d compare exclusive e fuel n s) := by
        -- One less is left, but the number is smaller too.
        obtain ⟨hlower, hselects⟩ := hrank.of_mentioned hplaced hother hn
        exact ih (by omega) (fun y hy => hfits y (hselects y hy)) hs
      exact .single hs (Task.calls_fragment hmem hplaced rfl hsame)
        (hfields.append (.forEach _ hfields.faithful hfragment))

/-- Comparing the fields of a set with those of fragments, none of which has been met. -/
theorem withFragments_settles (exclusive : Bool) (hrank : Ranking d rank)
    (hcompare : Ends schema d rank depth compare) (he : Describes schema parent? address items e)
    (hready : ∀ x ∈ fieldsOf schema parent? address items, Ready schema d rank depth k x)
    {names : List String}
    (hfits : ∀ n ∈ names, ∀ y, FragmentSelects schema d n y → Fits d rank depth y.items)
    (hs : Faithful schema d s.2) :
    ∃ met, Settles schema d (.afresh :: names.map (.fragment exclusive e)) s
      ((withFragments schema d compare exclusive e names s.2).1, met,
        (withFragments schema d compare exclusive e names s.2).2) := by
  have hafresh : Settles schema d [.afresh] s ([], [], s.2) := .leaf hs hs rfl
  refine ⟨_, hafresh.append (.forEach names hs fun n hn s hs => ?_)⟩
  exact withFragment_settles exclusive hrank hcompare he hready
    (Nat.lt_succ_of_le (hrank.bounded n)) (hfits n hn) hs

end Level

section Pairs

variable {a b : String} {place place' : Address} {f g : FragmentDefinition}

/-- The depth that is given to the comparison of fragments is greater than the sum of the numbers of
two different ones. -/
theorem sum_lt_pairDepth (hrank : Ranking d rank) (ha : d.placedFragment? a = some (place, f))
    (hb : d.placedFragment? b = some (place', g)) (hab : a ≠ b) :
    rank a + rank b < pairDepth d := by
  have hf := (Document.placedFragment?_spec ha).1
  have hg := (Document.placedFragment?_spec hb).1
  have htwo : 2 ≤ d.fragments.length := by
    have hnodup : [a, b].Nodup := by simpa using hab
    have hsubset : [a, b] ⊆ d.fragments.map (·.name) := by
      rw [List.cons_subset, List.cons_subset]
      exact ⟨List.mem_map.mpr ⟨f, Document.mem_of_fragment? hf, Document.name_of_fragment? hf⟩,
        List.mem_map.mpr ⟨g, Document.mem_of_fragment? hg, Document.name_of_fragment? hg⟩,
        List.nil_subset _⟩
    simpa using (hnodup.subperm hsubset).length_le
  have hmul := Nat.mul_le_mul_right d.fragments.length htwo
  have hle := Nat.add_le_add (hrank.bounded a) (hrank.bounded b)
  unfold pairDepth
  omega

/-- Comparing two fragments that are defined, given the comparison of pairs with a smaller sum of
numbers. -/
theorem definedFragments_settles (exclusive : Bool) (hrank : Ranking d rank)
    (hcompare : Ends schema d rank depth compare) (ha : d.placedFragment? a = some (place, f))
    (hb : d.placedFragment? b = some (place', g)) {e e' : Entry}
    (he : Describes schema (schema.type? f.condition) place f.selectionSet.items e)
    (he' : Describes schema (schema.type? g.condition) place' g.selectionSet.items e')
    (hfits : ∀ x, FragmentSelects schema d a x → Fits d rank depth x.items)
    (hfits' : ∀ y, FragmentSelects schema d b y → Fits d rank depth y.items)
    {find : String × String → Memory → List Conflict × Memory}
    (hfind : ∀ x y, rank x + rank y < rank a + rank b →
      (∀ o, FragmentSelects schema d x o → Fits d rank depth o.items) →
      (∀ o, FragmentSelects schema d y o → Fits d rank depth o.items) →
      ∀ s, Faithful schema d s.2 →
        Settles schema d [.pair exclusive (x, y)] s (onMemory (find (x, y)) s))
    (hs : Faithful schema d s.2) :
    let found := onMemory (forEach (compare exclusive) (Candidate.between e.fields e'.fields)) s
    let right := onMemory (forEach find (e'.fragments.map (a, ·))) found.2
    let left := onMemory (forEach find (e.fragments.map (·, b))) right.2
    Settles schema d
      ((Candidate.between e.fields e'.fields).map (.fields exclusive) ++
        (e'.fragments.map (a, ·)).map (.pair exclusive) ++
        (e.fragments.map (·, b)).map (.pair exclusive))
      s (found.1 ++ right.1 ++ left.1, left.2) := by
  intro found right left
  have hfields : Settles schema d _ s found := between_settles exclusive hcompare he he'
    (hrank.ready_of_placed ha hfits) (hrank.ready_of_placed hb hfits') hs
  have hright : Settles schema d ((e'.fragments.map (a, ·)).map (.pair exclusive)) found.2 right := by
    refine .forEachOnMemory _ hfields.faithful fun p hp s hs => ?_
    obtain ⟨n, hn, rfl⟩ := List.mem_map.mp hp
    obtain ⟨hlower, hselects⟩ := hrank.of_mentioned hb he' hn
    exact hfind a n (by omega) hfits (fun y hy => hfits' y (hselects y hy)) s hs
  have hleft : Settles schema d ((e.fragments.map (·, b)).map (.pair exclusive)) right.2 left := by
    refine .forEachOnMemory _ hright.faithful fun p hp s hs => ?_
    obtain ⟨n, hn, rfl⟩ := List.mem_map.mp hp
    obtain ⟨hlower, hselects⟩ := hrank.of_mentioned ha he hn
    exact hfind n b (by omega) (fun x hx => hfits x (hselects x hx)) hfits' s hs
  exact (hfields.append hright).append hleft

/-- Comparing two fragments, to a depth greater than the sum of their numbers if they are different
and defined. -/
theorem betweenFragments_settles (exclusive : Bool) (hrank : Ranking d rank)
    (hcompare : Ends schema d rank depth compare) {fuel : ℕ} (hpositive : 0 < fuel)
    (hfuel : ∀ {p q}, d.placedFragment? a = some p → d.placedFragment? b = some q → a ≠ b →
      rank a + rank b < fuel)
    (hfits : ∀ x, FragmentSelects schema d a x → Fits d rank depth x.items)
    (hfits' : ∀ y, FragmentSelects schema d b y → Fits d rank depth y.items)
    (hs : Faithful schema d s.2) :
    Settles schema d [.pair exclusive (a, b)] s
      (onMemory (betweenFragments schema d compare exclusive fuel (a, b)) s) := by
  induction fuel generalizing a b s with
  | zero => exact absurd hpositive (lt_irrefl 0)
  | succ fuel ih =>
    obtain ⟨names, m⟩ := s
    rw [onMemory, betweenFragments]
    by_cases hab : a = b
    · rw [if_pos hab]
      exact .leaf hs hs (by rw [Task.calls, if_pos hab])
    rw [if_neg hab]
    by_cases hcontains : m.compared.contains a b exclusive = true
    · rw [if_pos hcontains]
      exact .leaf hs hs (by rw [Task.calls, if_neg hab, if_pos hcontains])
    rw [if_neg hcontains]
    have hmemory : Faithful schema d { m with compared := m.compared.insert a b exclusive } := hs
    cases ha : d.placedFragment? a with
    | none => exact .leaf hs hmemory (by simp [Task.calls, hab, hcontains, ha])
    | some p =>
      cases hb : d.placedFragment? b with
      | none => exact .leaf hs hmemory (by simp [Task.calls, hab, hcontains, ha, hb])
      | some q =>
        have hsum := hfuel ha hb hab
        obtain ⟨place, f⟩ := p
        obtain ⟨place', g⟩ := q
        obtain ⟨he, hfaithful, -⟩ := fragmentEntry_spec ha hmemory
        obtain ⟨he', hfaithful', -⟩ := fragmentEntry_spec hb hfaithful
        -- A pair met inside may be undefined; it is remembered only if something is left.
        have hdeep : 0 < fuel := by
          have := hrank.positive ha
          have := hrank.positive hb
          omega
        have hdefined := definedFragments_settles (s := (names, _)) exclusive hrank hcompare ha hb he
          he' hfits hfits'
          (fun x y hlower hx hy s hs => ih hdeep (fun _ _ _ => by omega) hx hy hs) hfaithful'
        exact .single hs (Task.calls_pair hab hcontains ha hb rfl rfl) hdefined

end Pairs

/-! ### Sets and fields -/

section Sets

variable {k l : ℕ} {parent? other? : Option TypeDefinition} {address : Address}
  {items : List Selection} {e : Entry} {a b : Occurrence} {m : Memory}

/-- Comparing fragments in pairs, with the depth that is given to it. -/
theorem pairs_settles (exclusive : Bool) (hrank : Ranking d rank)
    (hcompare : Ends schema d rank depth compare) (pairs : List (String × String))
    (hfits : ∀ p ∈ pairs, ∀ x, FragmentSelects schema d p.1 x → Fits d rank depth x.items)
    (hfits' : ∀ p ∈ pairs, ∀ y, FragmentSelects schema d p.2 y → Fits d rank depth y.items)
    (hs : Faithful schema d s.2) :
    Settles schema d (pairs.map (.pair exclusive)) s
      (onMemory
        (forEach (betweenFragments schema d compare exclusive (pairDepth d)) pairs) s) := by
  refine .forEachOnMemory pairs hs fun p hp s hs => ?_
  exact betweenFragments_settles exclusive hrank hcompare (Nat.succ_pos _)
    (fun hp hq => sum_lt_pairDepth hrank hp hq) (hfits p hp) (hfits' p hp) hs

/-- Comparing the own sets of two fields. -/
theorem betweenSets_settles (exclusive : Bool) (names : List String) (hrank : Ranking d rank)
    (hcompare : Ends schema d rank depth compare) (ha : Ready schema d rank (depth + 1) k a)
    (hb : Ready schema d rank (depth + 1) l b) (hm : Faithful schema d m)
    {entry other : Entry × Memory}
    (hentry : m.entry schema (a.type? schema) a.address a.items = entry)
    (hother : entry.2.entry schema (b.type? schema) b.address b.items = other) :
    ∃ met, Settles schema d (Task.ofSets exclusive entry.1 other.1) (names, other.2)
      ((betweenSets schema d compare exclusive a b m).1, met,
        (betweenSets schema d compare exclusive a b m).2) := by
  obtain ⟨he, hfaithful, -⟩ := hentry ▸ entry_spec hm ha.placed.own (.of_set ha.placed.own)
  obtain ⟨he', hfaithful', -⟩ := hother ▸ entry_spec hfaithful hb.placed.own (.of_set hb.placed.own)
  have hready (x : Occurrence) (hx : Selects schema d (a.type? schema) a.address a.items x) :
      Ready schema d rank depth k x := ready_of_selects hrank ha.placed.own ha.below ha.fits hx
  have hready' (y : Occurrence) (hy : Selects schema d (b.type? schema) b.address b.items y) :
      Ready schema d rank depth l y := ready_of_selects hrank hb.placed.own hb.below hb.fits hy
  have hfits (n : String) (hn : n ∈ entry.1.fragments) (x : Occurrence)
      (hx : FragmentSelects schema d n x) : Fits d rank depth x.items :=
    (hready x ((he.selects_iff x).mpr (.inr ⟨n, hn, hx⟩))).fits
  have hfits' (n : String) (hn : n ∈ other.1.fragments) (y : Occurrence)
      (hy : FragmentSelects schema d n y) : Fits d rank depth y.items :=
    (hready' y ((he'.selects_iff y).mpr (.inr ⟨n, hn, hy⟩))).fits
  have hfields : Settles schema d _ (names, other.2) _ := between_settles exclusive hcompare he he'
    (fun x hx => hready x (.field hx)) (fun y hy => hready' y (.field hy)) hfaithful'
  obtain ⟨met, hright⟩ := withFragments_settles exclusive hrank hcompare he
    (fun x hx => hready x (.field hx)) hfits' hfields.faithful
  obtain ⟨met', hleft⟩ := withFragments_settles exclusive hrank hcompare he'
    (fun y hy => hready' y (.field hy)) hfits hright.faithful
  have hmem {p : String × String}
      (hp : p ∈ entry.1.fragments.flatMap fun x => other.1.fragments.map (x, ·)) :
      p.1 ∈ entry.1.fragments ∧ p.2 ∈ other.1.fragments := by
    obtain ⟨x, hx, hp⟩ := List.mem_flatMap.mp hp
    obtain ⟨y, hy, rfl⟩ := List.mem_map.mp hp
    exact ⟨hx, hy⟩
  have hpairs := pairs_settles exclusive hrank hcompare
    (entry.1.fragments.flatMap fun x => other.1.fragments.map (x, ·))
    (fun p hp => hfits p.1 (hmem hp).1) (fun p hp => hfits' p.2 (hmem hp).2) hleft.faithful
  subst hentry hother
  exact ⟨met', ((hfields.append hright).append hleft).append hpairs⟩

/-- The comparison of fields is what its calls come to, if its depth is enough. -/
theorem ends_compareFields (hrank : Ranking d rank) (depth : ℕ) :
    Ends schema d rank depth (compareFields schema d depth) := by
  induction depth with
  | zero =>
    -- No field fits into no depth.
    intro exclusive c s k l _ hfirst
    obtain ⟨bound, -, hdepth⟩ := hfirst.fits
    omega
  | succ depth ih =>
    rintro exclusive c ⟨names, m⟩ k l hm ha hb
    rw [onMemory, compareFields]
    dsimp only
    cases hreason : ownReason? schema (exclusive || fromDifferentObjects c.first c.second) c.first
        c.second with
    | some reason =>
      have hleaf : Settles schema d [.fields exclusive c] (names, m) _ :=
        .leaf hm hm (by simp only [Task.calls, hreason])
      rwa [Task.returns_fields_some hreason] at hleaf
    | none =>
      dsimp only
      by_cases hempty : (c.first.items.isEmpty || c.second.items.isEmpty) = true
      · rw [if_pos hempty]
        have hleaf : Settles schema d [.fields exclusive c] (names, m) _ :=
          .leaf hm hm (by simp only [Task.calls, hreason, if_pos hempty])
        rwa [Task.returns_fields_none hreason] at hleaf
      · rw [if_neg hempty]
        obtain ⟨met, hsets⟩ := betweenSets_settles
          (exclusive || fromDifferentObjects c.first c.second) names hrank ih ha hb hm rfl rfl
        have hfields := Settles.single hm (Task.calls_fields hreason hempty rfl rfl) hsets
        rw [Task.returns_fields_none hreason] at hfields
        dsimp only at hfields
        generalize betweenSets schema d (compareFields schema d depth)
          (exclusive || fromDifferentObjects c.first c.second) c.first c.second m = result
          at hfields ⊢
        by_cases hnil : result.1.isEmpty = true
        · simpa only [if_pos hnil] using hfields
        · simpa only [if_neg hnil] using hfields

/-! ### One set -/

theorem fragmentsWithin_settles (hrank : Ranking d rank)
    (hcompare : Ends schema d rank depth compare) (he : Describes schema parent? address items e)
    (hready : ∀ x ∈ fieldsOf schema parent? address items, Ready schema d rank depth k x)
    (names : List String)
    (hfits : ∀ n ∈ names, ∀ y, FragmentSelects schema d n y → Fits d rank depth y.items)
    (hs : Faithful schema d s.2) :
    Settles schema d (Task.ofFragments e names) s (fragmentsWithin schema d compare e names s) := by
  induction names generalizing s with
  | nil => exact .nil hs
  | cons name rest ih =>
    have hrest (n : String) (hn : n ∈ rest) := hfits n (List.mem_cons_of_mem name hn)
    have hself := hfits name List.mem_cons_self
    have hfields := withFragment_settles false hrank hcompare he hready
      (Nat.lt_succ_of_le (hrank.bounded name)) hself hs
    have hpairs := pairs_settles false hrank hcompare (rest.map (name, ·))
      (fun p hp => by
        obtain ⟨n, -, rfl⟩ := List.mem_map.mp hp
        exact hself)
      (fun p hp => by
        obtain ⟨n, hn, rfl⟩ := List.mem_map.mp hp
        exact hrest n hn) hfields.faithful
    exact (hfields.append hpairs).append (ih hrest hpairs.faithful)

/-- Looking for conflicts inside a set, with fields compared to a depth that is enough for it. -/
theorem withinSet_settles (hrank : Ranking d rank) (hcompare : Ends schema d rank depth compare)
    (hset : d.HasSet schema parent? address items) (hagree : Agree schema parent? other?)
    (hfits : Fits d rank (depth + 1) items) (hs : Faithful schema d s.2) :
    Settles schema d [.within other? address items] s
      (onMemory (withinSet schema d compare other? address items) s) := by
  obtain ⟨he, hfaithful, -⟩ := entry_spec hs hset hagree
  obtain ⟨bound, hbound, hdepth⟩ := hfits
  have hready (x : Occurrence) (hx : Selects schema d parent? address items x) :
      Ready schema d rank depth bound x :=
    ready_of_selects hrank hset hbound ⟨bound, hbound, hdepth⟩ hx
  have hfields : Settles schema d _ (s.1, _) _ :=
    within_settles hcompare he (fun x hx => hready x (.field hx)) hfaithful
  have hafresh : Settles schema d [.afresh] _ ([], [], _) :=
    .leaf hfields.faithful hfields.faithful rfl
  have hfragments := fragmentsWithin_settles hrank hcompare he (fun x hx => hready x (.field hx))
    (s.2.entry schema other? address items).1.fragments
    (fun n hn y hy => (hready y ((he.selects_iff y).mpr (.inr ⟨n, hn, hy⟩))).fits) hafresh.faithful
  exact Settles.single (t := .within other? address items) hs rfl
    (hfields.append (hafresh.append hfragments))

end Sets

/-! ### The walk -/

theorem Fits.mono {items : List Selection} {more : ℕ} (h : Fits d rank depth items)
    (hle : depth ≤ more) : Fits d rank more items := by
  obtain ⟨bound, hbound, hdepth⟩ := h
  exact ⟨bound, hbound, hdepth.trans_le hle⟩

/-- The call that the rule makes at a visit. -/
def Task.ofVisit? (v : Visit) : Option Task :=
  match v.hook with
  | .enter (.selectionSet address set) => some (.within v.scope.parent? address set.items)
  | _ => none

/-- The rule makes a call where a set is entered, and nowhere else. -/
theorem Task.ofVisit?_cases (schema : Schema) (d : Document) (v : Visit) :
    (∃ address set, v.hook = .enter (.selectionSet address set) ∧
      ofVisit? v = some (.within v.scope.parent? address set.items) ∧
      look schema d v = withinSet schema d (compareFields schema d (searchDepth d)) v.scope.parent?
        address set.items) ∨
    ofVisit? v = none ∧ look schema d v = fun m => ([], m) := by
  obtain ⟨hook, scope⟩ := v
  cases hook with
  | enter node =>
    cases node with
    | selectionSet address set => exact .inl ⟨address, set, rfl, rfl, rfl⟩
    | _ => exact .inr ⟨rfl, rfl⟩
  | _ => exact .inr ⟨rfl, rfl⟩

/-- The calls that the rule makes along a walk. -/
def Task.ofWalk (schema : Schema) (d : Document) : List Task :=
  (d.visits schema).filterMap Task.ofVisit?

/-- The search at a visit, to any depth from that of the document on. -/
theorem settles_of_mem_visits (hrank : Ranking d rank) {v : Visit} (hv : v ∈ d.visits schema)
    {address : Address} {set : SelectionSet} (hhook : v.hook = .enter (.selectionSet address set))
    (hdepth : searchDepth d ≤ depth) (hs : Faithful schema d s.2) :
    Settles schema d [.within v.scope.parent? address set.items] s
      (onMemory (withinSet schema d (compareFields schema d depth) v.scope.parent? address set.items)
        s) := by
  obtain ⟨type?, hset, hagree⟩ := exists_set_of_mem_visits hv hhook
  exact withinSet_settles hrank (ends_compareFields hrank depth) hset hagree
    ((fits_searchDepth hrank hset).mono (by omega)) hs

theorem walk_settles (hrank : Ranking d rank) (visits : List Visit)
    (hvisits : visits ⊆ d.visits schema) (hs : Faithful schema d s.2) :
    Settles schema d (visits.filterMap Task.ofVisit?) s
      (onMemory (forEach (look schema d) visits) s) := by
  induction visits generalizing s with
  | nil => exact .nil hs
  | cons v visits ih =>
    obtain ⟨hv, hvisits⟩ := List.cons_subset.mp hvisits
    have hlook : Settles schema d (Task.ofVisit? v).toList s (onMemory (look schema d v) s) := by
      rcases Task.ofVisit?_cases schema d v with ⟨address, set, hhook, htask, hlook⟩ | ⟨htask, hlook⟩
      · rw [htask, hlook]
        exact settles_of_mem_visits hrank hv hhook le_rfl hs
      · rw [htask, hlook]
        exact .nil hs
    have htasks : (v :: visits).filterMap Task.ofVisit? =
        (Task.ofVisit? v).toList ++ visits.filterMap Task.ofVisit? := by
      rw [List.filterMap_cons]
      cases Task.ofVisit? v <;> rfl
    rw [htasks]
    exact hlook.append (ih hvisits hlook.faithful)

/-- The memory is met in a walk: one of the calls is made with it, or it is left at the end. -/
def Met (schema : Schema) (d : Document) (m : Memory) : Prop :=
  (∃ t names, Inside schema d (Task.ofWalk schema d) ([], .empty) t (names, m)) ∨
    ∃ found names, Runs schema d (Task.ofWalk schema d) ([], .empty) (found, names, m)

theorem Met.faithful (hrank : Ranking d rank) {m : Memory} (h : Met schema d m) :
    Faithful schema d m := by
  have hwalk := walk_settles (s := ([], .empty)) hrank (d.visits schema) (List.Subset.refl _)
    faithful_empty
  rcases h with ⟨t, names, hinside⟩ | ⟨found, names, hruns⟩
  · exact hwalk.inside hinside
  · have hfaithful := hwalk.faithful
    rwa [hwalk.runs.unique hruns] at hfaithful

end GraphQLCheck.Overlap

namespace GraphQLCheck

open Overlap

/-- Without cycles of fragments the search for conflicts comes to an end. The calls that the rule
makes along the walk do, and what they find is what the rule reports. The search of any set of the
walk comes to an end with any memory that is met in it, in one way only, and what it comes to is what
the search finds to any depth from one on that depends on the document alone. -/
theorem overlap_search_terminates (schema : Schema) (d : Document) (h : d.Acyclic) :
    (∃ result, Runs schema d (Task.ofWalk schema d) ([], .empty) result ∧
      (Validation.ofRules [.overlappingFieldsCanBeMerged]).diagnostics schema d =
        (result.1.map (·.finding)).map (Diagnostic.ofFinding .overlappingFieldsCanBeMerged)) ∧
    ∀ v ∈ d.visits schema, ∀ address set, v.hook = .enter (.selectionSet address set) →
      ∀ m names, Met schema d m → ∃ found m',
        (∀ result, Runs schema d [.within v.scope.parent? address set.items] (names, m) result ↔
          result = (found, names, m')) ∧
        ∀ depth, searchDepth d ≤ depth →
          withinSet schema d (compareFields schema d depth) v.scope.parent? address set.items m =
            (found, m') := by
  obtain ⟨rank, hrank⟩ := exists_ranking h
  constructor
  · have hwalk := walk_settles (s := ([], .empty)) hrank (d.visits schema) (List.Subset.refl _)
      faithful_empty
    exact ⟨_, hwalk.runs, diagnostics_overlapping schema d⟩
  · intro v hv address set hhook m names hm
    have hsettles {depth : ℕ} (hdepth : searchDepth d ≤ depth) :=
      settles_of_mem_visits (s := (names, m)) hrank hv hhook hdepth (hm.faithful hrank)
    have hruns := (hsettles le_rfl).runs
    refine ⟨_, _, fun result => ⟨fun hresult => hresult.unique hruns, ?_⟩, fun depth hdepth => ?_⟩
    · rintro rfl
      exact hruns
    · exact eq_of_onMemory ((hsettles hdepth).runs.unique hruns)

/-- What a query selects: a fragment, and a field with selections. -/
def layeredItems : List Selection :=
  [.spread ⟨⟨1, 3⟩, "F", []⟩, .field ⟨⟨1, 8⟩, none, "f", [], []⟩ ⟨⟨1, 10⟩, ⟨1, 17⟩⟩
    [.field ⟨⟨1, 12⟩, some "x", "f", [], []⟩ ⟨⟨1, 12⟩, ⟨1, 12⟩⟩ []]]

/-- The query, and fragments of which one refers to the other inside a field. -/
def layeredDocument : Document :=
  ⟨[.bare ⟨⟨⟨1, 1⟩, ⟨1, 19⟩⟩, layeredItems⟩,
    .fragment ⟨⟨2, 1⟩, "F", "Query", [], ⟨⟨⟨2, 21⟩, ⟨2, 34⟩⟩, [.field ⟨⟨2, 23⟩, none, "f", [], []⟩
      ⟨⟨2, 25⟩, ⟨2, 32⟩⟩ [.spread ⟨⟨2, 27⟩, "G", []⟩]]⟩⟩,
    .fragment ⟨⟨3, 1⟩, "G", "Query", [], ⟨⟨⟨3, 21⟩, ⟨3, 28⟩⟩,
      [.field ⟨⟨3, 23⟩, some "x", "g", [], []⟩ ⟨⟨3, 23⟩, ⟨3, 23⟩⟩ []]⟩⟩], []⟩

theorem acyclic_layeredDocument : layeredDocument.Acyclic :=
  (CycleSearch.diagnostics_eq_nil_iff_acyclic default layeredDocument).mp (by decide +kernel)

/-- The search of the query starts with nothing remembered, and finds a conflict inside the fields
that the query and its fragment select. -/
theorem layered_search_terminates :
    layeredDocument.Acyclic ∧ Met default layeredDocument .empty ∧
      ∃ found m', found ≠ [] ∧
        ∀ result, Runs default layeredDocument [.within none [0] layeredItems] ([], .empty) result ↔
          result = (found, [], m') := by
  have hmet : Met default layeredDocument .empty := .inl ⟨_, _, .here⟩
  have hvisit : (layeredDocument.visits default)[3] ∈ layeredDocument.visits default :=
    List.getElem_mem _
  obtain ⟨found, m', hruns, hfuel⟩ := (overlap_search_terminates default layeredDocument
    acyclic_layeredDocument).2 _ hvisit [0] ⟨⟨⟨1, 1⟩, ⟨1, 19⟩⟩, layeredItems⟩ rfl .empty [] hmet
  have hfound : (withinSet default layeredDocument
      (compareFields default layeredDocument (searchDepth layeredDocument)) none [0] layeredItems
      .empty).1.isEmpty = false := by decide +kernel
  refine ⟨acyclic_layeredDocument, hmet, found, m', ?_, hruns⟩
  rintro rfl
  exact Bool.false_ne_true (hfound.symm.trans (congrArg (·.1.isEmpty) (hfuel _ le_rfl)))

end GraphQLCheck
