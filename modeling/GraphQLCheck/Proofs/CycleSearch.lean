import GraphQLCheck.Proofs.Reports
import GraphQLCheck.Proofs.Walk
import Mathlib.Data.List.Forall2

/-!
# The search for cycles of fragments

The search follows references depth first. A fragment is `done` when all its references have been
followed; then each of them either closes a cycle over fragments that were being explored, and is
reported, or leads to a fragment that was done before. So the fragments in the order in which they
were done show that there is no cycle left without the reported references (`Ordered.acyclicBut`).

What one call of the search does is said by `Advance`; `follow_spec`, `followAll_spec` and
`explore_spec` establish it, and `searchAll_spec` puts the calls of a whole walk together. That each
of them has a result is part of the statements: the depth that is given suffices.

The references on the path lead from each fragment being explored to the innermost one
(`Trail.leads`), so a reference to one of them closes a cycle that consists of the rest of the path
(`shows_closes`).
-/

namespace GraphQLCheck

open Relation

namespace Document

variable {d : Document} {closed closed' : List Site} {done : List String} {a b : String}

/-! ### Fragments in the order in which they are done -/

/-- Each of the fragments, the latest first, refers only to earlier ones, the references at the
`closed` sites apart. -/
def Ordered (d : Document) (closed : List Site) : List String → Prop
  | [] => True
  | a :: rest => (∀ b, d.RefersBut closed a b → b ∈ rest) ∧ Ordered d closed rest

theorem RefersBut.mono (hsub : closed ⊆ closed') (h : d.RefersBut closed' a b) :
    d.RefersBut closed a b := by
  obtain ⟨site, s, hsite, hnot, hrest⟩ := h
  exact ⟨site, s, hsite, fun hmem => hnot (hsub hmem), hrest⟩

theorem Ordered.mono (hsub : closed ⊆ closed') (h : d.Ordered closed done) :
    d.Ordered closed' done := by
  induction done with
  | nil => trivial
  | cons a rest ih => exact ⟨fun b hb => h.1 b (hb.mono hsub), ih h.2⟩

theorem Ordered.mem_of_refers (h : d.Ordered closed done) (ha : a ∈ done)
    (hab : d.RefersBut closed a b) : b ∈ done := by
  induction done with
  | nil => cases ha
  | cons c rest ih =>
    rcases List.mem_cons.mp ha with rfl | ha
    · exact List.mem_cons_of_mem _ (h.1 b hab)
    · exact List.mem_cons_of_mem _ (ih h.2 ha)

theorem Ordered.mem_of_transGen (h : d.Ordered closed done) (ha : a ∈ done)
    (hab : TransGen (d.RefersBut closed) a b) : b ∈ done := by
  induction hab with
  | single hab => exact h.mem_of_refers ha hab
  | tail _ hbc ih => exact h.mem_of_refers ih hbc

theorem Ordered.not_cycle (h : d.Ordered closed done) (hnodup : done.Nodup) (ha : a ∈ done) :
    ¬ TransGen (d.RefersBut closed) a a := by
  induction done with
  | nil => cases ha
  | cons c rest ih =>
    rw [List.nodup_cons] at hnodup
    rcases List.mem_cons.mp ha with rfl | ha
    · -- A cycle through the latest fragment would come back to it from an earlier one.
      intro hcycle
      obtain ⟨b, hab, hba⟩ := TransGen.head'_iff.mp hcycle
      have hb := h.1 b hab
      rcases reflTransGen_iff_eq_or_transGen.mp hba with rfl | hba
      · exact hnodup.1 hb
      · exact hnodup.1 (h.2.mem_of_transGen hb hba)
    · exact ih h.2 hnodup.2 ha

/-- If all fragments are done, no cycle avoids the closed sites. -/
theorem Ordered.acyclicBut (h : d.Ordered closed done) (hnodup : done.Nodup)
    (hall : ∀ a, (d.fragment? a).isSome → a ∈ done) : d.AcyclicBut closed := by
  intro a hcycle
  obtain ⟨b, hab, -⟩ := TransGen.head'_iff.mp hcycle
  exact h.not_cycle hnodup (hall a hab.refers.source_defined) hcycle

/-! ### Cycles and what is said of them -/

/-- References that lead from one fragment to another: each stands in the first definition of the
fragment that the one before it names. -/
def Leads (d : Document) : String → List FragmentSpread → String → Prop
  | a, [], b => a = b
  | a, s :: rest, b => (∃ address, d.Holds ⟨a, address⟩ s) ∧ Leads d s.name rest b

theorem Leads.concat {spreads : List FragmentSpread} {address : Address} {s : FragmentSpread}
    (h : d.Leads a spreads b) (hs : d.Holds ⟨b, address⟩ s) : d.Leads a (spreads ++ [s]) s.name := by
  induction spreads generalizing a with
  | nil =>
    obtain rfl : a = b := h
    exact ⟨⟨address, hs⟩, rfl⟩
  | cons first rest ih => exact ⟨h.1, ih h.2⟩

/-- The message about a fragment that contains itself through others. -/
def cycleMessage (first : String) (via : List String) : String :=
  "Cannot spread fragment \"" ++ first ++ "\" within itself" ++
    (if via.isEmpty then ""
      else " via " ++ ", ".intercalate (via.map fun name => "\"" ++ name ++ "\"")) ++ "."

/-- The finding is about a cycle of the graph: different fragments, each of which refers to the next
one and the last of which to the first. -/
structure ShowsCycle (d : Document) (f : Finding) (first : String) (via : List String) : Prop where
  /-- The message names the fragments. -/
  message : f.message = cycleMessage first via
  /-- They are different. -/
  nodup : (first :: via).Nodup
  /-- They are defined. -/
  defined : ∀ name ∈ first :: via, (d.fragment? name).isSome
  /-- The nodes are references to the fragments, the first one last, and lead from it back to it. -/
  nodes : ∃ spreads : List FragmentSpread, spreads.map (·.name) = via ++ [first] ∧
    d.Leads first spreads first ∧ f.nodes = spreads.map (·.ref)

end Document

namespace CycleSearch

variable {d : Document} {s s' s'' : CycleSearch} {closed new more : List Site}
  {done done' done'' : List String} {found found' : List Finding}

/-! ### The path of a search -/

/-- The fragments being explored, the innermost first, and the references followed to them. -/
inductive Trail (d : Document) : List (String × ℕ) → List FragmentSpread → Prop where
  /-- No fragment is being explored. -/
  | none : Trail d [] []
  /-- The search starts at a fragment. -/
  | start {a : String} : (d.fragment? a).isSome → Trail d [(a, 0)] []
  /-- A reference of the innermost fragment is followed to another. -/
  | follow {a : String} {k : ℕ} {steps : List (String × ℕ)} {path : List FragmentSpread}
      {address : Address} {spread : FragmentSpread} :
      Trail d ((a, k) :: steps) path → d.Holds ⟨a, address⟩ spread →
      (d.fragment? spread.name).isSome →
      Trail d ((spread.name, (path ++ [spread]).length) :: (a, k) :: steps) (path ++ [spread])

theorem refers_of_holds {a : String} {address : Address} {spread : FragmentSpread}
    (h : d.Holds ⟨a, address⟩ spread) (hdef : (d.fragment? spread.name).isSome) :
    d.Refers a spread.name :=
  ⟨⟨a, address⟩, spread, rfl, List.not_mem_nil, h, rfl, hdef⟩

/-- A fragment being explored is defined, stands on the path and leads to the innermost one. -/
theorem Trail.of_mem {steps : List (String × ℕ)} {path : List FragmentSpread} {a n : String}
    {k m : ℕ} (h : Trail d ((a, k) :: steps) path) (hn : (n, m) ∈ (a, k) :: steps) :
    (d.fragment? n).isSome ∧ m ≤ path.length ∧ ReflTransGen d.Refers n a := by
  generalize hall : (a, k) :: steps = all at h hn
  induction h generalizing a k steps with
  | none => cases hn
  | start hdef =>
    obtain ⟨rfl, rfl⟩ := Prod.mk.inj (List.mem_singleton.mp hn)
    obtain ⟨⟨rfl, rfl⟩, -⟩ : (a = n ∧ k = 0) ∧ steps = [] := by simpa using hall
    exact ⟨hdef, le_rfl, .refl⟩
  | @follow b j rest path address spread htrail hholds hdef ih =>
    obtain ⟨⟨rfl, rfl⟩, rfl⟩ :
        (a = spread.name ∧ k = (path ++ [spread]).length) ∧ steps = (b, j) :: rest := by
      simpa using hall
    rcases List.mem_cons.mp hn with heq | hn
    · obtain ⟨rfl, rfl⟩ := Prod.mk.inj heq
      exact ⟨hdef, le_rfl, .refl⟩
    · obtain ⟨hdef', hle, hreach⟩ := ih rfl hn
      refine ⟨hdef', ?_, hreach.tail (refers_of_holds hholds hdef)⟩
      rw [List.length_append]
      omega

/-- A fragment being explored leads to the innermost one by the references followed after it, which
name the fragments explored inside it. -/
theorem Trail.leads {steps : List (String × ℕ)} {path : List FragmentSpread} {a n : String}
    {k m : ℕ} (h : Trail d ((a, k) :: steps) path) (hn : (n, m) ∈ (a, k) :: steps) :
    d.Leads n (path.drop m) a ∧
      (n :: (path.drop m).map (·.name)).reverse <+: ((a, k) :: steps).map (·.1) := by
  generalize hall : (a, k) :: steps = all at h hn
  induction h generalizing a k steps with
  | none => cases hn
  | start hdef =>
    obtain ⟨rfl, rfl⟩ := Prod.mk.inj (List.mem_singleton.mp hn)
    obtain ⟨⟨rfl, rfl⟩, -⟩ : (a = n ∧ k = 0) ∧ steps = [] := by simpa using hall
    exact ⟨rfl, List.prefix_rfl⟩
  | @follow b j rest path address spread htrail hholds hdef ih =>
    obtain ⟨⟨rfl, rfl⟩, rfl⟩ :
        (a = spread.name ∧ k = (path ++ [spread]).length) ∧ steps = (b, j) :: rest := by
      simpa using hall
    rcases List.mem_cons.mp hn with heq | hn
    · obtain ⟨rfl, rfl⟩ := Prod.mk.inj heq
      rw [List.drop_length]
      exact ⟨rfl, List.cons_prefix_cons.mpr ⟨rfl, List.nil_prefix⟩⟩
    · obtain ⟨hleads, hnames⟩ := ih rfl hn
      have hle : m ≤ path.length := (htrail.of_mem hn).2.1
      rw [List.drop_append_of_le_length hle]
      refine ⟨hleads.concat hholds, ?_⟩
      rw [List.map_append, List.map_singleton, ← List.cons_append, List.reverse_concat]
      exact List.cons_prefix_cons.mpr ⟨rfl, hnames⟩

/-- A reference of the innermost fragment to one being explored closes a cycle. -/
theorem shows_closes {steps : List (String × ℕ)} {path : List FragmentSpread} {a : String} {k m : ℕ}
    {address : Address} {spread : FragmentSpread} (htrail : Trail d ((a, k) :: steps) path)
    (hnodup : (((a, k) :: steps).map (·.1)).Nodup) (hholds : d.Holds ⟨a, address⟩ spread)
    (hmem : (spread.name, m) ∈ (a, k) :: steps) :
    d.ShowsCycle (closes spread (path.drop m)) spread.name ((path.drop m).map (·.name)) where
  message := by
    have hquoted : ((path.drop m).map (·.name)).map (fun name => "\"" ++ name ++ "\"") =
        (path.drop m).map fun s => "\"" ++ s.name ++ "\"" := List.map_map
    unfold closes Document.cycleMessage
    rw [hquoted, List.isEmpty_map]
  nodup := List.nodup_reverse.mp ((htrail.leads hmem).2.sublist.nodup hnodup)
  defined name hname := by
    obtain ⟨⟨n, i⟩, hn, rfl⟩ :=
      List.mem_map.mp ((htrail.leads hmem).2.subset (List.mem_reverse.mpr hname))
    exact (htrail.of_mem hn).1
  nodes := ⟨path.drop m ++ [spread], by rw [List.map_append, List.map_singleton],
    (htrail.leads hmem).1.concat hholds, rfl⟩

/-! ### What a call achieves -/

/-- The finding ends with the reference at a site. -/
def ReportsAt (d : Document) (f : Finding) (site : Site) : Prop :=
  ∃ spread, d.Holds site spread ∧ f.nodes.getLast? = some spread.ref

/-- How far the search has come: the fragments in `done` have all their references followed, those
at the `closed` sites have been reported. -/
structure Progress (d : Document) (s : CycleSearch) (closed : List Site) (done : List String) :
    Prop where
  /-- A fragment that is explored is done or being explored. -/
  explored : ∀ n, n ∈ s.explored ↔ n ∈ done ∨ n ∈ s.steps.map (·.1)
  /-- No fragment is done twice or while it is being explored. -/
  nodup : (done ++ s.steps.map (·.1)).Nodup
  /-- What is done leads only to what was done before. -/
  ordered : d.Ordered closed done
  /-- No reference is reported twice. -/
  nodup_closed : closed.Nodup
  /-- Only references of explored fragments are reported. -/
  source : ∀ site ∈ closed, site.fragment ∈ s.explored
  /-- Nothing is reported without a cycle. -/
  real : closed ≠ [] → ∃ a, TransGen d.Refers a a

/-- A call leads from `s` to `s'`: it leaves the path as it is, reports the references at the `new`
sites, and more fragments are done. -/
structure Advance (d : Document) (s : CycleSearch) (closed : List Site) (done : List String)
    (s' : CycleSearch) (found : List Finding) (new : List Site) (done' : List String) : Prop where
  /-- The path is the same. -/
  path : s'.path = s.path
  /-- The same fragments are being explored. -/
  steps : s'.steps = s.steps
  /-- How far the search has come. -/
  progress : Progress d s' (closed ++ new) done'
  /-- What was done stays done. -/
  done_subset : done ⊆ done'
  /-- What is found are the references at the new sites. -/
  reported : List.Forall₂ (ReportsAt d) found new
  /-- What is found are cycles. -/
  shown : ∀ f ∈ found, ∃ first via, d.ShowsCycle f first via

theorem Advance.refl (h : Progress d s closed done) : Advance d s closed done s [] [] done where
  path := rfl
  steps := rfl
  progress := by rwa [List.append_nil]
  done_subset := fun _ h => h
  reported := .nil
  shown := List.forall_mem_nil _

theorem Advance.trans (h : Advance d s closed done s' found new done')
    (h' : Advance d s' (closed ++ new) done' s'' found' more done'') :
    Advance d s closed done s'' (found ++ found') (new ++ more) done'' where
  path := h'.path.trans h.path
  steps := h'.steps.trans h.steps
  progress := by rw [← List.append_assoc]; exact h'.progress
  done_subset := fun _ hn => h'.done_subset (h.done_subset hn)
  reported := List.rel_append h.reported h'.reported
  shown := List.forall_mem_append.mpr ⟨h.shown, h'.shown⟩

theorem Advance.explored_subset (hs : Progress d s closed done)
    (h : Advance d s closed done s' found new done') : s.explored ⊆ s'.explored := by
  intro n hn
  rw [h.progress.explored, h.steps]
  exact ((hs.explored n).mp hn).imp_left fun hn => h.done_subset hn

/-! ### The calls of a search -/

/-- What exploring a fragment achieves, as long as at most `depth` definitions are not explored: it
has a result, the fragment is done, and only references of fragments that were not explored are
reported. -/
def Explores (d : Document) (depth : ℕ)
    (inner : FragmentDefinition → CycleSearch → Option (CycleSearch × List Finding)) : Prop :=
  ∀ f s closed done, d.fragment? f.name = some f → f.name ∉ s.explored →
    Trail d ((f.name, s.path.length) :: s.steps) s.path → Progress d s closed done →
    d.unvisited s.explored ≤ depth →
    ∃ s' found new done', inner f s = some (s', found) ∧
      Advance d s closed done s' found new done' ∧ f.name ∈ done' ∧
      ∀ site ∈ new, site.fragment ∉ s.explored

variable {depth : ℕ} {inner : FragmentDefinition → CycleSearch → Option (CycleSearch × List Finding)}
  {a : String} {k : ℕ} {steps : List (String × ℕ)}

theorem getLast?_closes (spread : FragmentSpread) (between : List FragmentSpread) :
    (closes spread between).nodes.getLast? = some spread.ref := by
  have hnodes : (closes spread between).nodes = (between ++ [spread]).map FragmentSpread.ref := rfl
  rw [hnodes, List.map_append, List.map_singleton, List.getLast?_concat]

/-- A reference to a fragment on the path is reported. -/
theorem Advance.close {address : Address} {spread : FragmentSpread} {m : ℕ}
    (hsteps : s.steps = (a, k) :: steps) (htrail : Trail d s.steps s.path)
    (hs : Progress d s closed done) (hholds : d.Holds ⟨a, address⟩ spread)
    (hnew : (⟨a, address⟩ : Site) ∉ closed) (hmem : (spread.name, m) ∈ s.steps) :
    Advance d s closed done s [closes spread (s.path.drop m)] [⟨a, address⟩] done where
  path := rfl
  steps := rfl
  progress := by
    rw [hsteps] at htrail hmem
    obtain ⟨hdef, -, hreach⟩ := htrail.of_mem hmem
    refine ⟨hs.explored, hs.nodup, hs.ordered.mono (List.subset_append_left _ _), ?_, ?_, ?_⟩
    · rw [← List.concat_eq_append, List.nodup_concat]
      exact ⟨hnew, hs.nodup_closed⟩
    · intro site hsite
      rcases List.mem_append.mp hsite with hsite | hsite
      · exact hs.source site hsite
      · rw [List.mem_singleton.mp hsite, hs.explored, hsteps]
        exact .inr (by simp)
    · exact fun _ => ⟨spread.name, TransGen.tail' hreach (refers_of_holds hholds hdef)⟩
  done_subset := fun _ h => h
  reported := .cons ⟨spread, hholds, getLast?_closes spread _⟩ .nil
  shown := by
    have hnodup := (List.nodup_append.mp hs.nodup).2.1
    rw [hsteps] at htrail hmem hnodup
    exact List.forall_mem_singleton.mpr ⟨_, _, shows_closes htrail hnodup hholds hmem⟩

/-- The state inside a reference that is followed. -/
theorem Progress.inside {path : List FragmentSpread} (h : Progress d s closed done) :
    Progress d { s with path } closed done :=
  ⟨h.explored, h.nodup, h.ordered, h.nodup_closed, h.source, h.real⟩

theorem follow_spec (hexplore : Explores d depth inner) {address : Address}
    {spread : FragmentSpread} (hsteps : s.steps = (a, k) :: steps) (htrail : Trail d s.steps s.path)
    (hs : Progress d s closed done) (hholds : d.Holds ⟨a, address⟩ spread)
    (hnew : (⟨a, address⟩ : Site) ∉ closed) (hdepth : d.unvisited s.explored ≤ depth) :
    ∃ s' found new done', follow d inner spread s = some (s', found) ∧
      Advance d s closed done s' found new done' ∧
      (∀ site ∈ new, site.fragment ∉ s.explored ∨ site = ⟨a, address⟩) ∧
      ((⟨a, address⟩ : Site) ∈ closed ++ new ∨ d.fragment? spread.name = none ∨
        spread.name ∈ done') := by
  cases hlookup : s.steps.lookup spread.name with
  | some m =>
    obtain ⟨before, rest, hsplit, -⟩ := List.lookup_eq_some_iff.mp hlookup
    have hmem : (spread.name, m) ∈ s.steps := by simp [hsplit]
    have hle : m ≤ s.path.length := by
      rw [hsteps] at htrail hmem
      exact (htrail.of_mem hmem).2.1
    refine ⟨s, [closes spread (s.path.drop m)], [⟨a, address⟩], done, ?_,
      .close hsteps htrail hs hholds hnew hmem, by simp, by simp⟩
    simp [follow, hlookup, pathFrom?, hle]
  | none =>
    have hnot : spread.name ∉ s.steps.map (·.1) := by
      rw [List.lookup_eq_none_iff] at hlookup
      intro hmem
      obtain ⟨p, hp, heq⟩ := List.mem_map.mp hmem
      simpa [heq] using hlookup p hp
    by_cases hexplored : spread.name ∈ s.explored
    · refine ⟨s, [], [], done, ?_, .refl hs, by simp, .inr (.inr ?_)⟩
      · simp [follow, hlookup, hexplored]
      · exact ((hs.explored _).mp hexplored).resolve_right hnot
    · cases hfragment : d.fragment? spread.name with
      | none =>
        refine ⟨s, [], [], done, ?_, .refl hs, by simp, .inr (.inl rfl)⟩
        simp [follow, hlookup, hexplored, hfragment]
      | some f =>
        have hname := Document.name_of_fragment? hfragment
        have htrail' : Trail d ((f.name, (s.path ++ [spread]).length) :: s.steps)
            (s.path ++ [spread]) := by
          rw [hsteps] at htrail ⊢
          rw [hname]
          exact .follow htrail hholds (by simp [hfragment])
        obtain ⟨s', found, new, done', hresult, hadvance, hdone, hfresh⟩ :=
          hexplore f { s with path := s.path ++ [spread] } closed done (by rw [hname, hfragment])
            (by rw [hname]; exact hexplored) htrail' hs.inside hdepth
        refine ⟨{ s' with path := s'.path.dropLast }, found, new, done', ?_,
          ⟨?_, hadvance.steps, hadvance.progress.inside, hadvance.done_subset, hadvance.reported,
            hadvance.shown⟩,
          fun site hsite => .inl (hfresh site hsite), .inr (.inr (hname ▸ hdone))⟩
        · simp [follow, hlookup, hexplored, hfragment, hresult]
        · simp [hadvance.path]

/-- Following the references of the innermost fragment one after another. -/
theorem followAll_spec (hexplore : Explores d depth inner) (todo : List (Address × FragmentSpread))
    (hsteps : s.steps = (a, k) :: steps) (htrail : Trail d s.steps s.path)
    (hs : Progress d s closed done) (hholds : ∀ p ∈ todo, d.Holds ⟨a, p.1⟩ p.2)
    (hnodup : (todo.map (·.1)).Nodup) (hnew : ∀ p ∈ todo, (⟨a, p.1⟩ : Site) ∉ closed)
    (hdepth : d.unvisited s.explored ≤ depth) :
    ∃ s' found new done', followAll d inner (todo.map (·.2)) s = some (s', found) ∧
      Advance d s closed done s' found new done' ∧
      (∀ site ∈ new, site.fragment ∉ s.explored ∨ ∃ p ∈ todo, site = ⟨a, p.1⟩) ∧
      ∀ p ∈ todo, (⟨a, p.1⟩ : Site) ∈ closed ++ new ∨ d.fragment? p.2.name = none ∨
        p.2.name ∈ done' := by
  induction todo generalizing s closed done with
  | nil => exact ⟨s, [], [], done, rfl, .refl hs, by simp, by simp⟩
  | cons p todo ih =>
    rw [List.map_cons, List.nodup_cons] at hnodup
    have ha : a ∈ s.explored := by
      rw [hs.explored, hsteps]
      exact .inr (by simp)
    obtain ⟨s₁, found₁, new₁, done₁, hresult₁, hadvance₁, hfresh₁, hedge₁⟩ :=
      follow_spec hexplore hsteps htrail hs (hholds p List.mem_cons_self)
        (hnew p List.mem_cons_self) hdepth
    have hnew₁ : ∀ q ∈ todo, (⟨a, q.1⟩ : Site) ∉ closed ++ new₁ := by
      intro q hq hmem
      rcases List.mem_append.mp hmem with hmem | hmem
      · exact hnew q (List.mem_cons_of_mem p hq) hmem
      · rcases hfresh₁ _ hmem with hfresh | heq
        · exact hfresh ha
        · rw [Site.mk.injEq] at heq
          exact hnodup.1 (heq.2 ▸ List.mem_map_of_mem hq)
    have hsub := hadvance₁.explored_subset hs
    obtain ⟨s₂, found₂, new₂, done₂, hresult₂, hadvance₂, hfresh₂, hedge₂⟩ :=
      ih (hadvance₁.steps.trans hsteps) (by rwa [hadvance₁.steps, hadvance₁.path])
        hadvance₁.progress (fun q hq => hholds q (List.mem_cons_of_mem p hq)) hnodup.2 hnew₁
        ((Document.unvisited_le hsub).trans hdepth)
    refine ⟨s₂, found₁ ++ found₂, new₁ ++ new₂, done₂, ?_, hadvance₁.trans hadvance₂, ?_, ?_⟩
    · simp [followAll, hresult₁, hresult₂]
    · intro site hsite
      rcases List.mem_append.mp hsite with hsite | hsite
      · exact (hfresh₁ site hsite).imp_right fun heq => ⟨p, List.mem_cons_self, heq⟩
      · refine (hfresh₂ site hsite).imp (fun hnot hmem => hnot (hsub hmem)) ?_
        rintro ⟨q, hq, heq⟩
        exact ⟨q, List.mem_cons_of_mem p hq, heq⟩
    · intro q hq
      rw [← List.append_assoc]
      rcases List.mem_cons.mp hq with rfl | hq
      · refine hedge₁.imp (fun hmem => List.mem_append_left _ hmem) (.imp_right fun hmem => ?_)
        exact hadvance₂.done_subset hmem
      · exact hedge₂ q hq

/-- The state in which the references of a fragment are followed. -/
theorem Progress.push {f : FragmentDefinition} {m : ℕ} (h : Progress d s closed done)
    (hnot : f.name ∉ s.explored) :
    Progress d { s with explored := f.name :: s.explored, steps := (f.name, m) :: s.steps } closed
      done where
  explored n := by
    rw [List.mem_cons, h.explored, List.map_cons, List.mem_cons]
    exact or_left_comm
  nodup := by
    rw [h.explored, ← List.mem_append] at hnot
    exact List.nodup_middle.mpr (List.nodup_cons.mpr ⟨hnot, h.nodup⟩)
  ordered := h.ordered
  nodup_closed := h.nodup_closed
  source site hsite := List.mem_cons_of_mem _ (h.source site hsite)
  real := h.real

/-- The state in which a fragment is done. -/
theorem Progress.finish {f : FragmentDefinition} {m : ℕ}
    (h : Progress d s closed done) (hsteps : s.steps = (f.name, m) :: steps)
    (hrefers : ∀ b, d.RefersBut closed f.name b → b ∈ done) :
    Progress d { s with steps } closed (f.name :: done) where
  explored n := by
    rw [h.explored, hsteps, List.map_cons, List.mem_cons, List.mem_cons, or_left_comm, or_assoc]
  nodup := by
    have hnodup := h.nodup
    rw [hsteps, List.map_cons] at hnodup
    exact List.nodup_middle.mp hnodup
  ordered := ⟨hrefers, h.ordered⟩
  nodup_closed := h.nodup_closed
  source := h.source
  real := h.real

/-- Where every reference of a fragment is closed, undefined or leads to something done, all that is
left of them leads to something done. -/
theorem done_of_refersBut {f : FragmentDefinition} {placed : List (Address × FragmentSpread)}
    (hf : d.fragment? f.name = some f)
    (hperm : placed.Perm (Selection.placedSpreads [] 0 f.selectionSet.items))
    (hedge : ∀ p ∈ placed, (⟨f.name, p.1⟩ : Site) ∈ closed ∨ d.fragment? p.2.name = none ∨
      p.2.name ∈ done) (b : String) (hb : d.RefersBut closed f.name b) : b ∈ done := by
  obtain ⟨⟨fragment, address⟩, spread, rfl, hnot, ⟨g, hg, hmem⟩, rfl, hdef⟩ := hb
  obtain rfl : f = g := Option.some.inj (hf.symm.trans hg)
  rcases hedge _ (hperm.symm.subset hmem) with hclosed | hnone | hdone
  · exact absurd hclosed hnot
  · simp [hnone] at hdef
  · exact hdone

/-- Exploring a fragment, where at most `depth` definitions are not explored. -/
theorem explore_spec (depth : ℕ) : Explores d depth (explore d depth) := by
  induction depth with
  | zero =>
    intro f s closed done hf hnot _ _ hdepth
    have hlt := Document.unvisited_lt (Document.mem_of_fragment? hf) hnot
    omega
  | succ depth ih =>
    intro f s closed done hf hnot htrail hs hdepth
    obtain ⟨placed, hplaced, hperm⟩ := f.selectionSet.exists_placed_spreads
    have hpush := hs.push (m := s.path.length) hnot
    cases hspreads : f.selectionSet.spreads with
    | nil =>
      have hnil : placed = [] := List.map_eq_nil_iff.mp (hplaced.trans hspreads)
      have hrefers : ∀ b, d.RefersBut closed f.name b → b ∈ done :=
        done_of_refersBut hf hperm (by simp [hnil])
      refine ⟨{ s with explored := f.name :: s.explored }, [], [], f.name :: done,
        by simp [explore, hspreads],
        ⟨rfl, rfl, ?_, List.subset_cons_self _ _, .nil, List.forall_mem_nil _⟩, List.mem_cons_self,
        by simp⟩
      rw [List.append_nil]
      exact hpush.finish rfl hrefers
    | cons first rest =>
      have hlt := Document.unvisited_lt (Document.mem_of_fragment? hf) hnot
      obtain ⟨s', found, new, done', hresult, hadvance, hfresh, hedge⟩ :=
        followAll_spec ih placed rfl htrail hpush
          (fun p hp => ⟨f, hf, hperm.subset hp⟩)
          ((hperm.map _).nodup_iff.mpr (Selection.nodup_placedSpreads _ _ _))
          (fun p _ hmem => hnot (hs.source _ hmem)) (by dsimp only; omega)
      have hsteps : s'.steps.filter (·.1 ≠ f.name) = s.steps := by
        have hkeys : f.name ∉ s.steps.map (·.1) := fun hmem =>
          hnot ((hs.explored _).mpr (.inr hmem))
        rw [hadvance.steps, List.filter_cons_of_neg (by simp), List.filter_eq_self]
        intro p hp
        simp only [decide_not, Bool.not_eq_eq_eq_not, Bool.not_true, decide_eq_false_iff_not]
        exact fun heq => hkeys (heq ▸ List.mem_map_of_mem hp)
      refine ⟨{ s' with steps := s'.steps.filter (·.1 ≠ f.name) }, found, new, f.name :: done', ?_,
        ⟨hadvance.path, hsteps, ?_, ?_, hadvance.reported, hadvance.shown⟩, List.mem_cons_self, ?_⟩
      · rw [hplaced, hspreads] at hresult
        simp [explore, hspreads, hresult]
      · rw [hsteps]
        exact hadvance.progress.finish hadvance.steps (done_of_refersBut hf hperm hedge)
      · exact fun n hn => List.mem_cons_of_mem _ (hadvance.done_subset hn)
      · intro site hsite
        rcases hfresh site hsite with hfresh | ⟨p, -, rfl⟩
        · exact fun hmem => hfresh (List.mem_cons_of_mem _ hmem)
        · exact hnot

/-! ### The search along a walk -/

/-- Enter definitions of fragments one after another. There is no result if one of them has none. -/
def searchAll (d : Document) :
    List FragmentDefinition → CycleSearch → Option (CycleSearch × List Finding)
  | [], s => some (s, [])
  | f :: rest, s => do
    let (s, found) ← s.enter d f
    let (s, more) ← searchAll d rest s
    return (s, found ++ more)

/-- A definition of a fragment is the first of its name if no earlier one has that name. -/
theorem fragment?_of_split {before rest : List FragmentDefinition} {f : FragmentDefinition}
    (hsplit : d.fragments = before ++ f :: rest) (hfirst : ∀ g ∈ before, g.name ≠ f.name) :
    d.fragment? f.name = some f := by
  rw [Document.fragment?, hsplit, List.find?_append, List.find?_eq_none.mpr (by simpa using hfirst)]
  simp

/-- Entering definitions one after another, those before having been entered. -/
theorem searchAll_segment {before rest after : List FragmentDefinition}
    (hsplit : d.fragments = before ++ rest ++ after) (hbefore : ∀ f ∈ before, f.name ∈ s.explored)
    (hpath : s.path = []) (hsteps : s.steps = []) (hs : Progress d s closed done) :
    ∃ s' found new done', searchAll d rest s = some (s', found) ∧
      Advance d s closed done s' found new done' ∧ ∀ f ∈ rest, f.name ∈ done' := by
  induction rest generalizing before s closed done with
  | nil => exact ⟨s, [], [], done, rfl, .refl hs, by simp⟩
  | cons f rest ih =>
    have henter : ∃ s' found new done', s.enter d f = some (s', found) ∧
        Advance d s closed done s' found new done' ∧ f.name ∈ done' := by
      by_cases hmem : f.name ∈ s.explored
      · refine ⟨s, [], [], done, by simp [enter, hmem], .refl hs, ?_⟩
        simpa [hsteps] using (hs.explored _).mp hmem
      · have hf : d.fragment? f.name = some f :=
          fragment?_of_split (hsplit.trans (List.append_assoc before _ after)) fun g hg heq =>
            hmem (heq ▸ hbefore g hg)
        have htrail : Trail d ((f.name, s.path.length) :: s.steps) s.path := by
          rw [hpath, hsteps]
          exact .start (by simp [hf])
        obtain ⟨s', found, new, done', hresult, hadvance, hdone, -⟩ :=
          explore_spec d.fragments.length f s closed done hf hmem htrail hs List.countP_le_length
        exact ⟨s', found, new, done', by simp [enter, hmem, hresult], hadvance, hdone⟩
    obtain ⟨s₁, found₁, new₁, done₁, hresult₁, hadvance₁, hdone₁⟩ := henter
    have hbefore₁ : ∀ g ∈ before ++ [f], g.name ∈ s₁.explored := by
      intro g hg
      rcases List.mem_append.mp hg with hg | hg
      · exact hadvance₁.explored_subset hs (hbefore g hg)
      · rw [List.mem_singleton.mp hg, hadvance₁.progress.explored]
        exact .inl hdone₁
    have hsplit₁ : d.fragments = (before ++ [f]) ++ rest ++ after := by simpa using hsplit
    obtain ⟨s₂, found₂, new₂, done₂, hresult₂, hadvance₂, hdone₂⟩ :=
      ih hsplit₁ hbefore₁ (hadvance₁.path.trans hpath) (hadvance₁.steps.trans hsteps)
        hadvance₁.progress
    refine ⟨s₂, found₁ ++ found₂, new₁ ++ new₂, done₂, by simp [searchAll, hresult₁, hresult₂],
      hadvance₁.trans hadvance₂, fun g hg => ?_⟩
    rcases List.mem_cons.mp hg with rfl | hg
    · exact hadvance₂.done_subset hdone₁
    · exact hdone₂ g hg

/-- Entering all definitions from some place on, those before having been entered. -/
theorem searchAll_spec {before rest : List FragmentDefinition}
    (hsplit : d.fragments = before ++ rest) (hbefore : ∀ f ∈ before, f.name ∈ s.explored)
    (hpath : s.path = []) (hsteps : s.steps = []) (hs : Progress d s closed done) :
    ∃ s' found new done', searchAll d rest s = some (s', found) ∧
      Advance d s closed done s' found new done' ∧ ∀ f ∈ rest, f.name ∈ done' :=
  searchAll_segment (hsplit.trans (List.append_nil _).symm) hbefore hpath hsteps hs

/-- What the rule does at a visit. -/
def step : Setting → CycleSearch → Visit → CycleSearch × List Finding :=
  RuleName.noFragmentCycles.machine.step

section Walk

variable {setting : Setting} {visit : Visit} {visits : List Visit}

/-- What the rule does at a step that enters the definition of a fragment. -/
theorem step_entered {f : FragmentDefinition} (h : visit.hook.enteredFragment? = some f) :
    step setting s visit = (s.enter setting.document f).getD (s, []) := by
  obtain ⟨hook, scope⟩ := visit
  unfold Hook.enteredFragment? at h
  split at h
  · rename_i g heq
    subst heq
    cases h
    rfl
  · cases h

theorem step_other (h : visit.hook.enteredFragment? = none) :
    step setting s visit = (s, []) := by
  obtain ⟨hook, scope⟩ := visit
  unfold Hook.enteredFragment? at h
  split at h
  · cases h
  · simp_all [step, RuleName.machine]

/-- What the rule finds along visits is what entering the definitions among them finds, and it is in
the same state afterwards. -/
theorem scan_eq_searchAll (h : searchAll setting.document
      (visits.filterMap (·.hook.enteredFragment?)) s = some (s', found)) :
    (Report.scanFrom (step setting) s visits).flatten = found ∧
      visits.foldl (fun state visit => (step setting state visit).1) s = s' := by
  induction visits generalizing s found with
  | nil =>
    obtain ⟨rfl, rfl⟩ : s = s' ∧ [] = found := by simpa [searchAll] using h
    exact ⟨rfl, rfl⟩
  | cons v visits ih =>
    rw [Report.scanFrom, List.flatten_cons, List.foldl_cons]
    cases hv : v.hook.enteredFragment? with
    | none =>
      simp only [List.filterMap_cons, hv] at h
      rw [step_other hv, List.nil_append]
      exact ih h
    | some f =>
      simp only [List.filterMap_cons, hv, searchAll] at h
      obtain ⟨⟨s₁, found₁⟩, henter, h⟩ := Option.bind_eq_some_iff.mp h
      obtain ⟨⟨s₂, found₂⟩, hrest, h⟩ := Option.bind_eq_some_iff.mp h
      obtain ⟨rfl, rfl⟩ : s₂ = s' ∧ found₁ ++ found₂ = found := by simpa using h
      obtain ⟨hfound, hstate⟩ := ih hrest
      rw [step_entered hv, henter, Option.getD_some]
      exact ⟨congrArg (found₁ ++ ·) hfound, hstate⟩

end Walk

/-- The definitions of fragments that a walk enters are those of the document. -/
theorem entered_visits (schema : Schema) (d : Document) :
    (d.visits schema).filterMap (·.hook.enteredFragment?) = d.fragments := by
  rw [← d.enteredFragment?_hooks, ← Visit.map_hook_along schema .empty d.hooks, List.filterMap_map]
  rfl

/-- The rule reports what the search along the definitions of a document finds. -/
theorem diagnostics_noFragmentCycles {schema : Schema}
    (h : searchAll d d.fragments start = some (s', found)) :
    (Validation.ofRules [.noFragmentCycles]).diagnostics schema d =
      found.map (Diagnostic.ofFinding .noFragmentCycles) := by
  rw [← entered_visits schema d] at h
  rw [Validation.diagnostics_single]
  exact congrArg _ (scan_eq_searchAll h).1

theorem Progress.start (d : Document) : Progress d start [] [] :=
  ⟨by simp [CycleSearch.start], by simp [CycleSearch.start], trivial, List.nodup_nil, by simp, by simp⟩

/-- The rule finds nothing exactly if the graph of fragments has no cycle. -/
theorem diagnostics_eq_nil_iff_acyclic (schema : Schema) (d : Document) :
    (Validation.ofRules [.noFragmentCycles]).diagnostics schema d = [] ↔ d.Acyclic := by
  have hsplit : d.fragments = [] ++ d.fragments := rfl
  obtain ⟨s, found, closing, done, hsearch, hadvance, hdone⟩ :=
    searchAll_spec hsplit (by simp) rfl rfl (.start d)
  have hprogress : Progress d s closing done := hadvance.progress
  have hempty : found = [] ↔ closing = [] := by
    rw [← List.length_eq_zero_iff, hadvance.reported.length_eq]
    exact List.length_eq_zero_iff
  rw [diagnostics_noFragmentCycles hsearch, List.map_eq_nil_iff, hempty]
  constructor
  · rintro rfl
    refine hprogress.ordered.acyclicBut (List.nodup_append.mp hprogress.nodup).1 fun a ha => ?_
    obtain ⟨f, hf⟩ := Option.isSome_iff_exists.mp ha
    exact Document.name_of_fragment? hf ▸ hdone f (Document.mem_of_fragment? hf)
  · intro hacyclic
    by_contra hne
    obtain ⟨a, ha⟩ := hprogress.real hne
    exact hacyclic a ha

end CycleSearch

/-- The rule against cycles of fragments. The search has a result for every document, and what it
finds is what the rule reports; the rule reports something exactly if the graph of fragments has a
cycle. The last nodes of the diagnostics are references at different sites, and without the
references at these sites no cycle is left. -/
theorem noFragmentCycles_cuts_all_cycles (schema : Schema) (d : Document) :
    let reported := (Validation.ofRules [.noFragmentCycles]).diagnostics schema d
    (∃ s found, CycleSearch.searchAll d d.fragments .start = some (s, found) ∧
      reported = found.map (Diagnostic.ofFinding .noFragmentCycles)) ∧
    (reported ≠ [] ↔ ∃ a, TransGen d.Refers a a) ∧
    ∃ closing : List Site, closing.Nodup ∧ d.AcyclicBut closing ∧
      List.Forall₂ (fun diagnostic site => ∃ spread, d.Holds site spread ∧
        diagnostic.nodes.getLast? = some spread.ref) reported closing := by
  intro reported
  have hsplit : d.fragments = [] ++ d.fragments := rfl
  obtain ⟨s, found, closing, done, hsearch, hadvance, hdone⟩ :=
    CycleSearch.searchAll_spec hsplit (by simp) rfl rfl (.start d)
  have hreported : reported = found.map (Diagnostic.ofFinding .noFragmentCycles) :=
    CycleSearch.diagnostics_noFragmentCycles hsearch
  have hprogress : CycleSearch.Progress d s closing done := hadvance.progress
  have hacyclic : d.AcyclicBut closing := by
    refine hprogress.ordered.acyclicBut (List.nodup_append.mp hprogress.nodup).1 fun a ha => ?_
    obtain ⟨f, hf⟩ := Option.isSome_iff_exists.mp ha
    exact Document.name_of_fragment? hf ▸ hdone f (Document.mem_of_fragment? hf)
  have hempty : reported = [] ↔ closing = [] := by
    rw [hreported, List.map_eq_nil_iff, ← List.length_eq_zero_iff, hadvance.reported.length_eq,
      List.length_eq_zero_iff]
  refine ⟨⟨s, found, hsearch, hreported⟩, ?_, closing, hprogress.nodup_closed, hacyclic, ?_⟩
  · rw [Ne, hempty]
    refine ⟨hprogress.real, ?_⟩
    rintro ⟨a, ha⟩ rfl
    exact hacyclic a ha
  · rw [hreported, List.forall₂_map_left_iff]
    exact hadvance.reported

end GraphQLCheck
