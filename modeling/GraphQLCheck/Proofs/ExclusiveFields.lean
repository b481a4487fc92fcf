import GraphQLCheck.Proofs.Overlap.Exploring
import GraphQLCheck.Proofs.SearchTermination

/-!
# Fields that exclude one another

Fields that are taken to exclude one another conflict only over the types of their values, here or
further inside. What such a comparison finds is found without that assumption too, which is why the
search does not compare fragments again under it.

That is not plain from the rules for two fields alone. Without the assumption a comparison may stop
at names and arguments, and it remembers other pairs of fragments, so that it leaves out other
comparisons. But with the assumption something is found only if, somewhere in what has to be compared
for two fields, there are values that cannot be merged (`Runs.clashes`), and these are met by every
search that finds nothing (`Runs.explores`).
-/

namespace GraphQLCheck.Overlap

variable {schema : Schema} {d : Document}

/-! ### What is found with the assumption -/

section Runs

variable {tasks : List Task} {s : CallState} {result : List Conflict × CallState}

/-- If all fields exclude one another, what is found comes from values that cannot be merged. -/
theorem Runs.clashes (hruns : Runs schema d tasks s result)
    (hstands : ∀ t ∈ tasks, t.Stands schema d) (hexclusive : ∀ t ∈ tasks, t.IsExclusive)
    (hs : Faithful schema d s.2) (hne : result.1 ≠ []) :
    ∃ u ∈ Task.subjects tasks, u.Clashes schema d := by
  induction hruns with
  | nil => exact absurd rfl hne
  | @cons t rest s inner later hcalls _ ihCalls ihRest =>
    obtain ⟨ht, hrest⟩ := List.forall_mem_cons.mp hstands
    obtain ⟨htrue, hexclusive⟩ := List.forall_mem_cons.mp hexclusive
    have hexpands := Task.expands_calls ht hs
    have hinner := hcalls.faithful (hexpands.stands ht) (hexpands.faithful hs)
    by_cases hfirst : (t.returns schema s inner).1 = []
    · have hlater : later.1 ≠ [] := by
        intro hlater
        exact hne (List.append_eq_nil_iff.mpr ⟨hfirst, hlater⟩)
      rw [← Task.returns_memory schema t s inner] at hinner
      obtain ⟨u, hu, hclash⟩ := ihRest hrest hexclusive hinner hlater
      exact ⟨u, Task.mem_subjects_cons.mpr (.inr hu), hclash⟩
    · by_cases hnil : inner.1 = []
      · -- Nothing is found inside, so the fields themselves are the reason.
        have hdecided : t.Decided schema := by
          by_contra hundecided
          exact hfirst ((Task.returns_eq_nil_iff schema t s inner).mpr ⟨hnil, hundecided⟩)
        obtain ⟨u, hu, hclash⟩ := Task.exists_unmergeable htrue hdecided
        exact ⟨u, Task.mem_subjects_cons.mpr (.inl hu), u, .refl, hclash⟩
      · obtain ⟨v, hv, w, hreach, hw⟩ := ihCalls (hexpands.stands ht)
          (hexpands.isExclusive htrue) (hexpands.faithful hs) hnil
        obtain ⟨u, hu, hinvolves⟩ := hexpands.involves ht hv
        exact ⟨u, Task.mem_subjects_cons.mpr (.inl hu), w, hreach.head hinvolves, hw⟩

end Runs

/-! ### Two fields of a document -/

/-- The field is one of the document, selected from the type that its set selects from or from one
that agrees with it. -/
def Occurs (schema : Schema) (d : Document) (o : Occurrence) : Prop :=
  ∃ type? other? address items, d.HasSet schema type? address items ∧ Agree schema type? other? ∧
    o ∈ fieldsOf schema other? address items

section Compared

variable {rank : String → ℕ} {c : Candidate} {m : Memory} {o : Occurrence}

theorem Occurs.ready (hrank : Ranking d rank) (h : Occurs schema d o) :
    Ready schema d rank (searchDepth d) (d.fragments.length + 1) o := by
  obtain ⟨type?, other?, address, items, hset, hagree, ho⟩ := h
  obtain ⟨x, hx, hknown⟩ := exists_known hagree.symm ho
  have hbound : Below rank (d.fragments.length + 1) items :=
    fun s _ => Nat.lt_succ_of_le (hrank.bounded s.name)
  have hready : Ready schema d rank (searchDepth d) (d.fragments.length + 1) x :=
    ready_of_selects hrank hset hbound (fits_searchDepth hrank hset) (.field hx)
  exact hready.congr hknown

/-- The comparison of two fields as a call, with the search to the depth of the document. -/
theorem runs_compareFields (h : d.Acyclic) (hfirst : Occurs schema d c.first)
    (hsecond : Occurs schema d c.second) (hm : Faithful schema d m) (exclusive : Bool) :
    Task.Stands schema d (.fields exclusive c) ∧
      Runs schema d [.fields exclusive c] ([], m)
        (onMemory (compareFields schema d (searchDepth d) exclusive c) ([], m)) := by
  obtain ⟨rank, hrank⟩ := exists_ranking h
  have ha := hfirst.ready hrank
  have hb := hsecond.ready hrank
  exact ⟨⟨ha.placed, hb.placed⟩,
    (ends_compareFields hrank (searchDepth d) exclusive c ([], m) _ _ hm ha hb).runs⟩

/-- What is found of fields that exclude one another comes from values that cannot be merged. -/
theorem clashes_of_found (h : d.Acyclic) (hfirst : Occurs schema d c.first)
    (hsecond : Occurs schema d c.second) (hm : Faithful schema d m)
    (hne : (compareFields schema d (searchDepth d) true c m).1 ≠ []) :
    (Subject.fields c.first.known c.second.known).Clashes schema d := by
  obtain ⟨hstands, hruns⟩ := runs_compareFields h hfirst hsecond hm true
  obtain ⟨u, hu, hclash⟩ := hruns.clashes (List.forall_mem_singleton.mpr hstands)
    (List.forall_mem_singleton.mpr rfl) hm hne
  obtain rfl : u = _ := List.mem_singleton.mp hu
  exact hclash

/-- Values that cannot be merged are found, whether fields are taken to exclude one another or
not, if no pairs of fragments are remembered. -/
theorem found_of_clashes (h : d.Acyclic) (hfirst : Occurs schema d c.first)
    (hsecond : Occurs schema d c.second) (hm : Faithful schema d m) (hnone : m.compared = .empty)
    (exclusive : Bool)
    (hclash : (Subject.fields c.first.known c.second.known).Clashes schema d) :
    (compareFields schema d (searchDepth d) exclusive c m).1 ≠ [] := by
  intro hnil
  obtain ⟨hstands, hruns⟩ := runs_compareFields h hfirst hsecond hm exclusive
  have hstart : Accounts ∅ c.first.address ([], m) := by
    refine ⟨fun {a b other} hcontains => ?_, fun hn => absurd hn List.not_mem_nil⟩
    change m.compared.contains a b other = true at hcontains
    rw [hnone] at hcontains
    cases hcontains
  obtain ⟨more, hgrows, hmet, -⟩ := hruns.explores (List.forall_mem_singleton.mpr hstands) hm
    (.cons trivial .nil) hstart (fun u hu => absurd hu (Set.notMem_empty u)) hnil
  exact hgrows.not_clashes (hmet _ List.mem_cons_self) hclash

end Compared

end GraphQLCheck.Overlap

namespace GraphQLCheck

open Overlap

/-- Without cycles of fragments, and with no pairs of fragments remembered: on the assumption that
fields around them exclude one another, two fields of the document are found to conflict exactly if
values that cannot be merged have to be compared for them, and then they are found to conflict
without the assumption too. The sets that are remembered do not matter. -/
theorem exclusive_conflict_found (schema : Schema) (d : Document) (h : d.Acyclic) (c : Candidate)
    (hfirst : Occurs schema d c.first) (hsecond : Occurs schema d c.second) (m m' : Memory)
    (hm : Faithful schema d m) (hm' : Faithful schema d m') (hnone : m.compared = .empty)
    (hnone' : m'.compared = .empty) :
    let found := fun exclusive m => (compareFields schema d (searchDepth d) exclusive c m).1
    (found true m ≠ [] ↔ (Subject.fields c.first.known c.second.known).Clashes schema d) ∧
      (found true m ≠ [] → found false m' ≠ []) := by
  intro found
  have hclash (hne : found true m ≠ []) := clashes_of_found h hfirst hsecond hm hne
  exact ⟨⟨hclash, found_of_clashes h hfirst hsecond hm hnone true⟩,
    fun hne => found_of_clashes h hfirst hsecond hm' hnone' false (hclash hne)⟩

/-! ### Two fields with fragments inside -/

/-- A query type with a field of the same type and fields of two leaf types. -/
def crossType : List Sdl.Definition :=
  [.type ⟨⟨1, 1⟩, "Query", .object []
    [⟨⟨1, 14⟩, "f", [], .named "Query" true, []⟩, ⟨⟨1, 24⟩, "i", [], .named "Int" true, []⟩,
      ⟨⟨1, 32⟩, "s", [], .named "String" true, []⟩]⟩]

/-- The schema of that definition. -/
def crossSchema : Schema := (Schema.ofDefinitions "cross" crossType).toOption.getD default

/-- A field of the query that selects what a fragment does. -/
def crossSpread (column : ℕ) (name : String) : Selection :=
  .field ⟨⟨1, column⟩, none, "f", [], []⟩ ⟨⟨1, column + 2⟩, ⟨1, column + 9⟩⟩
    [.spread ⟨⟨1, column + 4⟩, name, []⟩]

/-- A fragment that selects a field of a leaf type inside another one. -/
def crossFragment (line : ℕ) (name inside : String) : FragmentDefinition :=
  ⟨⟨line, 1⟩, name, "Query", [], ⟨⟨⟨line, 21⟩, ⟨line, 34⟩⟩,
    [.field ⟨⟨line, 23⟩, none, "f", [], []⟩ ⟨⟨line, 25⟩, ⟨line, 32⟩⟩
      [.field ⟨⟨line, 27⟩, some "x", inside, [], []⟩ ⟨⟨line, 27⟩, ⟨line, 27⟩⟩ []]]⟩⟩

/-- What the query selects: the field twice, with one fragment and with another. -/
def crossSet : SelectionSet := ⟨⟨⟨1, 1⟩, ⟨1, 25⟩⟩, [crossSpread 3 "F", crossSpread 14 "G"]⟩

/-- The query and the two fragments, which select fields of different types. -/
def crossDocument : Document :=
  ⟨[.bare crossSet, .fragment (crossFragment 2 "F" "i"), .fragment (crossFragment 3 "G" "s")], []⟩

/-- One of the two fields of the query. -/
def crossField (index column : ℕ) (name : String) : Occurrence :=
  .ofField crossSchema (crossSchema.root? .query) [index, 0] ⟨⟨1, column⟩, none, "f", [], []⟩
    [.spread ⟨⟨1, column + 4⟩, name, []⟩]

/-- The two fields of the query. -/
def crossPair : Candidate := ⟨"f", crossField 0 3 "F", crossField 1 14 "G"⟩

theorem acyclic_crossDocument : crossDocument.Acyclic :=
  (CycleSearch.diagnostics_eq_nil_iff_acyclic default crossDocument).mp (by decide +kernel)

theorem occurs_crossPair :
    Occurs crossSchema crossDocument crossPair.first ∧
      Occurs crossSchema crossDocument crossPair.second := by
  have hquery : crossDocument.definitions[0]? = some (.bare crossSet) := rfl
  have hset : crossDocument.HasSet crossSchema _ [0] _ := .operation hquery rfl
  exact ⟨⟨_, _, _, _, hset, .of_set hset, List.mem_cons_self⟩,
    ⟨_, _, _, _, hset, .of_set hset, List.mem_cons_of_mem _ List.mem_cons_self⟩⟩

/-- Values of an integer and of a text cannot be merged, which is found two levels inside the
fields; without the assumption it is found that the names of those fields differ. -/
theorem exclusive_conflict_found_cross :
    crossDocument.Acyclic ∧ Occurs crossSchema crossDocument crossPair.first ∧
      Occurs crossSchema crossDocument crossPair.second ∧
      let found := fun exclusive => (compareFields crossSchema crossDocument
        (searchDepth crossDocument) exclusive crossPair .empty).1
      found true ≠ [] ∧ found false ≠ [] := by
  obtain ⟨hfirst, hsecond⟩ := occurs_crossPair
  have hfound : (compareFields crossSchema crossDocument (searchDepth crossDocument) true crossPair
      .empty).1 ≠ [] := by
    rw [← List.isEmpty_eq_false_iff]
    decide +kernel
  refine ⟨acyclic_crossDocument, hfirst, hsecond, hfound, ?_⟩
  exact (exclusive_conflict_found crossSchema crossDocument acyclic_crossDocument crossPair hfirst
    hsecond .empty .empty faithful_empty faithful_empty rfl rfl).2 hfound

end GraphQLCheck
