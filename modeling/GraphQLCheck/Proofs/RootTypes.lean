import GraphQLCheck.Proofs.SchemaAcceptance

/-!
# Root types of built schemas

A block of root types is checked when it is taken up: no two kinds of operation may be given one
type. The default names are filled in later, when the schema is built, and are not compared with
what blocks have named. So two kinds share a root type exactly if a block names, for one of them,
the default root type of the other, and no block names one for that other kind
(`Sdl.NamesDefaultOf`). In all other schemas root types are different.
-/

namespace GraphQLCheck

/-- A root type that is named for one kind of operation is the default one of another kind, for which
none is named. -/
def Sdl.NamesDefaultOf (definitions : List Sdl.Definition) (kind other : OperationKind) : Prop :=
  other.render ∈ Sdl.rootNames definitions kind ∧ Sdl.rootNames definitions other = []

instance (definitions : List Sdl.Definition) (kind other : OperationKind) :
    Decidable (Sdl.NamesDefaultOf definitions kind other) :=
  inferInstanceAs (Decidable (_ ∧ _))

theorem OperationKind.render_injective : Function.Injective OperationKind.render := by
  intro kind other h
  cases kind <;> cases other <;> first | rfl | exact absurd h (by decide)

namespace Schema

variable {files : List Sdl.File} {s : Schema}

theorem rootName?_built {a : Assembly} (hquery : (a.rootName? .query).isSome = true)
    (kind : OperationKind) : a.built.rootName? kind = a.rootName? kind := by
  cases kind with
  | query =>
    obtain ⟨name, hname⟩ := Option.isSome_iff_exists.mp hquery
    rw [rootName?, Assembly.built, hname, Option.getD_some]
  | mutation => rfl
  | subscription => rfl

/-- The root type of a kind is the one that a block names. If none does, it is the object type of
the default name. -/
theorem MadeOf.rootName?_eq_some_iff (h : s.MadeOf files) {kind : OperationKind} {name : String} :
    s.rootName? kind = some name ↔
      name ∈ Sdl.rootNames (files.flatMap (·.definitions)) kind ∨
        Sdl.rootNames (files.flatMap (·.definitions)) kind = [] ∧
          Sdl.Names (files.flatMap (·.definitions)) (· = .object) kind.render ∧
          name = kind.render := by
  obtain ⟨hloose, rfl⟩ := madeOf_iff.mp h
  rw [← map_snd_entries] at hloose ⊢
  have hnames := Assembly.nodup_types_loaded (Assembly.admits_of_consistent hloose.toConsistent)
  have hhead : (Sdl.rootNames ((files.flatMap Sdl.File.entries).map (·.2)) kind).head? = some name ↔
      name ∈ Sdl.rootNames ((files.flatMap Sdl.File.entries).map (·.2)) kind := by
    rw [← Option.mem_toList, Assembly.toList_head?_of_length_le (hloose.rootsOnce kind)]
  rw [rootName?_built ((Assembly.query_loaded_iff hnames).mpr hloose.query),
    Assembly.rootName?_loaded_eq_some_iff, hhead, Assembly.resolves_loaded_iff hnames]

/-- What is named for one kind is the root type of another kind only by default. -/
theorem MadeOf.namesDefaultOf (h : s.MadeOf files) {first second : OperationKind} {name : String}
    (hne : first ≠ second) (hfirst : name ∈ Sdl.rootNames (files.flatMap (·.definitions)) first)
    (hsecond : s.rootName? second = some name) :
    Sdl.NamesDefaultOf (files.flatMap (·.definitions)) first second := by
  rcases h.rootName?_eq_some_iff.mp hsecond with hnamed | ⟨hnone, -, rfl⟩
  · exact absurd ((madeOf_iff.mp h).1.rootsApart first second name hfirst hnamed) hne
  · exact ⟨hfirst, hnone⟩

/-- A default root type that a block names for another kind is the root type of both. -/
theorem MadeOf.shared_of_namesDefaultOf (h : s.MadeOf files) {first second : OperationKind}
    (hdefault : Sdl.NamesDefaultOf (files.flatMap (·.definitions)) first second) :
    s.rootName? first = some second.render ∧ s.rootName? second = some second.render := by
  obtain ⟨hnamed, hnone⟩ := hdefault
  have hobject := (madeOf_iff.mp h).1.roots first second.render hnamed
  exact ⟨h.rootName?_eq_some_iff.mpr (.inl hnamed),
    h.rootName?_eq_some_iff.mpr (.inr ⟨hnone, hobject, rfl⟩)⟩

/-- The root types of a built schema are different, whether they are named or filled in, exactly if
no block names for a kind of operation the default root type of another kind without a named one. -/
theorem roots_different_iff (h : s.MadeOf files) :
    (∀ first second name, s.rootName? first = some name → s.rootName? second = some name →
      first = second) ↔
    ∀ first second, ¬ Sdl.NamesDefaultOf (files.flatMap (·.definitions)) first second := by
  constructor
  · intro hdifferent first second hdefault
    obtain ⟨hfirst, hsecond⟩ := h.shared_of_namesDefaultOf hdefault
    obtain rfl := hdifferent first second _ hfirst hsecond
    exact List.ne_nil_of_mem hdefault.1 hdefault.2
  · intro hnone first second name hfirst hsecond
    by_contra hne
    rcases h.rootName?_eq_some_iff.mp hfirst with hnamed | ⟨-, -, rfl⟩
    · exact hnone first second (h.namesDefaultOf hne hnamed hsecond)
    · rcases h.rootName?_eq_some_iff.mp hsecond with hnamed | ⟨-, -, hname⟩
      · exact hnone second first (h.namesDefaultOf (Ne.symm hne) hnamed hfirst)
      · exact hne (OperationKind.render_injective hname)

/-- A file that names two root types and leaves the third one to its default name. -/
def twoRootsFile : Sdl.File where
  name := "roots"
  definitions :=
    [.roots ⟨⟨1, 1⟩, some "QueryRoot", none, some "Events"⟩,
      .type ⟨⟨2, 1⟩, "QueryRoot", .object [] [⟨⟨2, 18⟩, "q", [], .named "Int" true, []⟩]⟩,
      .type ⟨⟨3, 1⟩, "Events", .object [] [⟨⟨3, 15⟩, "e", [], .named "Int" true, []⟩]⟩,
      .type ⟨⟨4, 1⟩, "Mutation", .object [] [⟨⟨4, 17⟩, "m", [], .named "Int" true, []⟩]⟩]

/-- Two root types that are named and one that is filled in are different. -/
theorem roots_different_two_named :
    ∃ s : Schema, s.MadeOf [twoRootsFile] ∧ s.rootName? .mutation = some "Mutation" ∧
      ∀ first second name, s.rootName? first = some name → s.rootName? second = some name →
        first = second := by
  have hmade : (Assembly.loaded ([twoRootsFile].flatMap Sdl.File.entries)).built.MadeOf
      [twoRootsFile] := madeOf_iff.mpr ⟨by decide, rfl⟩
  refine ⟨_, hmade, ?_, (roots_different_iff hmade).mpr (by decide)⟩
  exact hmade.rootName?_eq_some_iff.mpr (.inr (by decide))

/-- A file that names the default root type of mutations for queries. -/
def mutationQueryFile : Sdl.File where
  name := "roots"
  definitions :=
    [.roots ⟨⟨1, 1⟩, some "Mutation", none, none⟩,
      .type ⟨⟨1, 28⟩, "Mutation", .object [] [⟨⟨1, 44⟩, "a", [], .named "Int" true, []⟩]⟩]

/-- The root type that is named for queries is filled in for mutations. -/
theorem root_shared_by_default :
    ∃ s : Schema, s.MadeOf [mutationQueryFile] ∧ s.rootName? .query = some "Mutation" ∧
      s.rootName? .mutation = some "Mutation" := by
  have hmade : (Assembly.loaded ([mutationQueryFile].flatMap Sdl.File.entries)).built.MadeOf
      [mutationQueryFile] := madeOf_iff.mpr ⟨by decide, rfl⟩
  have hdefault : Sdl.NamesDefaultOf ([mutationQueryFile].flatMap (·.definitions))
      .query .mutation := by decide
  exact ⟨_, hmade, hmade.shared_of_namesDefaultOf hdefault⟩

end Schema

end GraphQLCheck
