import GraphQLCheck.Proofs.Assembling.Taking
import GraphQLCheck.Schema.Loading

/-!
# Reading sources

A loading run reads texts and takes up what it reads, step by step, and keeps a log. Its outcome is
that of reading all texts first (`Source.readAll?`) and then taking up the files in order
(`Schema.ofFiles`): a run succeeds if all texts can be read and what they say can be taken up and
built (`ofSources_eq_ok_iff`).
-/

namespace GraphQLCheck

/-- A schema text that has been read: the name by which it is known, and its definitions. -/
structure Sdl.File where
  /-- The name of the file. -/
  name : String
  /-- The definitions in the order of the text. -/
  definitions : List Sdl.Definition
  deriving Repr, Inhabited

/-- The definitions of a file, each with the name of the file. -/
def Sdl.File.entries (f : Sdl.File) : List Entry := f.definitions.map (f.name, ·)

/-- Take up files in order. -/
def Assembly.addFiles (a : Assembly) (files : List Sdl.File) : Except SchemaError Assembly :=
  files.foldlM (fun a f => a.addDefinitions f.name f.definitions) a

/-- The schema that files make up when they are loaded in order. -/
def Schema.ofFiles (files : List Sdl.File) : Except SchemaError Schema := do
  (← Assembly.empty.addFiles files).build

namespace Assembly

theorem addDefinitions_eq_foldlM (a : Assembly) (f : Sdl.File) :
    a.addDefinitions f.name f.definitions =
      f.entries.foldlM (fun a e => a.addDefinition e.1 e.2) a := by
  rw [addDefinitions, Sdl.File.entries, List.foldlM_map]

theorem addFiles_eq_foldlM (a : Assembly) (files : List Sdl.File) :
    a.addFiles files =
      (files.flatMap Sdl.File.entries).foldlM (fun a e => a.addDefinition e.1 e.2) a := by
  unfold addFiles
  induction files generalizing a with
  | nil => rfl
  | cons f files ih =>
    rw [List.foldlM_cons, List.flatMap_cons, List.foldlM_append, addDefinitions_eq_foldlM]
    exact bind_congr fun b => ih b

theorem addFiles_append_ok_iff {a b : Assembly} {files others : List Sdl.File} :
    a.addFiles (files ++ others) = .ok b ↔
      ∃ c, a.addFiles files = .ok c ∧ c.addFiles others = .ok b := by
  rw [addFiles, List.foldlM_append, bind_succeeds_iff]
  rfl

theorem addFiles_cons_ok_iff {a b : Assembly} {f : Sdl.File} {files : List Sdl.File} :
    a.addFiles (f :: files) = .ok b ↔
      ∃ c, a.addDefinitions f.name f.definitions = .ok c ∧ c.addFiles files = .ok b := by
  rw [addFiles, List.foldlM_cons, bind_succeeds_iff]
  rfl

end Assembly

/-! ### Reading before loading -/

/-- A text that is known by a name, if it can be read. -/
def Sdl.File.ofText? (name content : String) : Option Sdl.File :=
  (Sdl.ofText content).toOption.map (Sdl.File.mk name)

namespace Source

/-- The file at a path, if it can be read. -/
def readPath? (w : Workspace) (path : String) : Option Sdl.File :=
  (w.readText path).toOption.bind (Sdl.File.ofText? path)

/-- The files of a source, if all can be read. A text without a name is known by its number. -/
def read? (w : Workspace) (number : UInt16) : Source → Option (List Sdl.File)
  | .text name? content =>
    (Sdl.File.ofText? (name?.getD (Loading.unnamedFile number)) content).map ([·])
  | .files paths => paths.mapM (readPath? w)

/-- The number of the next text without a name. -/
def next (number : UInt16) : Source → UInt16
  | .text none _ => number + 1
  | _ => number

/-- The files of all sources, if all can be read. -/
def readAll? (w : Workspace) : UInt16 → List Source → Option (List Sdl.File)
  | _, [] => some []
  | number, source :: rest => do
    let files ← source.read? w number
    let others ← readAll? w (source.next number) rest
    return files ++ others

end Source

namespace Loading

/-- A step succeeds with an assembly and a number for the next text without a name. -/
def Reaches (step : Step) (a : Assembly) (number : UInt16) : Prop :=
  step.2 = none ∧ step.1.assembly = a ∧ step.1.unnamed = number

variable {w : Workspace} {a : Assembly} {number : UInt16}

theorem loadText_reaches_iff {l : Loading} {file content : String} :
    Reaches (l.loadText file content) a number ↔
      (∃ f, Sdl.File.ofText? file content = some f ∧
        l.assembly.addDefinitions f.name f.definitions = .ok a) ∧ l.unnamed = number := by
  unfold loadText Sdl.File.ofText?
  cases Sdl.ofText content with
  | error fault => cases fault <;> simp [Reaches, Except.toOption]
  | ok definitions =>
    cases hadd : l.assembly.addDefinitions file definitions with
    | error e => simp [Reaches, Except.toOption, hadd]
    | ok assembly => simp [Reaches, Except.toOption, hadd]

/-- Files are loaded if all can be read and taken up. -/
theorem loadFiles_reaches_iff {l : Loading} {paths : List String} :
    Reaches (l.loadFiles w paths) a number ↔
      (∃ files, paths.mapM (Source.readPath? w) = some files ∧
        l.assembly.addFiles files = .ok a) ∧ l.unnamed = number := by
  induction paths generalizing l with
  | nil => simp [loadFiles, Reaches, Assembly.addFiles, pure, Except.pure]
  | cons path rest ih =>
    simp only [loadFiles, List.mapM_cons, Option.bind_eq_bind, Option.bind_eq_some_iff,
      Option.pure_def, Option.some.injEq]
    cases hread : w.readText path with
    | error cause => simp [Reaches, Source.readPath?, hread, Except.toOption]
    | ok content =>
      have hpath : Source.readPath? w path = Sdl.File.ofText? path content := by
        simp [Source.readPath?, hread, Except.toOption]
      have htext (b : Assembly) (n : UInt16) := @loadText_reaches_iff b n l path content
      cases hstep : l.loadText path content with
      | mk l' error? =>
        simp only [hstep] at htext ⊢
        cases error? with
        | none =>
          obtain ⟨⟨f, hf, hadd⟩, hunnamed⟩ := (htext l'.assembly l'.unnamed).mp ⟨rfl, rfl, rfl⟩
          simp [ih, hpath, hf, Assembly.addFiles_cons_ok_iff, hadd, hunnamed]
        | some e =>
          simp only [Reaches, reduceCtorEq, false_and, false_iff, not_and] at htext ⊢
          rintro ⟨files, ⟨f, hf, others, -, rfl⟩, hadd⟩
          obtain ⟨b, hb, -⟩ := Assembly.addFiles_cons_ok_iff.mp hadd
          exact absurd rfl (htext b l.unnamed ⟨f, hpath ▸ hf, hb⟩)

/-- A source is loaded if it can be read and taken up. -/
theorem load_reaches_iff {l : Loading} {source : Source} :
    Reaches (l.load w source) a number ↔
      (∃ files, source.read? w l.unnamed = some files ∧ l.assembly.addFiles files = .ok a) ∧
        source.next l.unnamed = number := by
  have hsingle (f : Sdl.File) : l.assembly.addFiles [f] =
      l.assembly.addDefinitions f.name f.definitions := by
    simp [Assembly.addFiles]
  match source with
  | .text (some name) content =>
    simp [load, loadText_reaches_iff, Source.read?, Source.next, hsingle]
  | .text none content =>
    simp [load, loadText_reaches_iff, Source.read?, Source.next, hsingle]
  | .files paths => exact loadFiles_reaches_iff

/-- Sources are loaded if all can be read and taken up. -/
theorem loadAll_ok_iff {l : Loading} {sources : List Source} :
    (l.loadAll w sources).2.2 = none ∧ (l.loadAll w sources).1.assembly = a ↔
      ∃ files, Source.readAll? w l.unnamed sources = some files ∧
        l.assembly.addFiles files = .ok a := by
  induction sources generalizing l with
  | nil => simp [loadAll, Source.readAll?, Assembly.addFiles, pure, Except.pure]
  | cons source rest ih =>
    have hsource (b : Assembly) (n : UInt16) := @load_reaches_iff w b n l source
    simp only [loadAll, Source.readAll?, Option.bind_eq_bind, Option.bind_eq_some_iff,
      Option.pure_def, Option.some.injEq]
    cases hstep : l.load w source with
    | mk l' error? =>
      simp only [hstep] at hsource ⊢
      cases error? with
      | none =>
        obtain ⟨⟨files, hfiles, hadd⟩, hnext⟩ := (hsource l'.assembly l'.unnamed).mp ⟨rfl, rfl, rfl⟩
        simp [ih, hfiles, hnext, Assembly.addFiles_append_ok_iff, hadd]
      | some e =>
        simp only [Reaches, reduceCtorEq, false_and, false_iff, not_and] at hsource ⊢
        rintro ⟨all, ⟨files, hfiles, others, -, rfl⟩, hadd⟩
        obtain ⟨b, hb, -⟩ := Assembly.addFiles_append_ok_iff.mp hadd
        exact absurd rfl (hsource b _ ⟨files, hfiles, hb⟩)

end Loading

/-- Sources make up the schema that the files that are read of them make up. -/
theorem Schema.ofSources_eq_ok_iff {w : Workspace} {sources : List Source} {schema : Schema} :
    (ofSources w sources).1 = .ok schema ↔
      ∃ files, Source.readAll? w 0 sources = some files ∧ ofFiles files = .ok schema := by
  have hload (a : Assembly) := @Loading.loadAll_ok_iff w a .start sources
  have hbuild (l : Loading) : l.build.1 = l.assembly.build := by
    unfold Loading.build
    cases l.assembly.build <;> rfl
  simp only [ofSources, ofFiles, bind_succeeds_iff]
  cases hall : Loading.start.loadAll w sources with
  | mk l result =>
    obtain ⟨count, error?⟩ := result
    simp only [hall] at hload ⊢
    cases error? with
    | none =>
      rw [hbuild]
      constructor
      · intro h
        obtain ⟨files, hfiles, hadd⟩ := (hload l.assembly).mp ⟨rfl, rfl⟩
        exact ⟨files, hfiles, l.assembly, hadd, h⟩
      · rintro ⟨files, hfiles, a, hadd, h⟩
        rwa [((hload a).mpr ⟨files, hfiles, hadd⟩).2]
    | some e =>
      simp only [reduceCtorEq, false_iff]
      rintro ⟨files, hfiles, a, hadd, -⟩
      cases ((hload a).mpr ⟨files, hfiles, hadd⟩).1

end GraphQLCheck
