import GraphQLCheck.Proofs.Assembling.Taking

/-!
# Extending types

When a schema is built, the extensions that wait are applied one by one. What a type has in the end
are its own parts followed by those of its extensions in the order of loading
(`TypeDefinition.extended`). All extensions can be applied if each of them finds a type that takes
its parts, and what comes out is clean (`extendAll_ok_iff`).
-/

namespace GraphQLCheck

/-- A type with the parts of the extensions of its name at the end. -/
def TypeDefinition.extended (extensions : List (String × Sdl.TypeNode)) (t : TypeDefinition) :
    TypeDefinition :=
  { t with
    body := (extensions.filter (·.2.name = t.name)).foldl
      (fun body e => body.merge (.ofParts e.1 e.2.parts)) t.body }

namespace TypeBody

theorem takes_merge_iff {body other : TypeBody} {parts : Sdl.TypeParts} :
    (body.merge other).Takes parts ↔ body.Takes parts := by
  rw [Takes, Takes, kind_merge]
  refine and_congr_right fun _ => ?_
  cases body <;> cases other <;> simp [merge]

variable {pieces : List TypeBody} {body : TypeBody}

theorem kind_foldl_merge : (pieces.foldl merge body).kind = body.kind := by
  induction pieces generalizing body with
  | nil => rfl
  | cons piece pieces ih => rw [List.foldl_cons, ih, kind_merge]

theorem takes_foldl_merge_iff {parts : Sdl.TypeParts} :
    (pieces.foldl merge body).Takes parts ↔ body.Takes parts := by
  induction pieces generalizing body with
  | nil => rfl
  | cons piece pieces ih => rw [List.foldl_cons, ih, takes_merge_iff]

/-- What is clean with pieces of its kind at the end is clean without them. -/
theorem Clean.of_foldl_merge (hkinds : ∀ piece ∈ pieces, body.kind = piece.kind)
    (h : (pieces.foldl merge body).Clean) : body.Clean := by
  induction pieces generalizing body with
  | nil => exact h
  | cons piece pieces ih =>
    obtain ⟨hpiece, hpieces⟩ := List.forall_mem_cons.mp hkinds
    refine Clean.of_merge hpiece (ih (fun other hother => ?_) h)
    rw [kind_merge]
    exact hpieces other hother

/-- Parts of one sort that are put together by `merge` are put together by all pieces. -/
theorem foldl_merge_eq {α : Type} {part : TypeBody → List α}
    (hpart : ∀ {body other : TypeBody}, body.kind = other.kind →
      part (body.merge other) = part body ++ part other)
    (hkinds : ∀ piece ∈ pieces, body.kind = piece.kind) :
    part (pieces.foldl merge body) = (body :: pieces).flatMap part := by
  induction pieces generalizing body with
  | nil => simp
  | cons piece pieces ih =>
    obtain ⟨hpiece, hpieces⟩ := List.forall_mem_cons.mp hkinds
    rw [List.foldl_cons, ih (by simpa using hpieces)]
    simp [hpart hpiece]

end TypeBody

namespace TypeDefinition

variable {extensions : List (String × Sdl.TypeNode)} {t : TypeDefinition}

/-- The pieces that extensions have for a type. -/
def pieces (extensions : List (String × Sdl.TypeNode)) (name : String) : List TypeBody :=
  (extensions.filter (·.2.name = name)).map fun e => .ofParts e.1 e.2.parts

theorem body_extended (extensions : List (String × Sdl.TypeNode)) (t : TypeDefinition) :
    (t.extended extensions).body = (pieces extensions t.name).foldl TypeBody.merge t.body := by
  rw [pieces, List.foldl_map]
  rfl

@[simp] theorem name_extended : (t.extended extensions).name = t.name := rfl

@[simp] theorem extended_nil : t.extended [] = t := rfl

theorem kind_extended : (t.extended extensions).kind = t.kind := by
  rw [kind_eq, kind_eq, body_extended, TypeBody.kind_foldl_merge]

theorem takes_extended_iff {parts : Sdl.TypeParts} :
    (t.extended extensions).body.Takes parts ↔ t.body.Takes parts := by
  rw [body_extended, TypeBody.takes_foldl_merge_iff]

theorem extended_append (before after : List (String × Sdl.TypeNode)) (t : TypeDefinition) :
    t.extended (before ++ after) = (t.extended before).extended after := by
  rw [extended, List.filter_append, List.foldl_append]
  rfl

theorem extended_singleton (e : String × Sdl.TypeNode) (t : TypeDefinition) :
    t.extended [e] =
      if t.name = e.2.name then { t with body := t.body.merge (.ofParts e.1 e.2.parts) }
      else t := by
  by_cases h : t.name = e.2.name
  · simp [extended, h]
  · simp [extended, h, Ne.symm h]

/-- Extensions of the kind of the type that they are for. -/
def Fitting (extensions : List (String × Sdl.TypeNode)) (t : TypeDefinition) : Prop :=
  ∀ piece ∈ pieces extensions t.name, t.body.kind = piece.kind

theorem fitting_iff : t.Fitting extensions ↔
    ∀ e ∈ extensions, e.2.name = t.name → t.body.kind = Assembly.kindOf e.2.parts := by
  simp only [Fitting, pieces, List.forall_mem_map, List.mem_filter, decide_eq_true_eq, and_imp,
    TypeBody.kind_ofParts]

end TypeDefinition

namespace Assembly

open TypeDefinition

/-! ### One extension -/

variable {types more : List TypeDefinition}

/-- Types of one name are the same type. -/
theorem eq_of_name_eq {t u : TypeDefinition} (hnames : (types.map (·.name)).Nodup)
    (ht : t ∈ types) (hu : u ∈ types) (h : t.name = u.name) : t = u :=
  List.inj_on_of_nodup_map hnames ht hu h

theorem extend_eq_ok_iff {e : String × Sdl.TypeNode} :
    extend types e = .ok more ↔ ∃ t body, References.find? types e.2.name = some t ∧
      addParts? e.1 e.2 t.body = some (.ok body) ∧
      more = types.map fun t => if t.name = e.2.name then { t with body } else t := by
  obtain ⟨file, node⟩ := e
  simp only [extend]
  cases References.find? types node.name with
  | none => simp [throw, throwThe, MonadExceptOf.throw]
  | some t =>
    cases haddParts : addParts? file node t.body with
    | none => simp [haddParts, throw, throwThe, MonadExceptOf.throw]
    | some result =>
      cases result with
      | error fault => simp [haddParts, bind, Except.bind]
      | ok body => simp [haddParts, bind, Except.bind, pure, Except.pure, eq_comm]

/-- An extension is applied if it finds a type that takes it and what comes out is clean. -/
theorem extend_ok_iff {e : String × Sdl.TypeNode} (hnames : (types.map (·.name)).Nodup)
    (hclean : ∀ t ∈ types, t.body.Clean) :
    extend types e = .ok more ↔
      (∃ t ∈ types, t.name = e.2.name ∧ t.body.Takes e.2.parts) ∧
        (∀ t ∈ types, (t.extended [e]).body.Clean) ∧ more = types.map (·.extended [e]) := by
  have hmap {t : TypeDefinition} (ht : t ∈ types) (hname : t.name = e.2.name) :
      (types.map fun u => if u.name = e.2.name then
          { u with body := t.body.merge (.ofParts e.1 e.2.parts) } else u) =
        types.map (·.extended [e]) := by
    refine List.map_congr_left fun u hu => ?_
    rw [extended_singleton]
    by_cases h : u.name = e.2.name
    · rw [eq_of_name_eq hnames hu ht (h.trans hname.symm)]
    · simp [h]
  rw [extend_eq_ok_iff]
  constructor
  · rintro ⟨t, body, hfind, hparts, rfl⟩
    have ht : t ∈ types := List.mem_of_find?_eq_some hfind
    have hname : t.name = e.2.name := by simpa using List.find?_some hfind
    obtain ⟨htakes, hmerged, rfl⟩ := (addParts?_ok_iff (hclean t ht)).mp hparts
    refine ⟨⟨t, ht, hname, htakes⟩, fun u hu => ?_, hmap ht hname⟩
    rw [extended_singleton]
    by_cases h : u.name = e.2.name
    · rw [eq_of_name_eq hnames hu ht (h.trans hname.symm), if_pos hname]
      exact hmerged
    · rw [if_neg h]
      exact hclean u hu
  · rintro ⟨⟨t, ht, hname, htakes⟩, hmerged, rfl⟩
    have hfind : References.find? types e.2.name = some t := by
      rw [← hname]
      exact find?_of_nodup hnames ht
    refine ⟨t, _, hfind, (addParts?_ok_iff (hclean t ht)).mpr ⟨htakes, ?_, rfl⟩,
      (hmap ht hname).symm⟩
    have := hmerged t ht
    rwa [extended_singleton, if_pos hname] at this

/-! ### All extensions -/

/-- Each extension finds a type that takes its parts. -/
def Finds (types : List TypeDefinition) (extensions : List (String × Sdl.TypeNode)) : Prop :=
  ∀ e ∈ extensions, ∃ t ∈ types, t.name = e.2.name ∧ t.body.Takes e.2.parts

theorem Finds.fitting {extensions : List (String × Sdl.TypeNode)} {t : TypeDefinition}
    (h : Finds types extensions) (hnames : (types.map (·.name)).Nodup) (ht : t ∈ types) :
    t.Fitting extensions := by
  rw [fitting_iff]
  intro e he hname
  obtain ⟨u, hu, huname, htakes⟩ := h e he
  rw [eq_of_name_eq hnames ht hu (hname.symm.trans huname.symm)]
  exact htakes.1

/-- Extensions are all applied if each finds a type that takes it and what comes out is clean. -/
theorem extendAll_ok_iff {extensions : List (String × Sdl.TypeNode)}
    (hnames : (types.map (·.name)).Nodup) (hclean : ∀ t ∈ types, t.body.Clean) :
    extensions.foldlM extend types = .ok more ↔
      Finds types extensions ∧ (∀ t ∈ types, (t.extended extensions).body.Clean) ∧
        more = types.map (·.extended extensions) := by
  induction extensions generalizing types with
  | nil =>
    simp only [List.foldlM_nil, pure, Except.pure, Except.ok.injEq, extended_nil, List.map_id']
    constructor
    · rintro rfl
      exact ⟨by simp [Finds], hclean, rfl⟩
    · rintro ⟨-, -, rfl⟩
      rfl
  | cons e extensions ih =>
    have hcons (t : TypeDefinition) : t.extended (e :: extensions) =
        (t.extended [e]).extended extensions := extended_append [e] extensions t
    have hnames' : ((types.map (·.extended [e])).map (·.name)).Nodup := by
      simpa [List.map_map, Function.comp_def] using hnames
    rw [List.foldlM_cons, bind_succeeds_iff]
    constructor
    · rintro ⟨middle, hfirst, hrest⟩
      obtain ⟨hfound, hclean', rfl⟩ := (extend_ok_iff hnames hclean).mp hfirst
      obtain ⟨hfounds, hcleans, rfl⟩ := (ih hnames' (List.forall_mem_map.mpr hclean')).mp hrest
      refine ⟨List.forall_mem_cons.mpr ⟨hfound, fun other hother => ?_⟩, fun t ht => ?_, ?_⟩
      · obtain ⟨_, hmem, hname, htakes⟩ := hfounds other hother
        obtain ⟨t, ht, rfl⟩ := List.mem_map.mp hmem
        exact ⟨t, ht, hname, takes_extended_iff.mp htakes⟩
      · rw [hcons]
        exact hcleans _ (List.mem_map_of_mem ht)
      · simp [hcons, List.map_map]
    · rintro ⟨hfinds, hcleans, rfl⟩
      obtain ⟨hfound, (hfounds : Finds types extensions)⟩ := List.forall_mem_cons.mp hfinds
      -- What is clean after all extensions is clean after the first of them.
      have hclean' : ∀ t ∈ types, (t.extended [e]).body.Clean := by
        intro t ht
        have h := hcleans t ht
        rw [hcons, body_extended] at h
        refine h.of_foldl_merge fun piece hpiece => ?_
        rw [← kind_eq, kind_extended, kind_eq]
        exact hfounds.fitting hnames ht piece hpiece
      refine ⟨_, (extend_ok_iff hnames hclean).mpr ⟨hfound, hclean', rfl⟩,
        (ih hnames' (List.forall_mem_map.mpr hclean')).mpr ⟨fun other hother => ?_, ?_, ?_⟩⟩
      · obtain ⟨t, ht, hname, htakes⟩ := hfounds other hother
        exact ⟨_, List.mem_map_of_mem ht, hname, takes_extended_iff.mpr htakes⟩
      · rw [List.forall_mem_map]
        intro t ht
        rw [← hcons]
        exact hcleans t ht
      · simp [hcons, List.map_map]

end Assembly

end GraphQLCheck
