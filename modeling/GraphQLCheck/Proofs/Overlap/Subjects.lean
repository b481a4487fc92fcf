import GraphQLCheck.Proofs.Overlap.Calls
import Mathlib.Logic.Relation

/-!
# What the search compares

What the calls of the search compare, apart from what is remembered and from whether fields exclude
one another. A `Subject` is what one call compares, and `Involves` says what has to be compared for
it. What calls a call makes is said once, in `Task.Expands`: they are about what its subject involves
(`Task.Expands.involves`), and about all of that unless there is a reason for a conflict at once or
the subject was met before (`Task.Expands.covers`).

A pair of fragments is remembered in both orders, so a subject is taken together with its `swap`.
-/

namespace GraphQLCheck.Overlap

/-- What a call compares. A field holds the type that it is selected from only if that is
composite. -/
inductive Subject where
  /-- Two fields. -/
  | fields (a b : Occurrence)
  /-- The fields of the set at an address and what a fragment selects. -/
  | fragment (address : Address) (name : String)
  /-- What two fragments select. -/
  | pair (a b : String)

namespace Subject

/-- The subject with its two sides exchanged. -/
def swap : Subject → Subject
  | fields a b => fields b a
  | fragment address name => fragment address name
  | pair a b => pair b a

@[simp]
theorem swap_swap (u : Subject) : u.swap.swap = u := by cases u <;> rfl

/-- The subject is one of these fields and one of those, with the same response name. -/
def Between (these those : List Occurrence) (u : Subject) : Prop :=
  ∃ x ∈ these, ∃ y ∈ those, x.node.responseName = y.node.responseName ∧ u = fields x.known y.known

theorem Between.swap {these those : List Occurrence} {u : Subject} (h : u.Between these those) :
    u.swap.Between those these := by
  obtain ⟨x, hx, y, hy, hname, rfl⟩ := h
  exact ⟨y, hy, x, hx, hname.symm, rfl⟩

/-- The subject is two fields whose values cannot be merged. -/
def Unmergeable (schema : Schema) : Subject → Prop
  | fields a b => ∃ f g, a.definition? = some f ∧ b.definition? = some g ∧
      typesConflict schema f.type g.type = true
  | _ => False

theorem Unmergeable.swap {schema : Schema} {u : Subject} (h : u.Unmergeable schema) :
    u.swap.Unmergeable schema := by
  cases u with
  | fields a b =>
    obtain ⟨f, g, hf, hg, htypes⟩ := h
    exact ⟨g, f, hg, hf, by rwa [typesConflict_comm]⟩
  | fragment _ _ | pair _ _ => exact h

/-- A reason that fields have although they exclude one another is the types of their values. -/
theorem unmergeable_of_ownReason? {schema : Schema} {a b : Occurrence}
    (h : ownReason? schema true a b ≠ none) : (fields a.known b.known).Unmergeable schema := by
  unfold ownReason? at h
  rw [if_neg (by simp), if_neg (by simp)] at h
  split at h
  · rename_i f g hf hg
    refine ⟨f, g, hf, hg, ?_⟩
    by_contra htypes
    exact h (if_neg htypes)
  · exact absurd rfl h

theorem Unmergeable.ownReason?_ne_none {schema : Schema} {a b : Occurrence}
    (h : (fields a.known b.known).Unmergeable schema) (exclusive : Bool) :
    ownReason? schema exclusive a b ≠ none := by
  obtain ⟨f, g, hf, hg, htypes⟩ := h
  change a.definition? = some f at hf
  change b.definition? = some g at hg
  simp only [ownReason?, hf, hg, if_pos htypes]
  split
  · exact Option.some_ne_none _
  · split <;> exact Option.some_ne_none _

end Subject

/-! ### What a subject involves -/

/-- To compare one subject, another one has to be compared. -/
def Involves (schema : Schema) (d : Document) : Subject → Subject → Prop
  | .fields a b, u =>
    a.items ≠ [] ∧ b.items ≠ [] ∧
      (u.Between (fieldsOf schema (a.type? schema) a.address a.items)
          (fieldsOf schema (b.type? schema) b.address b.items) ∨
        (∃ n ∈ namesOf b.items, u = .fragment a.address n) ∨
        (∃ n ∈ namesOf a.items, u = .fragment b.address n) ∨
        ∃ n ∈ namesOf a.items, ∃ k ∈ namesOf b.items, u = .pair n k)
  | .fragment address name, u =>
    ∃ type? items place f, d.HasSet schema type? address items ∧
      d.placedFragment? name = some (place, f) ∧ place ≠ address ∧
      (u.Between (fieldsOf schema type? address items)
          (fieldsOf schema (schema.type? f.condition) place f.selectionSet.items) ∨
        ∃ n ∈ namesOf f.selectionSet.items, u = .fragment address n)
  | .pair a b, u =>
    a ≠ b ∧ ∃ place f place' g, d.placedFragment? a = some (place, f) ∧
      d.placedFragment? b = some (place', g) ∧
      (u.Between (fieldsOf schema (schema.type? f.condition) place f.selectionSet.items)
          (fieldsOf schema (schema.type? g.condition) place' g.selectionSet.items) ∨
        (∃ n ∈ namesOf g.selectionSet.items, u = .pair a n) ∨
        ∃ n ∈ namesOf f.selectionSet.items, u = .pair n b)

section Involves

variable {schema : Schema} {d : Document} {u v : Subject}

/-- What a subject involves with its sides exchanged it involves in one of the two orders. -/
theorem Involves.of_swap (h : Involves schema d u.swap v) :
    Involves schema d u v ∨ Involves schema d u v.swap := by
  cases u with
  | fields a b =>
    obtain ⟨hb, ha, h | ⟨n, hn, rfl⟩ | ⟨n, hn, rfl⟩ | ⟨n, hn, k, hk, rfl⟩⟩ := h
    · exact .inr ⟨ha, hb, .inl h.swap⟩
    · exact .inr ⟨ha, hb, .inr (.inr (.inl ⟨n, hn, rfl⟩))⟩
    · exact .inr ⟨ha, hb, .inr (.inl ⟨n, hn, rfl⟩)⟩
    · exact .inr ⟨ha, hb, .inr (.inr (.inr ⟨k, hk, n, hn, rfl⟩))⟩
  | fragment address name => exact .inl h
  | pair a b =>
    obtain ⟨hne, place, f, place', g, hf, hg, h | ⟨n, hn, rfl⟩ | ⟨n, hn, rfl⟩⟩ := h
    · exact .inr ⟨hne.symm, place', g, place, f, hg, hf, .inl h.swap⟩
    · exact .inr ⟨hne.symm, place', g, place, f, hg, hf, .inr (.inr ⟨n, hn, rfl⟩)⟩
    · exact .inr ⟨hne.symm, place', g, place, f, hg, hf, .inr (.inl ⟨n, hn, rfl⟩)⟩

/-- Somewhere in what has to be compared for a subject there are fields whose values cannot be
merged. -/
def Subject.Clashes (schema : Schema) (d : Document) (u : Subject) : Prop :=
  ∃ v, Relation.ReflTransGen (Involves schema d) u v ∧ v.Unmergeable schema

end Involves

/-! ### The subjects of calls -/

namespace Task

/-- What a call compares. -/
def subject? : Task → Option Subject
  | fields _ c => some (.fields c.first.known c.second.known)
  | fragment _ entry name => some (.fragment entry.address name)
  | pair _ (a, b) => some (.pair a b)
  | afresh | within _ _ _ => none

/-- What calls compare. -/
def subjects (tasks : List Task) : List Subject := tasks.filterMap subject?

/-- What a call compares is taken from the document. Looking through a whole set is left out. -/
def Stands (schema : Schema) (d : Document) : Task → Prop
  | fields _ c => Placed schema d c.first ∧ Placed schema d c.second
  | fragment _ entry _ => ∃ type? items, d.HasSet schema type? entry.address items ∧
      Describes schema type? entry.address items entry
  | pair _ _ | afresh => True
  | within _ _ _ => False

/-- Fields around those that the call compares are taken to exclude one another. -/
def IsExclusive : Task → Prop
  | fields exclusive _ | fragment exclusive _ _ | pair exclusive _ => exclusive = true
  | afresh => True
  | within _ _ _ => False

/-- There is a reason for a conflict apart from the selections of the fields. -/
def Decided (schema : Schema) : Task → Prop
  | fields exclusive c =>
    ownReason? schema (exclusive || fromDifferentObjects c.first c.second) c.first c.second ≠ none
  | _ => False

/-- The subject of the call was met before. -/
def Repeats (s : CallState) : Task → Prop
  | fragment _ _ name => name ∈ s.1
  | pair exclusive (a, b) => s.2.compared.contains a b exclusive = true
  | _ => False

/-- A call finds nothing if its calls do not and there is no reason apart from them. -/
theorem returns_eq_nil_iff (schema : Schema) (t : Task) (s : CallState)
    (inner : List Conflict × CallState) :
    (t.returns schema s inner).1 = [] ↔ inner.1 = [] ∧ ¬ t.Decided schema := by
  cases t with
  | fields exclusive c =>
    cases hreason : ownReason? schema (exclusive || fromDifferentObjects c.first c.second) c.first
        c.second with
    | some reason => simp [returns_fields_some hreason, Decided, hreason]
    | none => simp [returns_fields_none hreason, Decided, hreason]
  | afresh | fragment _ _ _ | pair _ _ | within _ _ _ => simp [returns, Decided]

/-- Fields that exclude one another are decided by the types of their values. -/
theorem exists_unmergeable {schema : Schema} {t : Task} (ht : t.IsExclusive)
    (hdecided : t.Decided schema) : ∃ u, t.subject? = some u ∧ u.Unmergeable schema := by
  cases t with
  | fields exclusive c =>
    obtain rfl : exclusive = true := ht
    exact ⟨_, rfl, Subject.unmergeable_of_ownReason? hdecided⟩
  | afresh | fragment _ _ _ | pair _ _ | within _ _ _ => exact hdecided.elim

/-- Values that cannot be merged decide, whether fields exclude one another or not. -/
theorem decided_of_unmergeable {schema : Schema} {t : Task} {u : Subject}
    (hu : t.subject? = some u) (h : u.Unmergeable schema) : t.Decided schema := by
  cases t with
  | fields exclusive c =>
    obtain rfl := Option.some.inj hu
    exact h.ownReason?_ne_none _
  | fragment _ _ _ | pair _ _ =>
    obtain rfl := Option.some.inj hu
    exact h.elim
  | afresh | within _ _ _ => cases hu

/-- What calls a call makes, from entries that describe what they should. -/
inductive Expands (schema : Schema) (d : Document) :
    Task → CallState → List Task × CallState → Prop where
  /-- Forgetting the fragments met takes no calls. -/
  | afresh {names : List String} {m : Memory} : Expands schema d afresh (names, m) ([], [], m)
  /-- There is a reason apart from the own selections of two fields. -/
  | decided {exclusive : Bool} {c : Candidate} {names : List String} {m : Memory} :
      (Task.fields exclusive c).Decided schema →
      Expands schema d (fields exclusive c) (names, m) ([], names, m)
  /-- One of two fields has no selections. -/
  | bare {exclusive : Bool} {c : Candidate} {names : List String} {m : Memory} :
      c.first.items = [] ∨ c.second.items = [] →
      Expands schema d (fields exclusive c) (names, m) ([], names, m)
  /-- The own selections of two fields are compared. -/
  | fields {exclusive : Bool} {c : Candidate} {names : List String} {m m' : Memory} {e e' : Entry} :
      c.first.items ≠ [] → c.second.items ≠ [] → Faithful schema d m' → m'.compared = m.compared →
      Describes schema (c.first.type? schema) c.first.address c.first.items e →
      Describes schema (c.second.type? schema) c.second.address c.second.items e' →
      Expands schema d (fields exclusive c) (names, m)
        (ofSets (exclusive || fromDifferentObjects c.first c.second) e e', names, m')
  /-- The fragment was met before. -/
  | met {exclusive : Bool} {e : Entry} {name : String} {names : List String} {m : Memory} :
      name ∈ names → Expands schema d (fragment exclusive e name) (names, m) ([], names, m)
  /-- The name has no definition, or it is that of the set itself. -/
  | missing {exclusive : Bool} {e : Entry} {name : String} {names : List String} {m m' : Memory} :
      (∀ place f, d.placedFragment? name = some (place, f) → place = e.address) →
      Faithful schema d m' → m'.compared = m.compared →
      Expands schema d (fragment exclusive e name) (names, m) ([], name :: names, m')
  /-- The fields of a set are compared with what a fragment selects. -/
  | fragment {exclusive : Bool} {e other : Entry} {name : String} {names : List String}
      {m m' : Memory} {place : Address} {f : FragmentDefinition} :
      d.placedFragment? name = some (place, f) → place ≠ e.address → Faithful schema d m' →
      m'.compared = m.compared →
      Describes schema (schema.type? f.condition) place f.selectionSet.items other →
      Expands schema d (fragment exclusive e name) (names, m)
        ((Candidate.between e.fields other.fields).map (Task.fields exclusive) ++
          other.fragments.map (Task.fragment exclusive e), name :: names, m')
  /-- The fragments were compared before. -/
  | compared {exclusive : Bool} {a b : String} {names : List String} {m : Memory} :
      m.compared.contains a b exclusive = true →
      Expands schema d (pair exclusive (a, b)) (names, m) ([], names, m)
  /-- It is one fragment, or one of the two names has no definition. -/
  | undefined {exclusive : Bool} {a b : String} {names : List String} {m m' : Memory} :
      a = b ∨ d.placedFragment? a = none ∨ d.placedFragment? b = none → Faithful schema d m' →
      m'.compared = m.compared ∨ m'.compared = m.compared.insert a b exclusive →
      Expands schema d (pair exclusive (a, b)) (names, m) ([], names, m')
  /-- Two fragments are compared. -/
  | pair {exclusive : Bool} {a b : String} {names : List String} {m m' : Memory} {e e' : Entry}
      {place place' : Address} {f g : FragmentDefinition} :
      a ≠ b → d.placedFragment? a = some (place, f) → d.placedFragment? b = some (place', g) →
      Faithful schema d m' → m'.compared = m.compared.insert a b exclusive →
      Describes schema (schema.type? f.condition) place f.selectionSet.items e →
      Describes schema (schema.type? g.condition) place' g.selectionSet.items e' →
      Expands schema d (pair exclusive (a, b)) (names, m)
        ((Candidate.between e.fields e'.fields).map (Task.fields exclusive) ++
          (e'.fragments.map (a, ·)).map (Task.pair exclusive) ++
          (e.fragments.map (·, b)).map (Task.pair exclusive), names, m')

section Expands

variable {schema : Schema} {d : Document} {exclusive : Bool} {names : List String} {m : Memory}

theorem expands_fields {c : Candidate} (ha : Placed schema d c.first) (hb : Placed schema d c.second)
    (hm : Faithful schema d m) :
    Expands schema d (.fields exclusive c) (names, m)
      (calls schema d (.fields exclusive c) (names, m)) := by
  cases hreason : ownReason? schema (exclusive || fromDifferentObjects c.first c.second) c.first
      c.second with
  | some reason =>
    have hcalls : calls schema d (.fields exclusive c) (names, m) = ([], names, m) := by
      simp only [calls, hreason]
    rw [hcalls]
    exact .decided (by simp [Decided, hreason])
  | none =>
    by_cases hitems : (c.first.items.isEmpty || c.second.items.isEmpty) = true
    · have hcalls : calls schema d (.fields exclusive c) (names, m) = ([], names, m) := by
        simp only [calls, hreason, if_pos hitems]
      rw [hcalls]
      exact .bare (by simpa using hitems)
    · obtain ⟨he, hfaithful, hsame⟩ := entry_spec hm ha.own (.of_set ha.own)
      obtain ⟨he', hfaithful', hsame'⟩ := entry_spec hfaithful hb.own (.of_set hb.own)
      rw [calls_fields hreason hitems rfl rfl]
      have hnonempty : c.first.items ≠ [] ∧ c.second.items ≠ [] := by simpa using hitems
      exact .fields hnonempty.1 hnonempty.2 hfaithful' (hsame'.trans hsame) he he'

theorem expands_fragment {e : Entry} (name : String) (hm : Faithful schema d m) :
    Expands schema d (.fragment exclusive e name) (names, m)
      (calls schema d (.fragment exclusive e name) (names, m)) := by
  by_cases hmem : name ∈ names
  · rw [calls, if_pos hmem]
    exact .met hmem
  cases hplaced : d.placedFragment? name with
  | none =>
    have hcalls : calls schema d (.fragment exclusive e name) (names, m) = ([], name :: names, m) := by
      simp only [calls, if_neg hmem, hplaced]
    rw [hcalls]
    exact .missing (by simp [hplaced]) hm rfl
  | some p =>
    obtain ⟨place, f⟩ := p
    obtain ⟨hother, hfaithful, hsame⟩ := fragmentEntry_spec hplaced hm
    by_cases haddress : (fragmentEntry schema place f m).1.address = e.address
    · have hcalls : calls schema d (.fragment exclusive e name) (names, m) =
          ([], name :: names, (fragmentEntry schema place f m).2) := by
        simp only [calls, if_neg hmem, hplaced, if_pos haddress]
      rw [hcalls]
      refine .missing (fun place' f' hplaced' => ?_) hfaithful hsame
      obtain ⟨rfl, rfl⟩ := Prod.mk.inj (Option.some.inj (hplaced.symm.trans hplaced'))
      rw [← haddress, hother.place]
    · rw [calls_fragment hmem hplaced rfl haddress]
      rw [hother.place] at haddress
      exact .fragment hplaced haddress hfaithful hsame hother

theorem expands_pair (a b : String) (hm : Faithful schema d m) :
    Expands schema d (.pair exclusive (a, b)) (names, m)
      (calls schema d (.pair exclusive (a, b)) (names, m)) := by
  by_cases hab : a = b
  · rw [calls, if_pos hab]
    exact .undefined (.inl hab) hm (.inl rfl)
  by_cases hcontains : m.compared.contains a b exclusive = true
  · rw [calls, if_neg hab, if_pos hcontains]
    exact .compared hcontains
  have hmemory : Faithful schema d { m with compared := m.compared.insert a b exclusive } := hm
  have hnone (hnone : d.placedFragment? a = none ∨ d.placedFragment? b = none) :
      Expands schema d (.pair exclusive (a, b)) (names, m)
        ([], names, { m with compared := m.compared.insert a b exclusive }) :=
    .undefined (.inr hnone) hmemory (.inr rfl)
  cases ha : d.placedFragment? a with
  | none => simpa [calls, hab, hcontains, ha] using hnone (.inl ha)
  | some p =>
    cases hb : d.placedFragment? b with
    | none => simpa [calls, hab, hcontains, ha, hb] using hnone (.inr hb)
    | some q =>
      obtain ⟨place, f⟩ := p
      obtain ⟨place', g⟩ := q
      obtain ⟨he, hfaithful, hsame⟩ := fragmentEntry_spec ha hmemory
      obtain ⟨he', hfaithful', hsame'⟩ := fragmentEntry_spec hb hfaithful
      rw [calls_pair hab hcontains ha hb rfl rfl]
      exact .pair hab ha hb hfaithful' (hsame'.trans hsame) he he'

/-- The calls of a call, if what it compares is taken from the document and what is remembered is
true. -/
theorem expands_calls {t : Task} {s : CallState} (ht : t.Stands schema d)
    (hs : Faithful schema d s.2) : Expands schema d t s (t.calls schema d s) := by
  cases t with
  | fields exclusive c => exact expands_fields ht.1 ht.2 hs
  | afresh => exact .afresh
  | fragment exclusive entry name => exact expands_fragment name hs
  | pair exclusive p => exact expands_pair p.1 p.2 hs
  | within parent? address items => exact ht.elim

end Expands

/-! ### What calls compare -/

section Subjects

variable {schema : Schema} {d : Document} {exclusive : Bool} {u : Subject}
  {parent? other? : Option TypeDefinition} {address place : Address} {items others : List Selection}
  {e e' : Entry}

theorem subjects_append (tasks more : List Task) :
    subjects (tasks ++ more) = subjects tasks ++ subjects more := List.filterMap_append

theorem mem_subjects {tasks : List Task} :
    u ∈ subjects tasks ↔ ∃ t ∈ tasks, t.subject? = some u := List.mem_filterMap

theorem mem_subjects_cons {t : Task} {rest : List Task} :
    u ∈ subjects (t :: rest) ↔ t.subject? = some u ∨ u ∈ subjects rest := by
  simp only [mem_subjects, List.exists_mem_cons_iff]

theorem mem_subjects_fields (he : Describes schema parent? address items e)
    (he' : Describes schema other? place others e') :
    u ∈ subjects ((Candidate.between e.fields e'.fields).map (.fields exclusive)) ↔
      u.Between (fieldsOf schema parent? address items) (fieldsOf schema other? place others) := by
  constructor
  · intro hu
    obtain ⟨t, ht, hu⟩ := mem_subjects.mp hu
    obtain ⟨c, hc, rfl⟩ := List.mem_map.mp ht
    obtain ⟨x, hx, y, hy, hxc, hyc, hname⟩ := he.of_mem_between he' hc
    refine ⟨x, hx, y, hy, hname, ?_⟩
    rw [hxc, hyc]
    exact (Option.some.inj hu).symm
  · rintro ⟨x, hx, y, hy, hname, rfl⟩
    obtain ⟨c, hc, hcx, hcy⟩ := he.mem_between he' hx hy hname
    refine mem_subjects.mpr ⟨_, List.mem_map_of_mem hc, ?_⟩
    rw [subject?, hcx, hcy]

theorem mem_subjects_fragments (he' : Describes schema other? place others e') :
    u ∈ subjects (e'.fragments.map (.fragment exclusive e)) ↔
      ∃ n ∈ namesOf others, u = .fragment e.address n := by
  simp only [mem_subjects, List.mem_map, ← he'.fragments]
  constructor
  · rintro ⟨_, ⟨n, hn, rfl⟩, hu⟩
    exact ⟨n, hn, (Option.some.inj hu).symm⟩
  · rintro ⟨n, hn, rfl⟩
    exact ⟨_, ⟨n, hn, rfl⟩, rfl⟩

theorem mem_subjects_pairs (pairs : List (String × String)) :
    u ∈ subjects (pairs.map (.pair exclusive)) ↔ ∃ p ∈ pairs, u = .pair p.1 p.2 := by
  simp only [mem_subjects, List.mem_map]
  constructor
  · rintro ⟨_, ⟨p, hp, rfl⟩, hu⟩
    exact ⟨p, hp, (Option.some.inj hu).symm⟩
  · rintro ⟨p, hp, rfl⟩
    exact ⟨_, ⟨p, hp, rfl⟩, rfl⟩

theorem mem_subjects_ofSets (he : Describes schema parent? address items e)
    (he' : Describes schema other? place others e') :
    u ∈ subjects (ofSets exclusive e e') ↔
      u.Between (fieldsOf schema parent? address items) (fieldsOf schema other? place others) ∨
        (∃ n ∈ namesOf others, u = .fragment address n) ∨
        (∃ n ∈ namesOf items, u = .fragment place n) ∨
        ∃ n ∈ namesOf items, ∃ k ∈ namesOf others, u = .pair n k := by
  have hafresh (tasks : List Task) : subjects (.afresh :: tasks) = subjects tasks := rfl
  simp only [ofSets, subjects_append, List.mem_append, hafresh, mem_subjects_fields he he',
    mem_subjects_fragments he, mem_subjects_fragments he', mem_subjects_pairs, he.place, he'.place,
    List.mem_flatMap, List.mem_map, ← he.fragments, ← he'.fragments, or_assoc]
  refine or_congr_right (or_congr_right (or_congr_right ⟨?_, ?_⟩))
  · rintro ⟨_, ⟨n, hn, k, hk, rfl⟩, rfl⟩
    exact ⟨n, hn, k, hk, rfl⟩
  · rintro ⟨n, hn, k, hk, rfl⟩
    exact ⟨(n, k), ⟨n, hn, k, hk, rfl⟩, rfl⟩

theorem mem_subjects_ofFragments (a b : String) (he : Describes schema parent? address items e)
    (he' : Describes schema other? place others e') :
    u ∈ subjects ((Candidate.between e.fields e'.fields).map (.fields exclusive) ++
        (e'.fragments.map (a, ·)).map (.pair exclusive) ++
        (e.fragments.map (·, b)).map (.pair exclusive)) ↔
      u.Between (fieldsOf schema parent? address items) (fieldsOf schema other? place others) ∨
        (∃ n ∈ namesOf others, u = .pair a n) ∨ ∃ n ∈ namesOf items, u = .pair n b := by
  simp only [subjects_append, List.mem_append, mem_subjects_fields he he', mem_subjects_pairs,
    List.mem_map, exists_exists_and_eq_and, ← he.fragments, ← he'.fragments, or_assoc]

end Subjects

section Expansion

variable {schema : Schema} {d : Document} {t : Task} {s : CallState} {r : List Task × CallState}
  {u v : Subject}

/-- A call makes calls only for what its subject involves. -/
theorem Expands.involves (h : Expands schema d t s r) (ht : t.Stands schema d)
    (hv : v ∈ subjects r.1) : ∃ u, t.subject? = some u ∧ Involves schema d u v := by
  cases h with
  | afresh | decided _ | bare _ | met _ | missing _ _ _ | compared _ | undefined _ _ _ => cases hv
  | fields hfirst hsecond _ _ he he' =>
    exact ⟨_, rfl, hfirst, hsecond, (mem_subjects_ofSets he he').mp hv⟩
  | @fragment exclusive e other name names m m' place f hplaced hne _ _ hother =>
    obtain ⟨type?, items, hset, he⟩ := ht
    rw [subjects_append, List.mem_append, mem_subjects_fields he hother,
      mem_subjects_fragments hother] at hv
    exact ⟨_, rfl, type?, items, place, f, hset, hplaced, hne, hv⟩
  | @pair exclusive a b names m m' e e' place place' f g hne hf hg _ _ he he' =>
    exact ⟨_, rfl, hne, place, f, place', g, hf, hg, (mem_subjects_ofFragments a b he he').mp hv⟩

/-- A call that is not decided and not made before makes calls for all that its subject involves. -/
theorem Expands.covers (h : Expands schema d t s r) (ht : t.Stands schema d)
    (hdecided : ¬ t.Decided schema) (hnew : ¬ t.Repeats s) (hu : t.subject? = some u) (hv : Involves schema d u v) :
    v ∈ subjects r.1 := by
  cases h with
  | afresh => cases hu
  | decided h => exact absurd h hdecided
  | bare hitems =>
    obtain rfl := Option.some.inj hu
    exact (hitems.elim hv.1 hv.2.1).elim
  | fields _ _ _ _ he he' =>
    obtain rfl := Option.some.inj hu
    exact (mem_subjects_ofSets he he').mpr hv.2.2
  | met hmem => exact absurd hmem hnew
  | missing hnone _ _ =>
    obtain rfl := Option.some.inj hu
    obtain ⟨_, _, place, f, -, hplaced, hne, -⟩ := hv
    exact absurd (hnone place f hplaced) hne
  | fragment hplaced hne _ _ hother =>
    obtain rfl := Option.some.inj hu
    obtain ⟨type?, items, hset, he⟩ := ht
    obtain ⟨type'?, items', place', f', hset', hplaced', -, hv⟩ := hv
    obtain ⟨rfl, rfl⟩ := hset.unique hset'
    obtain ⟨rfl, rfl⟩ := Prod.mk.inj (Option.some.inj (hplaced.symm.trans hplaced'))
    rw [subjects_append, List.mem_append, mem_subjects_fields he hother,
      mem_subjects_fragments hother]
    exact hv
  | compared hcontains => exact absurd hcontains hnew
  | undefined hnone _ _ =>
    obtain rfl := Option.some.inj hu
    obtain ⟨hne, place, f, place', g, hf, hg, -⟩ := hv
    rcases hnone with heq | hnone | hnone
    · exact absurd heq hne
    · cases hf.symm.trans hnone
    · cases hg.symm.trans hnone
  | @pair exclusive a b names m m' e e' place place' f g _ hf hg _ _ he he' =>
    obtain rfl := Option.some.inj hu
    obtain ⟨-, p, f', q, g', hf', hg', hv⟩ := hv
    obtain ⟨rfl, rfl⟩ := Prod.mk.inj (Option.some.inj (hf.symm.trans hf'))
    obtain ⟨rfl, rfl⟩ := Prod.mk.inj (Option.some.inj (hg.symm.trans hg'))
    exact (mem_subjects_ofFragments a b he he').mpr hv

theorem Expands.faithful (h : Expands schema d t s r) (hs : Faithful schema d s.2) :
    Faithful schema d r.2.2 := by
  cases h with
  | afresh | decided _ | bare _ | met _ | compared _ => exact hs
  | fields _ _ hm _ _ _ | missing _ hm _ | fragment _ _ hm _ _ | undefined _ hm _
  | pair _ _ _ hm _ _ _ => exact hm

/-- All calls of two sets are as is said of each kind of call. -/
theorem forall_mem_ofSets {P : Task → Prop} {exclusive : Bool} {e e' : Entry}
    (hfields : ∀ c ∈ Candidate.between e.fields e'.fields, P (.fields exclusive c))
    (hafresh : P .afresh) (hfragment : ∀ n, P (.fragment exclusive e n))
    (hfragment' : ∀ n, P (.fragment exclusive e' n)) (hpair : ∀ p, P (.pair exclusive p)) :
    ∀ t ∈ ofSets exclusive e e', P t := by
  intro t ht
  simp only [ofSets, List.mem_append, List.mem_cons, List.mem_map] at ht
  rcases ht with ((⟨c, hc, rfl⟩ | rfl | ⟨n, -, rfl⟩) | rfl | ⟨n, -, rfl⟩) | ⟨p, -, rfl⟩
  · exact hfields c hc
  · exact hafresh
  · exact hfragment n
  · exact hafresh
  · exact hfragment' n
  · exact hpair p

theorem stands_fields {exclusive : Bool} {parent? other? : Option TypeDefinition}
    {address place : Address} {items others : List Selection} {e e' : Entry} {c : Candidate}
    (hset : d.HasSet schema parent? address items) (hset' : d.HasSet schema other? place others)
    (he : Describes schema parent? address items e) (he' : Describes schema other? place others e')
    (hc : c ∈ Candidate.between e.fields e'.fields) : (fields exclusive c).Stands schema d := by
  obtain ⟨x, hx, y, hy, hxc, hyc, -⟩ := he.of_mem_between he' hc
  exact ⟨(placed_of_mem_fieldsOf hset hx).congr hxc, (placed_of_mem_fieldsOf hset' hy).congr hyc⟩

theorem stands_fragment {exclusive : Bool} {type? : Option TypeDefinition} {address : Address}
    {items : List Selection} {e : Entry} (hset : d.HasSet schema type? address items)
    (he : Describes schema type? address items e) (name : String) :
    (fragment exclusive e name).Stands schema d := by
  obtain rfl := he.place
  exact ⟨type?, items, hset, he⟩

/-- What is compared is taken from the document in all calls. -/
theorem Expands.stands (h : Expands schema d t s r) (ht : t.Stands schema d) :
    ∀ t' ∈ r.1, t'.Stands schema d := by
  cases h with
  | afresh | decided _ | bare _ | met _ | missing _ _ _ | compared _ | undefined _ _ _ =>
    exact fun t' ht' => absurd ht' List.not_mem_nil
  | fields _ _ _ _ he he' =>
    exact forall_mem_ofSets (fun c hc => stands_fields ht.1.own ht.2.own he he' hc) trivial
      (stands_fragment ht.1.own he) (stands_fragment ht.2.own he') fun p => trivial
  | fragment hplaced _ _ _ hother =>
    obtain ⟨type?, items, hset, he⟩ := ht
    have hset' := Document.hasSet_of_placedFragment? schema hplaced
    intro t' ht'
    simp only [List.mem_append, List.mem_map] at ht'
    rcases ht' with ⟨c, hc, rfl⟩ | ⟨n, -, rfl⟩
    · exact stands_fields hset hset' he hother hc
    · exact ⟨type?, items, hset, he⟩
  | pair _ hf hg _ _ he he' =>
    have hset := Document.hasSet_of_placedFragment? schema hf
    have hset' := Document.hasSet_of_placedFragment? schema hg
    intro t' ht'
    simp only [List.mem_append, List.mem_map] at ht'
    rcases ht' with (⟨c, hc, rfl⟩ | ⟨p, -, rfl⟩) | ⟨p, -, rfl⟩
    · exact stands_fields hset hset' he he' hc
    · exact trivial
    · exact trivial

/-- Inside fields that exclude one another all fields do. -/
theorem Expands.isExclusive (h : Expands schema d t s r) (ht : t.IsExclusive) :
    ∀ t' ∈ r.1, t'.IsExclusive := by
  cases h with
  | afresh | decided _ | bare _ | met _ | missing _ _ _ | compared _ | undefined _ _ _ =>
    exact fun t' ht' => absurd ht' List.not_mem_nil
  | fields _ _ _ _ _ _ =>
    obtain rfl := ht
    exact forall_mem_ofSets (fun _ _ => Bool.true_or _) trivial (fun _ => Bool.true_or _)
      (fun _ => Bool.true_or _) fun _ => Bool.true_or _
  | fragment _ _ _ _ _ =>
    intro t' ht'
    simp only [List.mem_append, List.mem_map] at ht'
    rcases ht' with ⟨c, -, rfl⟩ | ⟨n, -, rfl⟩ <;> exact ht
  | pair _ _ _ _ _ _ _ =>
    intro t' ht'
    simp only [List.mem_append, List.mem_map] at ht'
    rcases ht' with (⟨c, -, rfl⟩ | ⟨p, -, rfl⟩) | ⟨p, -, rfl⟩ <;> exact ht

end Expansion

end Task

/-- What is remembered stays true. -/
theorem Runs.faithful {schema : Schema} {d : Document} {tasks : List Task} {s : CallState}
    {result : List Conflict × CallState} (hruns : Runs schema d tasks s result)
    (hstands : ∀ t ∈ tasks, t.Stands schema d) (hs : Faithful schema d s.2) :
    Faithful schema d result.2.2 := by
  induction hruns with
  | nil => exact hs
  | cons _ _ ihCalls ihRest =>
    obtain ⟨ht, hrest⟩ := List.forall_mem_cons.mp hstands
    have hexpands := Task.expands_calls ht hs
    refine ihRest hrest ?_
    rw [Task.returns_memory]
    exact ihCalls (hexpands.stands ht) (hexpands.faithful hs)

end GraphQLCheck.Overlap
