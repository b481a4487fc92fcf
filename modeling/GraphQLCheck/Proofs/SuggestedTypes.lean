import GraphQLCheck.Proofs.TypeOverlap
import Mathlib.Data.List.Sigma

/-!
# Suggested types

For a field that an abstract type lacks, types are suggested that have it. The possible types are
gone through, and for each one that has the field the interfaces that have it too are counted. The
counts are kept in the order of the first occurrences (`Counted`), and sorting them keeps that order
among equal ones (`pairwise_mergeSort_of_pairwise`).

Each suggestion can be followed because the possible types are indexed by what they declare: an
interface that a possible type declares has this possible type in common with the abstract type.

## What is proved

* `counted_countNames` — what counting gives.
* `pairwise_mergeSort_of_pairwise` — sorting is stable.
* `exists_possible`, `exists_declared` — what possible types are and declare overlaps with the type.
* `suggestions_can_be_followed` — what is suggested, and in which order.
-/

namespace GraphQLCheck

namespace Rule

/-! ### Counting -/

/-- Going through a list, one name is met when another one has not been met. -/
def MetFirst (names : List String) (a b : String) : Prop :=
  ∃ before after, names = before ++ a :: after ∧ b ∉ before

theorem MetFirst.append {names : List String} {a b : String} (h : MetFirst names a b)
    (more : List String) : MetFirst (names ++ more) a b := by
  obtain ⟨before, after, rfl, hb⟩ := h
  exact ⟨before, after ++ more, by rw [List.append_assoc, List.cons_append], hb⟩

theorem metFirst_concat {names : List String} {a b : String} (ha : a ∈ names) (hb : b ∉ names) :
    MetFirst (names ++ [b]) a b := by
  obtain ⟨before, after, rfl⟩ := List.append_of_mem ha
  refine MetFirst.append ⟨before, after, rfl, fun h => hb ?_⟩ [b]
  exact List.mem_append_left _ h

/-- In a list that is put together from several, the name is met in one of them, and the other one
in none before. -/
theorem MetFirst.flatMap {α : Type} {list : List α} {f : α → List String} {a b : String}
    (h : MetFirst (list.flatMap f) a b) :
    ∃ before x after, list = before ++ x :: after ∧ MetFirst (f x) a b ∧
      ∀ other ∈ before, b ∉ f other := by
  induction list with
  | nil =>
    obtain ⟨before, after, heq, -⟩ := h
    simp at heq
  | cons x rest ih =>
    obtain ⟨before, after, heq, hb⟩ := h
    have hsplit : (∃ more, before = f x ++ more ∧ rest.flatMap f = more ++ a :: after) ∨
        ∃ more, f x = before ++ a :: more := by
      rcases List.append_eq_append_iff.mp heq with h | ⟨more, hx, hmore⟩
      · exact .inl h
      · cases more with
        | nil => exact .inl ⟨[], by simpa using hx.symm, hmore.symm⟩
        | cons first more =>
          obtain ⟨rfl, -⟩ := List.cons.inj hmore
          exact .inr ⟨more, hx⟩
    rcases hsplit with ⟨more, rfl, hrest⟩ | ⟨more, hx⟩
    · rw [List.mem_append, not_or] at hb
      obtain ⟨others, y, last, rfl, hy, hothers⟩ := ih ⟨more, after, hrest, hb.2⟩
      exact ⟨x :: others, y, last, rfl, hy, List.forall_mem_cons.mpr ⟨hb.1, hothers⟩⟩
    · exact ⟨[], x, rest, rfl, ⟨before, more, hx, hb⟩, fun _ h => absurd h List.not_mem_nil⟩

/-- What is left out of a list does not matter, if it is not the other name. -/
theorem MetFirst.of_filter {names : List String} {p : String → Bool} {a b : String}
    (h : MetFirst (names.filter p) a b) (hb : p b = true) : MetFirst names a b := by
  obtain ⟨before, after, heq, hnot⟩ := h
  obtain ⟨first, last, rfl, rfl, hlast⟩ := List.filter_eq_append_iff.mp heq
  obtain ⟨skipped, rest, rfl, hskipped, -, -⟩ := List.filter_eq_cons_iff.mp hlast
  refine ⟨first ++ skipped, rest, by rw [List.append_assoc], fun h => ?_⟩
  rcases List.mem_append.mp h with h | h
  · exact hnot (List.mem_filter.mpr ⟨h, hb⟩)
  · exact hskipped b h hb

/-- The counts of names: each name once, in the order in which they are met. -/
structure Counted (names : List String) (counts : List (String × ℕ)) : Prop where
  /-- What is counted. -/
  mem_iff : ∀ name, name ∈ counts.map (·.1) ↔ name ∈ names
  /-- How often it was counted. -/
  count : ∀ p ∈ counts, p.2 = names.count p.1
  /-- Nothing has two counts. -/
  once : (counts.map (·.1)).Nodup
  /-- What is met first comes first. -/
  order : (counts.map (·.1)).Pairwise (MetFirst names)

variable {name : String} {names : List String} {counts : List (String × ℕ)}

theorem map_countName (name : String) (counts : List (String × ℕ)) :
    (countName name counts).map (·.1) =
      if name ∈ counts.map (·.1) then counts.map (·.1) else counts.map (·.1) ++ [name] := by
  induction counts with
  | nil => rfl
  | cons p rest ih =>
    by_cases hname : p.1 = name
    · simp [countName, hname]
    · have hmem : name ∈ (p :: rest).map (·.1) ↔ name ∈ rest.map (·.1) := by
        rw [List.map_cons, List.mem_cons]
        exact or_iff_right (Ne.symm hname)
      rw [countName, if_neg hname, List.map_cons, ih]
      simp only [hmem]
      split_ifs <;> rfl

/-- Counting one more of a name raises its count and no other. -/
theorem snd_of_mem_countName (number : String → ℕ) (hcount : ∀ p ∈ counts, p.2 = number p.1)
    (hnew : name ∉ counts.map (·.1) → number name = 0) (honce : (counts.map (·.1)).Nodup) :
    ∀ p ∈ countName name counts, p.2 = number p.1 + if p.1 = name then 1 else 0 := by
  induction counts with
  | nil =>
    intro p hp
    obtain rfl := List.mem_singleton.mp hp
    simp [hnew List.not_mem_nil]
  | cons q rest ih =>
    obtain ⟨hq, hrest⟩ := List.forall_mem_cons.mp hcount
    obtain ⟨hother, honce⟩ := List.nodup_cons.mp honce
    by_cases hname : q.1 = name
    · rw [countName, if_pos hname, List.forall_mem_cons]
      refine ⟨by simp [hq, hname], fun p hp => ?_⟩
      have hne : p.1 ≠ name := fun h =>
        hother (List.mem_map.mpr ⟨p, hp, h.trans hname.symm⟩)
      rw [if_neg hne, hrest p hp, Nat.add_zero]
    · rw [countName, if_neg hname, List.forall_mem_cons]
      refine ⟨by simp [hq, hname], ih hrest (fun h => hnew fun hmem => ?_) honce⟩
      exact (List.mem_cons.mp hmem).elim (fun heq => hname heq.symm) h

theorem Counted.concat (h : Counted names counts) (name : String) :
    Counted (names ++ [name]) (countName name counts) := by
  have horder := h.order.imp fun hmet => MetFirst.append hmet [name]
  refine ⟨?_, fun p hp => ?_, ?_, ?_⟩
  · intro other
    rw [map_countName, List.mem_append, List.mem_singleton, ← h.mem_iff other]
    split_ifs with hmem
    · exact ⟨.inl, fun hor => hor.elim id fun heq => heq ▸ hmem⟩
    · rw [List.mem_append, List.mem_singleton]
  · have hnew : name ∉ counts.map (·.1) → names.count name = 0 :=
      fun hmem => List.count_eq_zero.mpr fun hname => hmem ((h.mem_iff name).mpr hname)
    rw [snd_of_mem_countName names.count h.count hnew h.once p hp, List.count_append,
      List.count_singleton]
    simp only [beq_iff_eq, @eq_comm _ name]
  · rw [map_countName]
    split_ifs with hmem
    · exact h.once
    · exact List.concat_eq_append ▸ h.once.concat hmem
  · rw [map_countName]
    split_ifs with hmem
    · exact horder
    · refine List.pairwise_append.mpr ⟨horder, List.pairwise_singleton _ _, fun a ha b hb => ?_⟩
      obtain rfl := List.mem_singleton.mp hb
      exact metFirst_concat ((h.mem_iff a).mp ha) (mt (h.mem_iff b).mpr hmem)

/-- Counting from the front on keeps the counts of what was counted. -/
theorem Counted.foldl (h : Counted names counts) (more : List String) :
    Counted (names ++ more) (more.foldl (fun counts name => countName name counts) counts) := by
  induction more generalizing names counts with
  | nil => rwa [List.append_nil]
  | cons name more ih =>
    rw [List.append_cons]
    exact ih (h.concat name)

theorem counted_countNames (names : List String) : Counted names (countNames names) :=
  Counted.foldl ⟨fun _ => Iff.rfl, fun _ h => absurd h List.not_mem_nil, .nil, .nil⟩ names

/-! ### Sorting -/

/-- Sorting keeps the order of what is equal. -/
theorem pairwise_mergeSort_of_pairwise {α : Type} (le : α → α → Bool) {before : α → α → Prop}
    (htrans : ∀ a b c, le a b = true → le b c = true → le a c = true)
    (htotal : ∀ a b, (le a b || le b a) = true) {list : List α} (h : list.Pairwise before) :
    (list.mergeSort le).Pairwise fun a b => le a b = true ∧ (le b a = true → before a b) := by
  -- Sorted with their numbers, equal elements are in the order of these.
  have hsorted := List.pairwise_mergeSort (List.zipIdxLE_trans htrans)
    (List.zipIdxLE_total htotal) list.zipIdx
  have hnumbers : (list.zipIdx.mergeSort (List.zipIdxLE le)).Pairwise (·.2 ≠ ·.2) :=
    List.pairwise_map.mp (((List.mergeSort_perm _ _).map Prod.snd).nodup_iff.mpr
      (List.nodup_zipIdx_map_snd list))
  rw [← List.mergeSort_zipIdx, List.pairwise_map]
  refine (hsorted.and hnumbers).imp_of_mem ?_
  rintro ⟨a, i⟩ ⟨b, j⟩ ha hb ⟨hle, hne⟩
  have ha : list[i]? = some a := List.mem_zipIdx_iff_getElem?.mp (List.mem_mergeSort.mp ha)
  have hb : list[j]? = some b := List.mem_zipIdx_iff_getElem?.mp (List.mem_mergeSort.mp hb)
  have hab : le a b = true := by
    by_contra hab
    simp [List.zipIdxLE, hab] at hle
  refine ⟨hab, fun hba => ?_⟩
  have hij : i < j := by
    refine lt_of_le_of_ne ?_ hne
    simpa [List.zipIdxLE, hab, hba] using hle
  obtain ⟨hi, rfl⟩ := List.getElem?_eq_some_iff.mp ha
  obtain ⟨hj, rfl⟩ := List.getElem?_eq_some_iff.mp hb
  exact List.pairwise_iff_getElem.mp h i j hi hj hij

/-! ### What is counted -/

variable {s : Schema} {parent : TypeDefinition} {field : String}

/-- The possible types of a type that have a field and implement an interface. -/
def implementers (s : Schema) (parent : TypeDefinition) (field name : String) : List String :=
  (s.possibleTypes parent.name).filter fun object =>
    (s.fieldOf? object field).isSome && (s.interfacesOf object).contains name

/-- Going through the possible types that have a field, and through the interfaces of each, one
interface is met before another. -/
def MetBefore (s : Schema) (parent : TypeDefinition) (field a b : String) : Prop :=
  ∃ before object after, s.possibleTypes parent.name = before ++ object :: after ∧
    (s.fieldOf? object field).isSome = true ∧ MetFirst (s.interfacesOf object) a b ∧
    ∀ other ∈ before, (s.fieldOf? other field).isSome = true → b ∉ s.interfacesOf other

/-- One interface is implemented by more possible types that have a field than another one, or by
as many and is met before. -/
def Ranked (s : Schema) (parent : TypeDefinition) (field a b : String) : Prop :=
  (implementers s parent field b).length < (implementers s parent field a).length ∨
    (implementers s parent field a).length = (implementers s parent field b).length ∧
      MetBefore s parent field a b

/-- The interfaces that are counted. -/
def encounters (s : Schema) (parent : TypeDefinition) (field : String) : List String :=
  interfacesWith s (objectsWith s parent field) field

theorem mem_encounters_iff {name : String} :
    name ∈ encounters s parent field ↔
      (s.fieldOf? name field).isSome = true ∧ implementers s parent field name ≠ [] := by
  simp only [encounters, interfacesWith, objectsWith, implementers, hasField, List.mem_flatMap,
    List.mem_filter, ne_eq, List.filter_eq_nil_iff, not_forall, not_not, Bool.and_eq_true,
    List.contains_eq_mem, decide_eq_true_eq]
  constructor
  · rintro ⟨object, ⟨hpossible, hobject⟩, hdeclared, hname⟩
    exact ⟨hname, object, hpossible, hobject, hdeclared⟩
  · rintro ⟨hname, object, hpossible, hobject, hdeclared⟩
    exact ⟨object, ⟨hpossible, hobject⟩, hdeclared, hname⟩

/-- An interface is counted once for each possible type that has the field and implements it. -/
theorem count_encounters (honce : ∀ object, (s.interfacesOf object).Nodup) {name : String}
    (hname : (s.fieldOf? name field).isSome = true) :
    (encounters s parent field).count name = (implementers s parent field name).length := by
  rw [encounters, interfacesWith, objectsWith, implementers]
  induction s.possibleTypes parent.name with
  | nil => rfl
  | cons object rest ih =>
    have hown : ((s.interfacesOf object).filter (hasField s field)).count name =
        if name ∈ s.interfacesOf object then 1 else 0 := by
      rw [List.count_filter (p := hasField s field) hname, (honce object).count]
    by_cases hobject : hasField s field object = true
    · have hobject' : (s.fieldOf? object field).isSome = true := hobject
      rw [List.filter_cons_of_pos hobject, List.flatMap_cons, List.count_append, hown, ih]
      by_cases hdeclared : name ∈ s.interfacesOf object <;>
        simp [hobject', hdeclared, Nat.add_comm]
    · have hobject' : (s.fieldOf? object field).isSome = false := Bool.eq_false_iff.mpr hobject
      rw [List.filter_cons_of_neg hobject, ih]
      simp [hobject']

theorem metBefore_of_metFirst {a b : String} (h : MetFirst (encounters s parent field) a b)
    (hb : (s.fieldOf? b field).isSome = true) : MetBefore s parent field a b := by
  obtain ⟨before, object, after, hobjects, hmet, hbefore⟩ := h.flatMap
  obtain ⟨first, last, hpossible, rfl, hlast⟩ := List.filter_eq_append_iff.mp hobjects
  obtain ⟨skipped, rest, rfl, hskipped, hobject, -⟩ := List.filter_eq_cons_iff.mp hlast
  refine ⟨first ++ skipped, object, rest, by rw [hpossible, List.append_assoc], hobject,
    hmet.of_filter hb, fun other hother hfield hdeclared => ?_⟩
  rcases List.mem_append.mp hother with hother | hother
  · exact hbefore other (List.mem_filter.mpr ⟨hother, hfield⟩)
      (List.mem_filter.mpr ⟨hdeclared, hb⟩)
  · exact hskipped other hother hfield

/-- The interfaces that are suggested, most widely implemented first. -/
def rankedInterfaces (s : Schema) (parent : TypeDefinition) (field : String) : List String :=
  ((countNames (encounters s parent field)).mergeSort fun a b => b.2 ≤ a.2).map (·.1)

theorem suggestedTypes_eq (habstract : parent.isAbstract = true) :
    suggestedTypes s parent field =
      rankedInterfaces s parent field ++ objectsWith s parent field :=
  if_pos habstract

theorem rankedInterfaces_perm :
    (rankedInterfaces s parent field).Perm ((countNames (encounters s parent field)).map (·.1)) :=
  (List.mergeSort_perm _ _).map _

theorem mem_rankedInterfaces_iff {name : String} :
    name ∈ rankedInterfaces s parent field ↔
      (s.fieldOf? name field).isSome = true ∧ implementers s parent field name ≠ [] := by
  rw [rankedInterfaces_perm.mem_iff, (counted_countNames _).mem_iff, mem_encounters_iff]

theorem nodup_rankedInterfaces : (rankedInterfaces s parent field).Nodup :=
  rankedInterfaces_perm.nodup_iff.mpr (counted_countNames _).once

theorem pairwise_rankedInterfaces (honce : ∀ object, (s.interfacesOf object).Nodup) :
    (rankedInterfaces s parent field).Pairwise (Ranked s parent field) := by
  have hcounted := counted_countNames (encounters s parent field)
  have hsorted := pairwise_mergeSort_of_pairwise (fun a b : String × ℕ => b.2 ≤ a.2)
    (by grind) (by grind) (List.pairwise_map.mp hcounted.order)
  refine List.pairwise_map.mpr (hsorted.imp_of_mem fun {p q} hp hq hpq => ?_)
  obtain ⟨hle, hmet⟩ := hpq
  have hused {p : String × ℕ} (hp : p ∈ countNames (encounters s parent field)) :
      (s.fieldOf? p.1 field).isSome = true ∧ p.2 = (implementers s parent field p.1).length := by
    have hname := (mem_encounters_iff.mp ((hcounted.mem_iff p.1).mp (List.mem_map_of_mem hp))).1
    exact ⟨hname, (hcounted.count p hp).trans (count_encounters honce hname)⟩
  obtain ⟨-, hp⟩ := hused (List.mem_mergeSort.mp hp)
  obtain ⟨hfield, hq⟩ := hused (List.mem_mergeSort.mp hq)
  have hle : q.2 ≤ p.2 := of_decide_eq_true hle
  rw [Ranked, ← hp, ← hq]
  rcases hle.lt_or_eq with hlt | heq
  · exact .inl hlt
  · exact .inr ⟨heq.symm, metBefore_of_metFirst (hmet (decide_eq_true heq.ge)) hfield⟩

end Rule

/-! ### Suggestions are legal -/

namespace Schema.Indexed

variable {s : Schema} {parent : TypeDefinition} {name object : String}

theorem nodup_interfacesOf (h : s.Indexed) (name : String) : (s.interfacesOf name).Nodup := by
  rw [interfacesOf]
  cases htype : s.type? name with
  | none => exact .nil
  | some t => exact h.once t (List.mem_of_find?_eq_some htype)

/-- A possible type of a type is an object type that overlaps with it. -/
theorem exists_possible (h : s.Indexed) (hparent : parent ∈ s.types)
    (habstract : parent.isAbstract = true) (hobject : object ∈ s.possibleTypes parent.name) :
    ∃ u, s.type? object = some u ∧ u.kind = .object ∧ s.overlap u parent = true := by
  obtain ⟨u, hu, rfl, hkind⟩ := h.exists_object hobject
  have hcomposite : u.isComposite = true := by rw [TypeDefinition.isComposite, hkind]; rfl
  refine ⟨u, h.type?_eq_some_iff.mpr ⟨hu, rfl⟩, hkind, ?_⟩
  have hparentComposite := TypeDefinition.isComposite_of_isAbstract habstract
  exact (h.overlap_iff hu hparent hcomposite hparentComposite).mpr
    (.inr ⟨u, hu, hkind, .inl rfl, .inr hobject⟩)

/-- An interface that a possible type of a type declares overlaps with that type. -/
theorem exists_declared (h : s.Indexed) (hparent : parent ∈ s.types)
    (habstract : parent.isAbstract = true) (hobject : object ∈ s.possibleTypes parent.name)
    (hdeclared : name ∈ s.interfacesOf object) :
    ∃ i, s.type? name = some i ∧ i.kind = .interface ∧ s.overlap i parent = true := by
  obtain ⟨u, hu, hkind, -⟩ := h.exists_possible hparent habstract hobject
  rw [interfacesOf, hu] at hdeclared
  obtain ⟨hmem, rfl⟩ := h.type?_eq_some_iff.mp hu
  obtain ⟨i, hi, rfl, hinterface⟩ := h.interface u hmem name hdeclared
  have hcomposite : i.isComposite = true := by rw [TypeDefinition.isComposite, hinterface]; rfl
  have hpossible : u.name ∈ s.possibleTypes i.name :=
    (h.possible_iff i.name u.name).mpr (.inl ⟨u, hmem, hkind, rfl, hdeclared⟩)
  refine ⟨i, h.type?_eq_some_iff.mpr ⟨hi, rfl⟩, hinterface, ?_⟩
  have hparentComposite := TypeDefinition.isComposite_of_isAbstract habstract
  exact (h.overlap_iff hi hparent hcomposite hparentComposite).mpr
    (.inr ⟨u, hmem, hkind, .inr hpossible, .inr hobject⟩)

end Schema.Indexed

/-- For a field that an abstract type lacks, types are suggested that have the field and overlap
with the abstract type, none of them twice. They are the interfaces that a possible type with the
field implements, those that most of them implement first and of equal ones the one that is met
first, and after them the possible types with the field. -/
theorem suggestions_can_be_followed {s : Schema} (h : s.Built) {parent : TypeDefinition}
    (hparent : parent ∈ s.types) (habstract : parent.isAbstract = true) (field : String) :
    (∀ name ∈ Rule.suggestedTypes s parent field, ∃ t, s.type? name = some t ∧
      (t.field? field).isSome = true ∧ s.overlap t parent = true) ∧
    (Rule.suggestedTypes s parent field).Nodup ∧
    ∃ interfaces objects, Rule.suggestedTypes s parent field = interfaces ++ objects ∧
      (∀ name ∈ interfaces, ∃ t, s.type? name = some t ∧ t.kind = .interface) ∧
      (∀ name ∈ objects, ∃ t, s.type? name = some t ∧ t.kind = .object) ∧
      (∀ name, name ∈ interfaces ↔ (s.fieldOf? name field).isSome = true ∧
        Rule.implementers s parent field name ≠ []) ∧
      interfaces.Pairwise (Rule.Ranked s parent field) ∧
      ∀ name, name ∈ objects ↔ name ∈ s.possibleTypes parent.name ∧
        (s.fieldOf? name field).isSome = true := by
  have hindexed := h.indexed
  have hinterface {name : String} (hname : name ∈ Rule.rankedInterfaces s parent field) :
      ∃ i, s.type? name = some i ∧ i.kind = .interface ∧ s.overlap i parent = true := by
    obtain ⟨-, hused⟩ := Rule.mem_rankedInterfaces_iff.mp hname
    obtain ⟨object, hobject⟩ := List.exists_mem_of_ne_nil _ hused
    obtain ⟨hpossible, hobject⟩ := List.mem_filter.mp hobject
    rw [Bool.and_eq_true, List.contains_eq_mem, decide_eq_true_eq] at hobject
    exact hindexed.exists_declared hparent habstract hpossible hobject.2
  have hobject {name : String} (hname : name ∈ Rule.objectsWith s parent field) :
      ∃ u, s.type? name = some u ∧ u.kind = .object ∧ s.overlap u parent = true :=
    hindexed.exists_possible hparent habstract (List.mem_filter.mp hname).1
  have hfield {name : String} {t : TypeDefinition} (htype : s.type? name = some t)
      (hname : (s.fieldOf? name field).isSome = true) : (t.field? field).isSome = true := by
    rwa [Schema.fieldOf?, htype] at hname
  rw [Rule.suggestedTypes_eq habstract]
  refine ⟨?followed, ?once, _, _, rfl, ?_, ?_, fun _ => Rule.mem_rankedInterfaces_iff,
    Rule.pairwise_rankedInterfaces hindexed.nodup_interfacesOf, fun _ => List.mem_filter⟩
  case followed =>
    intro name hname
    rcases List.mem_append.mp hname with hname | hname
    · obtain ⟨i, htype, -, hoverlap⟩ := hinterface hname
      exact ⟨i, htype, hfield htype (Rule.mem_rankedInterfaces_iff.mp hname).1, hoverlap⟩
    · obtain ⟨u, htype, -, hoverlap⟩ := hobject hname
      exact ⟨u, htype, hfield htype (List.mem_filter.mp hname).2, hoverlap⟩
  case once =>
    refine List.nodup_append.mpr ⟨Rule.nodup_rankedInterfaces,
      (hindexed.possibleOnce parent.name).filter _, fun a ha b hb hab => ?_⟩
    obtain ⟨i, hi, hinterface, -⟩ := hinterface ha
    obtain ⟨u, hu, hobject, -⟩ := hobject hb
    obtain rfl := Option.some.inj (hi.symm.trans (hab ▸ hu))
    cases hinterface.symm.trans hobject
  · intro name hname
    obtain ⟨i, htype, hkind, -⟩ := hinterface hname
    exact ⟨i, htype, hkind⟩
  · intro name hname
    obtain ⟨u, htype, hkind, -⟩ := hobject hname
    exact ⟨u, htype, hkind⟩

/-- A union of which two members have a name, with three interfaces. -/
def kennelTypes : List Sdl.Definition :=
  [.type ⟨⟨1, 1⟩, "Loud", .interface [] [⟨⟨1, 18⟩, "name", [], .named "String" true, []⟩]⟩,
    .type ⟨⟨2, 1⟩, "Furry", .interface [] [⟨⟨2, 19⟩, "name", [], .named "String" true, []⟩]⟩,
    .type ⟨⟨3, 1⟩, "Tame", .interface [] [⟨⟨3, 18⟩, "name", [], .named "String" true, []⟩]⟩,
    .type ⟨⟨4, 1⟩, "Dog",
      .object ["Loud", "Furry"] [⟨⟨4, 36⟩, "name", [], .named "String" true, []⟩]⟩,
    .type ⟨⟨5, 1⟩, "Cat",
      .object ["Furry", "Tame"] [⟨⟨5, 36⟩, "name", [], .named "String" true, []⟩]⟩,
    .type ⟨⟨6, 1⟩, "Fish", .object [] [⟨⟨6, 13⟩, "size", [], .named "Int" true, []⟩]⟩,
    .type ⟨⟨7, 1⟩, "Animal", .union ["Dog", "Cat", "Fish"]⟩,
    .type ⟨⟨8, 1⟩, "Query", .object [] [⟨⟨8, 14⟩, "animal", [], .named "Animal" true, []⟩]⟩]

/-- The schema of these definitions. -/
def kennelSchema : Schema := (Schema.ofDefinitions "kennel" kennelTypes).toOption.getD default

/-- The union of the members. -/
def kennelUnion : TypeDefinition := (kennelSchema.type? "Animal").getD default

/-- Both animals with a name are furry, and of the other two interfaces one is met first. -/
theorem kennel_suggestions_can_be_followed :
    kennelSchema.Built ∧ kennelUnion ∈ kennelSchema.types ∧ kennelUnion.isAbstract = true ∧
      Rule.suggestedTypes kennelSchema kennelUnion "name" =
        ["Furry", "Loud", "Tame", "Dog", "Cat"] ∧
      (∀ name ∈ ["Furry", "Loud", "Tame", "Dog", "Cat"], ∃ t, kennelSchema.type? name = some t ∧
        (t.field? "name").isSome = true ∧ kennelSchema.overlap t kennelUnion = true) ∧
      ∃ interfaces objects, ["Furry", "Loud", "Tame", "Dog", "Cat"] = interfaces ++ objects ∧
        interfaces.Pairwise (Rule.Ranked kennelSchema kennelUnion "name") := by
  have hbuild : Schema.ofDefinitions "kennel" kennelTypes = .ok kennelSchema := rfl
  have hbuilt := Schema.built_of_ofDefinitions hbuild
  have hunion : kennelSchema.type? "Animal" = some kennelUnion := rfl
  have hmem : kennelUnion ∈ kennelSchema.types := List.mem_of_find?_eq_some hunion
  have hnames : Rule.suggestedTypes kennelSchema kennelUnion "name" =
      ["Furry", "Loud", "Tame", "Dog", "Cat"] := by
    have hcounts : Rule.countNames (Rule.encounters kennelSchema kennelUnion "name") =
        [("Loud", 1), ("Furry", 2), ("Tame", 1)] := by decide
    have hobjects : Rule.objectsWith kennelSchema kennelUnion "name" = ["Dog", "Cat"] := by decide
    rw [Rule.suggestedTypes_eq rfl, Rule.rankedInterfaces, hcounts, hobjects]
    simp [List.mergeSort, List.MergeSort.Internal.splitInTwo]
  obtain ⟨hfollowed, -, interfaces, objects, hsplit, -, -, -, hranked, -⟩ :=
    suggestions_can_be_followed hbuilt hmem rfl "name"
  rw [hnames] at hfollowed hsplit
  exact ⟨hbuilt, hmem, rfl, hnames, hfollowed, interfaces, objects, hsplit, hranked⟩

end GraphQLCheck
