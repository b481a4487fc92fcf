import GraphQLCheck.Proofs.FieldMerging

/-!
# Pairs of fragments compared before

What the compared pairs cover only grows, although to remember a pair is to overwrite what was
remembered of it, in both orders. The search never remembers a comparison that is covered already,
and that is what keeps a pair from being remembered under an assumption after it was remembered
without one.

## What is proved

* `Guarded.contains_iff` — after operations that are `Guarded` in this way, what was covered before
  is covered, and what the operations remember.
* `leadsTo_forEach_look` — whatever the search does along a walk is guarded.
* `coverage_only_grows` — both, for the operations that start with no pairs.
-/

namespace GraphQLCheck.Overlap

namespace PairSet

/-- Something that is done with the compared pairs. -/
inductive Operation where
  /-- It is asked whether a comparison is covered. -/
  | contains (a b : String) (exclusive : Bool)
  /-- A comparison is remembered. -/
  | insert (a b : String) (exclusive : Bool)
  deriving DecidableEq, Repr

/-- Operations lead from some pairs to others, and a comparison is remembered only where it is not
covered. -/
inductive Guarded : PairSet → List Operation → PairSet → Prop where
  /-- Nothing is done. -/
  | nil {s : PairSet} : Guarded s [] s
  /-- To ask changes nothing. -/
  | contains {s t : PairSet} {rest : List Operation} {a b : String} {exclusive : Bool} :
      Guarded s rest t → Guarded s (.contains a b exclusive :: rest) t
  /-- A comparison that is not covered is remembered. -/
  | insert {s t : PairSet} {rest : List Operation} {a b : String} {exclusive : Bool} :
      s.contains a b exclusive = false → Guarded (s.insert a b exclusive) rest t →
      Guarded s (.insert a b exclusive :: rest) t

/-- The operations remember a comparison of two fragments, in one of the two orders, under the same
assumption or without one. -/
def Remembered (operations : List Operation) (a b : String) (exclusive : Bool) : Prop :=
  ∃ other, (.insert a b other ∈ operations ∨ .insert b a other ∈ operations) ∧
    (other = exclusive ∨ other = false)

/-- A pair is covered in both orders or in none. -/
def Symmetric (s : PairSet) : Prop :=
  ∀ a b exclusive, s.contains a b exclusive = s.contains b a exclusive

section Guarded

variable {s t u : PairSet} {operations more : List Operation} {a b x y : String}
  {exclusive other : Bool}

/-! ### One operation -/

theorem symmetric_empty : Symmetric .empty := fun _ _ _ => rfl

theorem contains_true (h : s.contains a b false = true) : s.contains a b true = true := by
  unfold contains at h ⊢
  split at h
  · exact h
  · rfl

theorem Symmetric.insert (hs : s.Symmetric) : (s.insert a b exclusive).Symmetric := by
  intro x y other
  rw [contains_insert, contains_insert, hs x y other]
  refine if_congr ?_ rfl rfl
  tauto

/-- Remembering a comparison that is not covered adds to what is covered and takes nothing away. -/
theorem Symmetric.contains_insert_iff (hs : s.Symmetric) (hnew : s.contains a b exclusive = false) :
    (s.insert a b exclusive).contains x y other = true ↔
      s.contains x y other = true ∨
        (x = a ∧ y = b ∨ x = b ∧ y = a) ∧ (exclusive = other ∨ exclusive = false) := by
  rw [contains_insert]
  by_cases hpair : x = a ∧ y = b ∨ x = b ∧ y = a
  · have hsame : s.contains x y exclusive = false := by
      rcases hpair with ⟨rfl, rfl⟩ | ⟨rfl, rfl⟩
      · exact hnew
      · rw [hs, hnew]
    rw [if_pos hpair]
    cases exclusive with
    | false => simp [hpair]
    | true =>
      cases other with
      | true => simp [hpair]
      | false =>
        -- The pair is not even covered under the assumption, so nothing can be overwritten.
        have hnone : s.contains x y false ≠ true := by
          intro hcovered
          rw [contains_true hcovered] at hsame
          cases hsame
        simp [hnone]
  · simp [hpair]

-- To remember a comparison that is covered already can take something away.
example :
    let s := PairSet.empty.insert "F" "G" false
    s.contains "G" "F" false = true ∧ (s.insert "F" "G" true).contains "G" "F" false = false := by
  decide

/-! ### Operations one after another -/

theorem Guarded.trans (h : Guarded s operations t) (h' : Guarded t more u) :
    Guarded s (operations ++ more) u := by
  induction h with
  | nil => exact h'
  | contains _ ih => exact .contains (ih h')
  | insert hnew _ ih => exact .insert hnew (ih h')

theorem Guarded.symmetric (h : Guarded s operations t) (hs : s.Symmetric) : t.Symmetric := by
  induction h with
  | nil => exact hs
  | contains _ ih => exact ih hs
  | insert _ _ ih => exact ih hs.insert

/-- What is covered in the end was covered at the start or is remembered on the way. -/
theorem Guarded.contains_iff (h : Guarded s operations t) (hs : s.Symmetric) :
    t.contains x y other = true ↔
      s.contains x y other = true ∨ Remembered operations x y other := by
  induction h with
  | nil => simp [Remembered]
  | contains _ ih => simp [ih hs, Remembered]
  | @insert s t rest a b exclusive hnew _ ih =>
    rw [ih hs.insert, hs.contains_insert_iff hnew, or_assoc]
    refine or_congr_right ?_
    constructor
    · rintro (⟨⟨rfl, rfl⟩ | ⟨rfl, rfl⟩, hexclusive⟩ | ⟨e, hmem, he⟩)
      · exact ⟨exclusive, .inl List.mem_cons_self, hexclusive⟩
      · exact ⟨exclusive, .inr List.mem_cons_self, hexclusive⟩
      · exact ⟨e, hmem.imp (List.mem_cons_of_mem _) (List.mem_cons_of_mem _), he⟩
    · rintro ⟨e, hmem, he⟩
      simp only [List.mem_cons, Operation.insert.injEq] at hmem
      rcases hmem with (⟨rfl, rfl, rfl⟩ | hmem) | ⟨rfl, rfl, rfl⟩ | hmem
      · exact .inl ⟨.inl ⟨rfl, rfl⟩, he⟩
      · exact .inr ⟨e, .inl hmem, he⟩
      · exact .inl ⟨.inr ⟨rfl, rfl⟩, he⟩
      · exact .inr ⟨e, .inr hmem, he⟩

end Guarded

end PairSet

open PairSet

/-! ### The search -/

namespace Memory

variable {m m' m'' : Memory}

/-- The pairs that one memory holds lead to those of another by guarded operations. -/
def LeadsTo (m m' : Memory) : Prop := ∃ operations, Guarded m.compared operations m'.compared

theorem LeadsTo.of_eq (h : m'.compared = m.compared) : m.LeadsTo m' := ⟨[], h ▸ .nil⟩

theorem LeadsTo.refl (m : Memory) : m.LeadsTo m := .of_eq rfl

theorem LeadsTo.trans (h : m.LeadsTo m') (h' : m'.LeadsTo m'') : m.LeadsTo m'' := by
  obtain ⟨operations, h⟩ := h
  obtain ⟨more, h'⟩ := h'
  exact ⟨operations ++ more, h.trans h'⟩

/-- It is asked whether a comparison is covered, and it is remembered if it is not. -/
theorem LeadsTo.insert {a b : String} {exclusive : Bool}
    (hnew : ¬ m.compared.contains a b exclusive = true) :
    m.LeadsTo { m with compared := m.compared.insert a b exclusive } :=
  ⟨[.contains a b exclusive, .insert a b exclusive],
    .contains (.insert (Bool.eq_false_iff.mpr hnew) .nil)⟩

theorem leadsTo_entry (schema : Schema) (parent? : Option TypeDefinition) (address : Address)
    (items : List Selection) (m : Memory) :
    m.LeadsTo (m.entry schema parent? address items).2 := by
  refine .of_eq ?_
  unfold entry
  split <;> rfl

end Memory

/-- What is done for each element of a list is guarded if it is for one element. The memory may be a
part of what is passed on. -/
theorem leadsTo_forEach {α β σ : Type} (memory : σ → Memory) {find : α → σ → List β × σ}
    (h : ∀ a s, (memory s).LeadsTo (memory (find a s).2)) (list : List α) (s : σ) :
    (memory s).LeadsTo (memory (forEach find list s).2) := by
  induction list generalizing s with
  | nil => exact .refl _
  | cons a list ih => exact (h a s).trans (ih _)

/-- A comparison of two fields that is guarded. -/
def Comparison.Guarded (compare : Comparison) : Prop :=
  ∀ exclusive c (m : Memory), m.LeadsTo (compare exclusive c m).2

section Search

variable (schema : Schema) (d : Document) {compare : Comparison}

theorem leadsTo_withFragment (hcompare : compare.Guarded) (exclusive : Bool) (e : Entry)
    (depth : ℕ) (name : String) (s : List String × Memory) :
    s.2.LeadsTo (withFragment schema d compare exclusive e depth name s).2.2 := by
  induction depth generalizing name s with
  | zero => exact .refl _
  | succ depth ih =>
    obtain ⟨names, m⟩ := s
    rw [withFragment]
    by_cases hmet : name ∈ names
    · rw [if_pos hmet]
      exact .refl m
    rw [if_neg hmet]
    cases d.placedFragment? name with
    | none => exact .refl m
    | some placed =>
      obtain ⟨address, f⟩ := placed
      dsimp only
      have hentry : m.LeadsTo (fragmentEntry schema address f m).2 := Memory.leadsTo_entry ..
      generalize fragmentEntry schema address f m = other at hentry ⊢
      by_cases hsame : other.1.address = e.address
      · rw [if_pos hsame]
        exact hentry
      · rw [if_neg hsame]
        have hfields := leadsTo_forEach id (hcompare exclusive)
          (Candidate.between e.fields other.1.fields) other.2
        exact (hentry.trans hfields).trans (leadsTo_forEach Prod.snd ih other.1.fragments (_, _))

/-- A comparison of two fragments is remembered only if it is not covered. -/
theorem leadsTo_betweenFragments (hcompare : compare.Guarded) (exclusive : Bool) (depth : ℕ)
    (names : String × String) (m : Memory) :
    m.LeadsTo (betweenFragments schema d compare exclusive depth names m).2 := by
  induction depth generalizing names m with
  | zero => exact .refl _
  | succ depth ih =>
    obtain ⟨a, b⟩ := names
    rw [betweenFragments]
    by_cases hsame : a = b
    · rw [if_pos hsame]
      exact .refl m
    rw [if_neg hsame]
    by_cases hcovered : m.compared.contains a b exclusive = true
    · rw [if_pos hcovered]
      exact .refl m
    rw [if_neg hcovered]
    refine (Memory.LeadsTo.insert hcovered).trans ?_
    dsimp only
    split
    · -- From the last step back, so that each step says what memory it starts with.
      refine .trans ?_ (leadsTo_forEach id ih _ _)
      refine .trans ?_ (leadsTo_forEach id ih _ _)
      refine .trans ?_ (leadsTo_forEach id (hcompare exclusive) _ _)
      exact (Memory.leadsTo_entry schema _ _ _ _).trans (Memory.leadsTo_entry schema _ _ _ _)
    · exact .refl _

theorem leadsTo_withFragments (hcompare : compare.Guarded) (exclusive : Bool) (e : Entry)
    (fragments : List String) (m : Memory) :
    m.LeadsTo (withFragments schema d compare exclusive e fragments m).2 :=
  leadsTo_forEach Prod.snd (leadsTo_withFragment schema d hcompare exclusive e _) fragments ([], m)

theorem leadsTo_betweenSets (hcompare : compare.Guarded) (exclusive : Bool) (a b : Occurrence)
    (m : Memory) : m.LeadsTo (betweenSets schema d compare exclusive a b m).2 := by
  refine .trans ?_ (leadsTo_forEach id (leadsTo_betweenFragments schema d hcompare exclusive _) _ _)
  refine .trans ?_ (leadsTo_withFragments schema d hcompare exclusive _ _ _)
  refine .trans ?_ (leadsTo_withFragments schema d hcompare exclusive _ _ _)
  refine .trans ?_ (leadsTo_forEach id (hcompare exclusive) _ _)
  exact (Memory.leadsTo_entry schema _ _ _ _).trans (Memory.leadsTo_entry schema _ _ _ _)

theorem leadsTo_fragmentsWithin (hcompare : compare.Guarded) (e : Entry) (fragments : List String)
    (s : List String × Memory) :
    s.2.LeadsTo (fragmentsWithin schema d compare e fragments s).2.2 := by
  induction fragments generalizing s with
  | nil => exact .refl _
  | cons name rest ih =>
    have hfirst := leadsTo_withFragment schema d hcompare false e (fragmentDepth d) name s
    have hpairs := leadsTo_forEach id
      (leadsTo_betweenFragments schema d hcompare false (pairDepth d)) (rest.map (name, ·))
      (withFragment schema d compare false e (fragmentDepth d) name s).2.2
    exact (hfirst.trans hpairs).trans (ih (_, _))

theorem leadsTo_withinSet (hcompare : compare.Guarded) (parent? : Option TypeDefinition)
    (address : Address) (items : List Selection) (m : Memory) :
    m.LeadsTo (withinSet schema d compare parent? address items m).2 := by
  refine .trans ?_ (leadsTo_fragmentsWithin schema d hcompare _ _ ([], _))
  refine .trans ?_ (leadsTo_forEach id (hcompare false) _ _)
  exact Memory.leadsTo_entry schema parent? address items m

/-- Fields are compared in a guarded way, to any depth. -/
theorem guarded_compareFields (depth : ℕ) : (compareFields schema d depth).Guarded := by
  induction depth with
  | zero => exact fun _ _ m => .refl m
  | succ depth ih =>
    intro exclusive c m
    rw [compareFields]
    dsimp only
    split
    · exact .refl m
    split
    · exact .refl m
    · have hsets := leadsTo_betweenSets schema d ih
        (exclusive || fromDifferentObjects c.first c.second) c.first c.second m
      split <;> exact hsets

/-- The search along a walk is guarded. -/
theorem leadsTo_forEach_look (visits : List Visit) (m : Memory) :
    m.LeadsTo (forEach (look schema d) visits m).2 := by
  refine leadsTo_forEach id (fun v m => ?_) visits m
  unfold look
  split
  · exact leadsTo_withinSet schema d (guarded_compareFields schema d _) _ _ _ m
  · exact .refl m

end Search

end GraphQLCheck.Overlap

namespace GraphQLCheck

open Overlap PairSet

/-- Start with no pairs, and never remember a comparison that is covered. Then at every point a
comparison is covered in both orders or in none, and under the assumption if it is without one. It
is covered exactly if it was remembered, in one of the two orders and under the same assumption or
without one, and once it is covered it stays covered. The search works in this way: that is how the
pairs come about that it holds at each point of a walk. -/
theorem coverage_only_grows :
    (∀ (before later : List PairSet.Operation) (s t : PairSet), Guarded .empty before s →
      Guarded s later t → ∀ a b exclusive,
        s.contains a b exclusive = s.contains b a exclusive ∧
        (s.contains a b false = true → s.contains a b true = true) ∧
        (s.contains a b exclusive = true ↔ Remembered before a b exclusive) ∧
        (s.contains a b exclusive = true → t.contains a b exclusive = true)) ∧
    ∀ (schema : Schema) (d : Document) (visits : List Visit), ∃ operations,
      Guarded .empty operations (forEach (look schema d) visits .empty).2.compared := by
  refine ⟨fun before later s t h hlater a b exclusive => ?_, fun schema d visits => ?_⟩
  · have hs := h.symmetric symmetric_empty
    refine ⟨hs a b exclusive, contains_true, ?_, fun hcovered => ?_⟩
    · rw [h.contains_iff symmetric_empty]
      exact or_iff_right Bool.false_ne_true
    · exact (hlater.contains_iff hs).mpr (.inl hcovered)
  · exact leadsTo_forEach_look schema d visits .empty

/-- Two fragments are compared under the assumption and then, in the other order, without one. In
between a fragment is compared with itself. -/
theorem coverage_grows_without_assumption :
    let s := PairSet.empty.insert "F" "G" true
    let t := (s.insert "H" "H" true).insert "G" "F" false
    Guarded .empty [.contains "F" "G" true, .insert "F" "G" true] s ∧
      Guarded s [.insert "H" "H" true, .contains "G" "F" false, .insert "G" "F" false] t ∧
      s.contains "G" "F" true = true ∧ s.contains "G" "F" false = false ∧
      t.contains "G" "F" true = true ∧ t.contains "F" "G" false = true := by
  intro s t
  have hs : Guarded .empty [.contains "F" "G" true, .insert "F" "G" true] s :=
    .contains (.insert rfl .nil)
  have ht : Guarded s [.insert "H" "H" true, .contains "G" "F" false, .insert "G" "F" false] t :=
    .insert rfl (.contains (.insert rfl .nil))
  obtain ⟨-, -, hiff, hstays⟩ := coverage_only_grows.1 _ _ s t hs ht "G" "F" true
  have hcovered : s.contains "G" "F" true = true := hiff.mpr ⟨true, .inr (by simp), .inl rfl⟩
  exact ⟨hs, ht, hcovered, rfl, hstays hcovered, rfl⟩

end GraphQLCheck
