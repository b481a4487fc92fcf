import GraphQLCheck.Proofs.Overlap.Comparisons

/-!
# Comparing fields to any depth

The comparison of two fields has the outcome that `Decides` asks for, by induction on the depth
(`decides_compareFields`), and so has the search of a whole set (`withinSet_outcome`).
-/

namespace GraphQLCheck.Overlap

variable {schema : Schema} {d : Document} {rank : String → ℕ} {compare : Comparison} {depth : ℕ}
  {exclusive : Bool} {m : Memory}

/-! ### Two sets -/

/-- Forget which fragments were met. -/
theorem Outcome.forget {level : ℕ} (bound : ℕ) (trouble : String → Prop) {weak strong : Prop}
    {found : List Conflict} {s : List String × Memory}
    (h : Outcome (namesRegime schema d rank level bound trouble) weak strong ([], m) (found, s)) :
    Outcome (memoryRegime schema d rank level) weak strong m (found, s.2) := by
  have hstart (hinv : (memoryRegime schema d rank level).inv m) :
      (namesRegime schema d rank level bound trouble).inv ([], m) :=
    ⟨hinv, fun n hn => absurd hn List.not_mem_nil⟩
  exact ⟨h.ok, h.same.1, h.sound, fun hnil hinv => (h.keeps hnil (hstart hinv)).1,
    fun hnil hinv => h.complete hnil (hstart hinv)⟩

section Sets

variable {k l : ℕ} {parent? : Option TypeDefinition} {address : Address} {items : List Selection}
  {e : Entry} {a b : Occurrence}

/-- Comparing the fields of a set with those that fragments select. -/
theorem withFragments_outcome (exclusive : Bool) (hrank : Ranking d rank)
    (hcompare : Decides schema d rank depth compare)
    (he : Describes schema parent? address items e)
    (hready : ∀ x ∈ fieldsOf schema parent? address items, Ready schema d rank depth k x)
    (hapart : Apart schema d rank l parent? address items) {names : List String}
    (hnames : ∀ n ∈ names, rank n < l)
    (hfits : ∀ n ∈ names, ∀ y, FragmentSelects schema d n y → Fits d rank depth y.items)
    (hm : Faithful schema d m) :
    Outcome (memoryRegime schema d rank (k + l))
      (∃ n ∈ names, Meet (Weakly schema d exclusive) (FieldOf schema parent? address items)
        (FragmentSelects schema d n))
      (∃ n ∈ names, TroubleWith schema d rank (max k l) exclusive
        (FieldOf schema parent? address items) n)
      m (withFragments schema d compare exclusive e names m) := by
  refine Outcome.forget l (TroubleWith schema d rank (max k l) exclusive
    (FieldOf schema parent? address items)) (Outcome.forEach _ _ _ hm fun n hn s hs => ?_)
  have hfuel : rank n ≤ fragmentDepth d := (hrank.bounded n).trans (Nat.le_succ _)
  exact withFragment_outcome exclusive hrank hcompare he hready hapart s.1 (hnames n hn) le_rfl
    hfuel (hfits n hn) hs

/-- The depth that is given to the comparison of fragments is enough for all pairs. -/
theorem sum_le_pairDepth (hrank : Ranking d rank) (x y : String) :
    rank x + rank y ≤ pairDepth d := by
  have hx := hrank.bounded x
  have hy := hrank.bounded y
  have hsquare (n : ℕ) : n + n ≤ n * n + 1 := by
    by_cases hn : n ≤ 1
    · obtain rfl | rfl : n = 0 ∨ n = 1 := by omega
      · decide
      · decide
    · have := Nat.mul_le_mul_right n (Nat.lt_of_not_le hn)
      omega
  exact (Nat.add_le_add hx hy).trans (hsquare _)

/-- Comparing all fragments of one list with all of another. -/
theorem allFragments_outcome (exclusive : Bool) (hrank : Ranking d rank)
    (hcompare : Decides schema d rank depth compare) {names others : List String}
    (hnames : ∀ n ∈ names, rank n < k) (hothers : ∀ n ∈ others, rank n < l)
    (hfits : ∀ n ∈ names, ∀ x, FragmentSelects schema d n x → Fits d rank depth x.items)
    (hfits' : ∀ n ∈ others, ∀ y, FragmentSelects schema d n y → Fits d rank depth y.items)
    (hm : Faithful schema d m) :
    Outcome (memoryRegime schema d rank (k + l))
      (∃ n ∈ names, ∃ n' ∈ others, Meet (Weakly schema d exclusive)
        (FragmentSelects schema d n) (FragmentSelects schema d n'))
      (∃ n ∈ names, ∃ n' ∈ others, Trouble schema d rank exclusive n n') m
      (forEach (betweenFragments schema d compare exclusive (pairDepth d))
        (names.flatMap fun x => others.map (x, ·)) m) := by
  have hmem {p : String × String} :
      p ∈ (names.flatMap fun x => others.map (x, ·)) ↔ p.1 ∈ names ∧ p.2 ∈ others := by
    obtain ⟨x, y⟩ := p
    simp [List.mem_flatMap]
  refine (Outcome.forEach
    (fun p : String × String => Meet (Weakly schema d exclusive) (FragmentSelects schema d p.1)
      (FragmentSelects schema d p.2))
    (fun p => Trouble schema d rank exclusive p.1 p.2) _ hm ?_).imp ?_ ?_
  · rintro ⟨x, y⟩ hp m hm
    obtain ⟨hx, hy⟩ := hmem.mp hp
    have hlevel : rank x + rank y + 1 ≤ k + l := by
      have := hnames x hx
      have := hothers y hy
      omega
    exact (betweenFragments_outcome hrank hcompare (sum_le_pairDepth hrank x y) (hfits x hx)
      (hfits' y hy) hm).mono hlevel
  · rintro ⟨p, hp, hmeet⟩
    exact ⟨p.1, (hmem.mp hp).1, p.2, (hmem.mp hp).2, hmeet⟩
  · rintro ⟨x, hx, y, hy, htrouble⟩
    exact ⟨(x, y), hmem.mpr ⟨hx, hy⟩, htrouble⟩

/-- Comparing the own sets of two fields. -/
theorem betweenSets_outcome (exclusive : Bool) (hrank : Ranking d rank)
    (hcompare : Decides schema d rank depth compare)
    (ha : Ready schema d rank (depth + 1) k a) (hb : Ready schema d rank (depth + 1) l b)
    (hne : a.address ≠ b.address) (hm : Faithful schema d m) :
    Outcome (memoryRegime schema d rank (k + l))
      (Meet (Weakly schema d exclusive) (Selects schema d (a.type? schema) a.address a.items)
        (Selects schema d (b.type? schema) b.address b.items))
      (Trusted schema d rank (max k l) ∧
        Meet (Strongly schema d exclusive) (Selects schema d (a.type? schema) a.address a.items)
          (Selects schema d (b.type? schema) b.address b.items))
      m (betweenSets schema d compare exclusive a b m) := by
  obtain ⟨he, hfaithful, hcompared⟩ := entry_spec hm ha.placed.own (.of_set ha.placed.own)
  obtain ⟨he', hfaithful', hcompared'⟩ :=
    entry_spec hfaithful hb.placed.own (.of_set hb.placed.own)
  have hselects := he.selects_iff (d := d)
  have hselects' := he'.selects_iff (d := d)
  have hready (x : Occurrence) (hx : Selects schema d (a.type? schema) a.address a.items x) :
      Ready schema d rank depth k x := ready_of_selects hrank ha.placed.own ha.below ha.fits hx
  have hready' (y : Occurrence) (hy : Selects schema d (b.type? schema) b.address b.items y) :
      Ready schema d rank depth l y := ready_of_selects hrank hb.placed.own hb.below hb.fits hy
  have hfits (n : String) (hn : n ∈ (m.entry schema (a.type? schema) a.address a.items).1.fragments)
      (x : Occurrence) (hx : FragmentSelects schema d n x) : Fits d rank depth x.items :=
    (hready x ((hselects x).mpr (.inr ⟨n, hn, hx⟩))).fits
  have hfields := between_outcome exclusive hcompare he he' (fun x hx => hready x (.field hx))
    (fun y hy => hready' y (.field hy))
    (fun x hx y hy heq => hne (eq_of_common_field ha.placed.own ha.placed.whole hb.placed.own
      hb.placed.whole hx hy heq)) hfaithful'
  have hright := withFragments_outcome exclusive hrank hcompare he
    (fun x hx => hready x (.field hx)) (ha.placed.apart rank l)
    (fun n hn => hb.below.mentioned ((he'.fragments n).mp hn))
    (fun n hn y hy => (hready' y ((hselects' y).mpr (.inr ⟨n, hn, hy⟩))).fits) hfields.ok
  have hleft := withFragments_outcome exclusive hrank hcompare he'
    (fun y hy => hready' y (.field hy)) (hb.placed.apart rank k)
    (fun n hn => ha.below.mentioned ((he.fragments n).mp hn)) hfits hright.ok
  rw [Nat.add_comm l k, max_comm l k] at hleft
  have hboth := allFragments_outcome exclusive hrank hcompare
    (fun n hn => ha.below.mentioned ((he.fragments n).mp hn))
    (fun n hn => hb.below.mentioned ((he'.fragments n).mp hn)) hfits
    (fun n hn y hy => (hready' y ((hselects' y).mpr (.inr ⟨n, hn, hy⟩))).fits) hleft.ok
  refine ((((hfields.append hright).append hleft).append hboth).of_compared_eq
    (hcompared'.trans hcompared)).imp ?_ ?_
  · rw [meet_right_iff hselects', meet_left_iff hselects]
    rintro (((hmeet | ⟨n, hn, hmeet⟩) | ⟨n, hn, hmeet⟩) | ⟨n, hn, n', hn', hmeet⟩)
    · exact .inl (.inl hmeet)
    · exact .inr ⟨n, hn, hmeet.imp id .field id⟩
    · have hsymm := hmeet.symm (Conflicts.symm differEitherWay_symm)
      exact .inl (.inr ⟨n, hn, hsymm⟩)
    · exact .inr ⟨n', hn', hmeet.imp id (fun hx => (hselects _).mpr (.inr ⟨n, hn, hx⟩)) id⟩
  · rintro ⟨htrusted, hmeet⟩
    rcases (meet_right_iff hselects').mp hmeet with hmeet | ⟨n', hn', hmeet⟩ <;>
      rcases (meet_left_iff hselects).mp hmeet with hmeet | ⟨n, hn, hmeet⟩
    · exact .inl (.inl (.inl ⟨htrusted, hmeet⟩))
    · have hsymm := hmeet.symm (Conflicts.symm differBothWays_symm)
      exact .inl (.inr ⟨n, hn, htrusted, hsymm⟩)
    · exact .inl (.inl (.inr ⟨n', hn', htrusted, hmeet⟩))
    · have hlower := ha.below.mentioned ((he.fragments n).mp hn)
      have hlower' := hb.below.mentioned ((he'.fragments n').mp hn')
      exact .inr ⟨n, hn, n', hn', htrusted.mono (by omega), hmeet⟩

end Sets

/-! ### Two fields -/

section Fields

variable {a b : Occurrence}

/-- A reason for which two fields conflict for themselves is one. -/
theorem conflicts_of_ownReason? {reason : Reason}
    (h : ownReason? schema (exclusive || fromDifferentObjects a b) a b = some reason) :
    Weakly schema d exclusive a b := by
  unfold ownReason? at h
  split at h
  · rename_i hnames
    simp only [Bool.and_eq_true, Bool.not_eq_true', decide_eq_true_eq] at hnames
    exact .names hnames.1 hnames.2
  split at h
  · rename_i harguments
    simp only [Bool.and_eq_true, Bool.not_eq_true'] at harguments
    exact .arguments harguments.1 (.inl harguments.2)
  split at h
  · rename_i f g hf hg
    split at h
    · rename_i htypes
      exact .types hf hg htypes
    · cases h
  · cases h

/-- Without such a reason, fields that two fields select have to conflict. -/
theorem exists_parts (h : ownReason? schema (exclusive || fromDifferentObjects a b) a b = none)
    (hstrong : Strongly schema d exclusive a b) :
    Meet (Strongly schema d (exclusive || fromDifferentObjects a b))
      (Selects schema d (a.type? schema) a.address a.items)
      (Selects schema d (b.type? schema) b.address b.items) := by
  cases hstrong with
  | names hexclusive hname => simp [ownReason?, hexclusive, hname] at h
  | arguments hexclusive harguments =>
    have hdiffer : sameArguments a.node.arguments b.node.arguments = false := harguments.1
    by_cases hname : a.node.name = b.node.name
    · simp [ownReason?, hexclusive, hname, hdiffer] at h
    · simp [ownReason?, hexclusive, hname] at h
  | types hf hg htypes =>
    unfold ownReason? at h
    split at h
    · cases h
    split at h
    · cases h
    simp [hf, hg, htypes] at h
  | parts hx hy hne hname hxy => exact ⟨_, _, hx, hy, hne, hname, hxy⟩

theorem not_selects_nil {parent? : Option TypeDefinition} {address : Address} {o : Occurrence} :
    ¬ Selects schema d parent? address [] o := by
  rw [selects_iff]
  simp [fieldsOf, fieldsFrom, namesOf]

/-- The comparison of fields tells whether they conflict, if its depth is enough. -/
theorem decides_compareFields (hrank : Ranking d rank) (depth : ℕ) :
    Decides schema d rank depth (compareFields schema d depth) := by
  induction depth with
  | zero =>
    intro exclusive c m k l _ hfirst
    obtain ⟨bound, -, hdepth⟩ := hfirst.fits
    omega
  | succ depth ih =>
    rintro exclusive ⟨name, a, b⟩ m k l hm ha hb hne
    rw [compareFields]
    dsimp only
    cases hreason : ownReason? schema (exclusive || fromDifferentObjects a b) a b with
    | some reason =>
      exact ⟨hm, (memoryRegime schema d rank (k + l)).refl m,
        fun _ => conflicts_of_ownReason? hreason, fun h => absurd h (List.cons_ne_nil _ _),
        fun h => absurd h (List.cons_ne_nil _ _)⟩
    | none =>
      dsimp only
      by_cases hempty : (a.items.isEmpty || b.items.isEmpty) = true
      · rw [if_pos hempty]
        refine .nothing hm fun _ hstrong => ?_
        obtain ⟨x, y, hx, hy, -⟩ := exists_parts hreason hstrong.2
        rcases Bool.or_eq_true_iff.mp hempty with hitems | hitems
        · rw [List.isEmpty_iff.mp hitems] at hx
          exact not_selects_nil hx
        · rw [List.isEmpty_iff.mp hitems] at hy
          exact not_selects_nil hy
      · rw [if_neg hempty]
        have hparts : Outcome (memoryRegime schema d rank (k + l)) (Weakly schema d exclusive a b)
            (Trusted schema d rank (max k l) ∧ Strongly schema d exclusive a b) m
            (betweenSets schema d (compareFields schema d depth)
              (exclusive || fromDifferentObjects a b) a b m) := by
          refine (betweenSets_outcome _ hrank ih ha hb hne hm).imp ?_ ?_
          · rintro ⟨x, y, hx, hy, hne, hname, hxy⟩
            exact .parts hx hy hne hname hxy
          · rintro ⟨htrusted, hstrong⟩
            exact ⟨htrusted, exists_parts hreason hstrong⟩
        generalize betweenSets schema d (compareFields schema d depth)
          (exclusive || fromDifferentObjects a b) a b m = result at hparts ⊢
        obtain ⟨parts, m'⟩ := result
        by_cases hnil : parts = []
        · subst hnil
          exact hparts
        · rw [if_neg (by simpa using hnil)]
          exact hparts.of_nil_iff (by simp [hnil])

end Fields

/-! ### One set -/

/-- A search that does not look at the fragments that were met. -/
theorem Outcome.lift {level bound : ℕ} {trouble : String → Prop} {weak strong : Prop}
    {found : List Conflict} {m' : Memory} (names : List String)
    (h : Outcome (memoryRegime schema d rank level) weak strong m (found, m')) :
    Outcome (namesRegime schema d rank level bound trouble) weak strong (names, m)
      (found, names, m') :=
  ⟨h.ok, ⟨h.same, fun _ _ => Iff.rfl⟩, h.sound,
    fun hnil hinv => ⟨h.keeps hnil hinv.1, hinv.2⟩, fun hnil hinv => h.complete hnil hinv.1⟩

/-- Of two different elements of a list one comes first. -/
theorem pair_sublist {α : Type} {list : List α} {x y : α} (hx : x ∈ list) (hy : y ∈ list)
    (hne : x ≠ y) : [x, y].Sublist list ∨ [y, x].Sublist list := by
  induction list with
  | nil => cases hx
  | cons first rest ih =>
    rcases List.mem_cons.mp hx with rfl | hx' <;> rcases List.mem_cons.mp hy with rfl | hy'
    · exact absurd rfl hne
    · exact .inl (List.cons_sublist_cons.mpr (List.singleton_sublist.mpr hy'))
    · exact .inr (List.cons_sublist_cons.mpr (List.singleton_sublist.mpr hx'))
    · exact (ih hx' hy').imp (·.cons first) (·.cons first)

section Set

variable {k : ℕ} {parent? other? : Option TypeDefinition} {address : Address}
  {items : List Selection} {e : Entry}

/-- Comparing the fragments that a set refers to with its fields and with one another. -/
theorem fragmentsWithin_outcome (hrank : Ranking d rank)
    (hcompare : Decides schema d rank depth compare)
    (he : Describes schema parent? address items e)
    (hready : ∀ x ∈ fieldsOf schema parent? address items, Ready schema d rank depth k x)
    (hapart : Apart schema d rank k parent? address items) (names : List String)
    (hnames : ∀ n ∈ names, rank n < k)
    (hfits : ∀ n ∈ names, ∀ y, FragmentSelects schema d n y → Fits d rank depth y.items)
    (met : List String) (hm : Faithful schema d m) :
    Outcome
      (namesRegime schema d rank (k + k) k
        (TroubleWith schema d rank (max k k) false (FieldOf schema parent? address items)))
      ((∃ n ∈ names, Meet (Weakly schema d false) (FieldOf schema parent? address items)
          (FragmentSelects schema d n)) ∨
        ∃ n n', [n, n'].Sublist names ∧
          Meet (Weakly schema d false) (FragmentSelects schema d n) (FragmentSelects schema d n'))
      ((∃ n ∈ names, TroubleWith schema d rank (max k k) false
          (FieldOf schema parent? address items) n) ∨
        ∃ n n', [n, n'].Sublist names ∧ Trouble schema d rank false n n')
      (met, m) (fragmentsWithin schema d compare e names (met, m)) := by
  induction names generalizing met m with
  | nil =>
    refine .nothing hm fun _ => ?_
    rintro (⟨n, hn, -⟩ | ⟨n, n', hsub, -⟩)
    · cases hn
    · cases hsub
  | cons name rest ih =>
    have hname := hnames name List.mem_cons_self
    have hrest (n : String) (hn : n ∈ rest) := hnames n (List.mem_cons_of_mem name hn)
    have hfitsRest (n : String) (hn : n ∈ rest) := hfits n (List.mem_cons_of_mem name hn)
    have hfuel : rank name ≤ fragmentDepth d := (hrank.bounded name).trans (Nat.le_succ _)
    have hfields := withFragment_outcome false hrank hcompare he hready hapart met hname le_rfl
      hfuel (hfits name List.mem_cons_self) hm
    rw [fragmentsWithin]
    generalize withFragment schema d compare false e (fragmentDepth d) name (met, m) = result
      at hfields ⊢
    obtain ⟨found, met', m'⟩ := result
    have hself : ∀ n ∈ [name], rank n < k ∧
        ∀ y, FragmentSelects schema d n y → Fits d rank depth y.items := by
      intro n hn
      rw [List.mem_singleton.mp hn]
      exact ⟨hname, hfits name List.mem_cons_self⟩
    have hpairs := allFragments_outcome false hrank hcompare (fun n hn => (hself n hn).1) hrest
      (fun n hn => (hself n hn).2) hfitsRest hfields.ok
    rw [List.flatMap_singleton] at hpairs
    dsimp only at hpairs ⊢
    generalize forEach (betweenFragments schema d compare false (pairDepth d))
      (rest.map (name, ·)) m' = result at hpairs ⊢
    obtain ⟨pairs, m''⟩ := result
    have hlater := ih hrest hfitsRest met' hpairs.ok
    refine ((hfields.append (hpairs.lift met')).append hlater).imp ?_ ?_
    · rintro ((hmeet | ⟨n, hn, n', hn', hmeet⟩) | ⟨n, hn, hmeet⟩ | ⟨n, n', hsub, hmeet⟩)
      · exact .inl ⟨name, List.mem_cons_self, hmeet⟩
      · rw [List.mem_singleton.mp hn] at hmeet
        exact .inr ⟨name, n', List.cons_sublist_cons.mpr (List.singleton_sublist.mpr hn'), hmeet⟩
      · exact .inl ⟨n, List.mem_cons_of_mem name hn, hmeet⟩
      · exact .inr ⟨n, n', hsub.cons name, hmeet⟩
    · rintro (⟨n, hn, htrouble⟩ | ⟨n, n', hsub, htrouble⟩)
      · rcases List.mem_cons.mp hn with rfl | hn
        · exact .inl (.inl htrouble)
        · exact .inr (.inl ⟨n, hn, htrouble⟩)
      · cases hsub with
        | cons _ hsub => exact .inr (.inr ⟨n, n', hsub, htrouble⟩)
        | cons_cons _ hsub =>
          exact .inl (.inr ⟨name, List.mem_singleton_self name, n', List.singleton_sublist.mp hsub,
            htrouble⟩)

/-- The search of a set tells whether fields conflict that it selects. -/
theorem withinSet_outcome (hrank : Ranking d rank)
    (hcompare : Decides schema d rank depth compare)
    (hset : d.HasSet schema parent? address items) (hagree : Agree schema parent? other?)
    (hbelow : Below rank k items) (hapart : Apart schema d rank k parent? address items)
    (hfits : Fits d rank (depth + 1) items) (hm : Faithful schema d m) :
    Outcome (memoryRegime schema d rank (k + k))
      (Meet (Weakly schema d false) (Selects schema d parent? address items)
        (Selects schema d parent? address items))
      (Trusted schema d rank k ∧
        Meet (Strongly schema d false) (Selects schema d parent? address items)
          (Selects schema d parent? address items))
      m (withinSet schema d compare other? address items m) := by
  obtain ⟨he, hfaithful, hcompared⟩ := entry_spec hm hset hagree
  have hselects := he.selects_iff (d := d)
  have hready (x : Occurrence) (hx : Selects schema d parent? address items x) :
      Ready schema d rank depth k x := ready_of_selects hrank hset hbelow hfits hx
  have hlower (n : String) (hn : n ∈ (m.entry schema other? address items).1.fragments) :
      rank n < k := hbelow.mentioned ((he.fragments n).mp hn)
  have hfields := within_outcome false hcompare he (fun x hx => hready x (.field hx)) hfaithful
  have hfragments := (fragmentsWithin_outcome hrank hcompare he (fun x hx => hready x (.field hx))
    hapart (m.entry schema other? address items).1.fragments hlower
    (fun n hn y hy => (hready y ((hselects y).mpr (.inr ⟨n, hn, hy⟩))).fits) [] hfields.ok).forget
  refine ((hfields.append hfragments).of_compared_eq hcompared).imp ?_ ?_
  · have hthrough {n : String} (hn : n ∈ (m.entry schema other? address items).1.fragments)
        {x : Occurrence} (hx : FragmentSelects schema d n x) :
        Selects schema d parent? address items x := (hselects x).mpr (.inr ⟨n, hn, hx⟩)
    rintro (hmeet | ⟨n, hn, hmeet⟩ | ⟨n, n', hsub, hmeet⟩)
    · exact hmeet.imp id .field .field
    · exact hmeet.imp id .field (hthrough hn)
    · exact hmeet.imp id (hthrough (hsub.subset (by simp))) (hthrough (hsub.subset (by simp)))
  · rintro ⟨htrusted, hmeet⟩
    have hmax : Trusted schema d rank (max k k) := by rwa [max_self]
    have hsymm {these those : Occurrence → Prop} (h : Meet (Strongly schema d false) these those) :
        Meet (Strongly schema d false) those these := h.symm (Conflicts.symm differBothWays_symm)
    rcases (meet_right_iff hselects).mp hmeet with hmeet | ⟨n', hn', hmeet⟩ <;>
      rcases (meet_left_iff hselects).mp hmeet with hmeet | ⟨n, hn, hmeet⟩
    · exact .inl ⟨htrusted, hmeet⟩
    · exact .inr (.inl ⟨n, hn, hmax, hsymm hmeet⟩)
    · exact .inr (.inl ⟨n', hn', hmax, hmeet⟩)
    · by_cases hne : n = n'
      · subst hne
        exact absurd hmeet (htrusted n (hlower n hn))
      have hbound : max (rank n) (rank n') + 1 ≤ k := by
        have := hlower n hn
        have := hlower n' hn'
        omega
      rcases pair_sublist hn hn' hne with hsub | hsub
      · exact .inr (.inr ⟨n, n', hsub, htrusted.mono hbound, hmeet⟩)
      · rw [max_comm] at hbound
        exact .inr (.inr ⟨n', n, hsub, htrusted.mono hbound, hsymm hmeet⟩)

end Set

end GraphQLCheck.Overlap
