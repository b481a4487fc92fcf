import GraphQLCheck.Proofs.Overlap.Outcome

/-!
# Comparing sets and fragments

Each function of the search has an `Outcome`: it tells whether fields of one side and fields of the
other conflict. The comparison of two fields is a parameter here as it is in the search, and
`Decides` is what has to be known of it.
-/

namespace GraphQLCheck.Overlap

variable {schema : Schema} {d : Document} {rank : String → ℕ} {compare : Comparison} {depth : ℕ}
  {exclusive : Bool} {m : Memory}

/-- The comparison of two fields has the outcome that it should have, to a given depth. -/
def Decides (schema : Schema) (d : Document) (rank : String → ℕ) (depth : ℕ)
    (compare : Comparison) : Prop :=
  ∀ exclusive c m k l, Faithful schema d m → Ready schema d rank depth k c.first →
    Ready schema d rank depth l c.second → c.first.address ≠ c.second.address →
    Outcome (memoryRegime schema d rank (k + l)) (Weakly schema d exclusive c.first c.second)
      (Trusted schema d rank (max k l) ∧ Strongly schema d exclusive c.first c.second) m
      (compare exclusive c m)

/-! ### Fields with fields -/

section Fields

variable {k l : ℕ} {parent? other? : Option TypeDefinition} {address place : Address}
  {items others : List Selection} {e e' : Entry}

/-- Comparing the fields of two sets. -/
theorem between_outcome (exclusive : Bool) (hcompare : Decides schema d rank depth compare)
    (he : Describes schema parent? address items e) (he' : Describes schema other? place others e')
    (hready : ∀ x ∈ fieldsOf schema parent? address items, Ready schema d rank depth k x)
    (hready' : ∀ y ∈ fieldsOf schema other? place others, Ready schema d rank depth l y)
    (hne : ∀ x ∈ fieldsOf schema parent? address items,
      ∀ y ∈ fieldsOf schema other? place others, x.address ≠ y.address)
    (hm : Faithful schema d m) :
    Outcome (memoryRegime schema d rank (k + l))
      (Meet (Weakly schema d exclusive) (FieldOf schema parent? address items)
        (FieldOf schema other? place others))
      (Trusted schema d rank (max k l) ∧
        Meet (Strongly schema d exclusive) (FieldOf schema parent? address items)
          (FieldOf schema other? place others))
      m (forEach (compare exclusive) (Candidate.between e.fields e'.fields) m) := by
  refine (Outcome.forEach (fun c => Weakly schema d exclusive c.first c.second)
    (fun c => Trusted schema d rank (max k l) ∧ Strongly schema d exclusive c.first c.second)
    (Candidate.between e.fields e'.fields) hm ?_).imp ?_ ?_
  · intro c hc m hm
    obtain ⟨x, hx, y, hy, hxc, hyc, -⟩ := he.of_mem_between he' hc
    refine hcompare exclusive c m k l hm ((hready x hx).congr hxc) ((hready' y hy).congr hyc) ?_
    rw [← (eq_of_known hxc).2.1, ← (eq_of_known hyc).2.1]
    exact hne x hx y hy
  · rintro ⟨c, hc, hweak⟩
    obtain ⟨x, hx, y, hy, hxc, hyc, hname⟩ := he.of_mem_between he' hc
    exact ⟨x, y, hx, hy, hne x hx y hy, hname, hweak.congr hxc.symm hyc.symm⟩
  · rintro ⟨htrusted, x, y, hx, hy, -, hname, hstrong⟩
    obtain ⟨c, hc, hcx, hcy⟩ := he.mem_between he' hx hy hname
    exact ⟨c, hc, htrusted, hstrong.congr hcx.symm hcy.symm⟩

/-- Comparing the fields of a set with one another. -/
theorem within_outcome (exclusive : Bool) (hcompare : Decides schema d rank depth compare)
    (he : Describes schema parent? address items e)
    (hready : ∀ x ∈ fieldsOf schema parent? address items, Ready schema d rank depth k x)
    (hm : Faithful schema d m) :
    Outcome (memoryRegime schema d rank (k + k))
      (Meet (Weakly schema d exclusive) (FieldOf schema parent? address items)
        (FieldOf schema parent? address items))
      (Trusted schema d rank k ∧
        Meet (Strongly schema d exclusive) (FieldOf schema parent? address items)
          (FieldOf schema parent? address items))
      m (forEach (compare exclusive) (Candidate.within e.fields) m) := by
  refine (Outcome.forEach (fun c => Weakly schema d exclusive c.first c.second)
    (fun c => Trusted schema d rank (max k k) ∧ Strongly schema d exclusive c.first c.second)
    (Candidate.within e.fields) hm ?_).imp ?_ ?_
  · intro c hc m hm
    obtain ⟨x, hx, y, hy, hxc, hyc, hne, -⟩ := he.of_mem_within hc
    refine hcompare exclusive c m k k hm ((hready x hx).congr hxc) ((hready y hy).congr hyc) ?_
    rw [← (eq_of_known hxc).2.1, ← (eq_of_known hyc).2.1]
    exact hne
  · rintro ⟨c, hc, hweak⟩
    obtain ⟨x, hx, y, hy, hxc, hyc, hne, hname⟩ := he.of_mem_within hc
    exact ⟨x, y, hx, hy, hne, hname, hweak.congr hxc.symm hyc.symm⟩
  · rintro ⟨htrusted, x, y, hx, hy, hne, hname, hstrong⟩
    rw [← max_self k] at htrusted
    obtain ⟨c, hc, ⟨hcx, hcy⟩ | ⟨hcy, hcx⟩⟩ := he.mem_within hx hy hne hname
    · exact ⟨c, hc, htrusted, hstrong.congr hcx.symm hcy.symm⟩
    · have hsymm := hstrong.symm differBothWays_symm
      exact ⟨c, hc, htrusted, hsymm.congr hcy.symm hcx.symm⟩

end Fields

/-! ### Fragments -/

section Fragments

variable {name : String} {place : Address} {f : FragmentDefinition} {o : Occurrence}

theorem fragmentSelects_iff_selects (hplaced : d.placedFragment? name = some (place, f)) :
    FragmentSelects schema d name o ↔
      Selects schema d (schema.type? f.condition) place f.selectionSet.items o := by
  constructor
  · rintro ⟨place', g, hplaced', ho⟩
    obtain ⟨rfl, rfl⟩ := Prod.mk.inj (Option.some.inj (hplaced.symm.trans hplaced'))
    exact ho
  · intro ho
    exact ⟨place, f, hplaced, ho⟩

/-- What a fragment selects, by its entry: its own fields and what the fragments select that it
refers to. -/
theorem fragmentSelects_iff {e : Entry} (hplaced : d.placedFragment? name = some (place, f))
    (he : Describes schema (schema.type? f.condition) place f.selectionSet.items e)
    (o : Occurrence) :
    FragmentSelects schema d name o ↔
      FieldOf schema (schema.type? f.condition) place f.selectionSet.items o ∨
        ∃ n ∈ e.fragments, FragmentSelects schema d n o := by
  rw [fragmentSelects_iff_selects hplaced, he.selects_iff]

theorem not_fragmentSelects (hplaced : d.placedFragment? name = none) :
    ¬ FragmentSelects schema d name o := by
  rintro ⟨place, f, hplaced', -⟩
  cases hplaced.symm.trans hplaced'

theorem not_meet_of_not_placed {related : Occurrence → Occurrence → Prop}
    {these : Occurrence → Prop} (hplaced : d.placedFragment? name = none) :
    ¬ Meet related these (FragmentSelects schema d name) := by
  rintro ⟨x, y, -, hy, -⟩
  exact not_fragmentSelects hplaced hy

theorem Ranking.placed_eq_none (hrank : Ranking d rank) (h : rank name = 0) :
    d.placedFragment? name = none := by
  cases hplaced : d.placedFragment? name with
  | none => rfl
  | some p =>
    have := hrank.positive hplaced
    omega

theorem Ranking.ready_of_fragment (hrank : Ranking d rank)
    (ho : FragmentSelects schema d name o) (hfits : Fits d rank depth o.items) :
    Ready schema d rank depth (rank name) o := by
  obtain ⟨place, f, hplaced, ho⟩ := ho
  exact ⟨placed_of_selects (Document.hasSet_of_placedFragment? schema hplaced) ho,
    hrank.below_of_selects (hrank.below hplaced) ho, hfits⟩

theorem fragmentEntry_spec (hplaced : d.placedFragment? name = some (place, f))
    (hm : Faithful schema d m) :
    Describes schema (schema.type? f.condition) place f.selectionSet.items
        (fragmentEntry schema place f m).1 ∧
      Faithful schema d (fragmentEntry schema place f m).2 ∧
      (fragmentEntry schema place f m).2.compared = m.compared := by
  have hset := Document.hasSet_of_placedFragment? schema hplaced
  exact entry_spec hm hset (.of_set hset)

end Fragments

/-! ### Sets with fragments -/

/-- The state of the comparison of a set with fragments: what holds of the memory, and that there is
no trouble with the fragments that were met and have a number below the bound. -/
def namesRegime (schema : Schema) (d : Document) (rank : String → ℕ) (level bound : ℕ)
    (trouble : String → Prop) : Regime (List String × Memory) where
  ok s := Faithful schema d s.2
  inv s := (memoryRegime schema d rank level).inv s.2 ∧ ∀ n ∈ s.1, rank n < bound → ¬ trouble n
  same s t := (memoryRegime schema d rank level).same s.2 t.2 ∧
    ∀ n, bound ≤ rank n → (n ∈ t.1 ↔ n ∈ s.1)
  refl s := ⟨(memoryRegime schema d rank level).refl s.2, fun _ _ => Iff.rfl⟩
  trans h h' := ⟨(memoryRegime schema d rank level).trans h.1 h'.1,
    fun n hn => (h'.2 n hn).trans (h.2 n hn)⟩

/-- A fragment is met: first its own fields are compared, then the fragments that it refers to, which
have smaller numbers. -/
theorem Outcome.visit {level bound : ℕ} {trouble : String → Prop} {name : String}
    {names : List String} {m' : Memory} {s : List String × Memory} {found more : List Conflict}
    {weak weak' strong strong' : Prop} (hname : rank name < bound)
    (h : Outcome (memoryRegime schema d rank level) weak strong m (found, m'))
    (h' : Outcome (namesRegime schema d rank level (rank name) trouble) weak' strong'
      (name :: names, m') (more, s))
    (htrouble : trouble name → strong ∨ strong') :
    Outcome (namesRegime schema d rank level bound trouble) (weak ∨ weak') (strong ∨ strong')
      (names, m) (found ++ more, s) := by
  have hstart (hinv : (namesRegime schema d rank level bound trouble).inv (names, m))
      (hfound : found = []) :
      (namesRegime schema d rank level (rank name) trouble).inv (name :: names, m') := by
    refine ⟨h.keeps hfound hinv.1, fun n hn hlt => ?_⟩
    rcases List.mem_cons.mp hn with rfl | hn
    · exact absurd hlt (lt_irrefl _)
    · exact hinv.2 n hn (hlt.trans hname)
  have hnone (hinv : (namesRegime schema d rank level bound trouble).inv (names, m))
      (hnil : found ++ more = []) : ¬ (strong ∨ strong') := by
    obtain ⟨hfound, hmore⟩ := List.append_eq_nil_iff.mp hnil
    rintro (hstrong | hstrong)
    · exact h.complete hfound hinv.1 hstrong
    · exact h'.complete hmore (hstart hinv hfound) hstrong
  refine ⟨h'.ok, ⟨(memoryRegime schema d rank level).trans h.same h'.same.1, ?_⟩, ?_, ?_,
    fun hnil hinv => hnone hinv hnil⟩
  · intro n hn
    have hne : n ≠ name := by
      rintro rfl
      omega
    rw [h'.same.2 n (hname.le.trans hn), List.mem_cons, or_iff_right hne]
  · intro hne
    by_cases hfound : found = []
    · exact .inr (h'.sound fun hmore => hne (List.append_eq_nil_iff.mpr ⟨hfound, hmore⟩))
    · exact .inl (h.sound hfound)
  · intro hnil hinv
    obtain ⟨hfound, hmore⟩ := List.append_eq_nil_iff.mp hnil
    have hend := h'.keeps hmore (hstart hinv hfound)
    refine ⟨hend.1, fun n hn hlt => ?_⟩
    -- Names below the one that was met are done inside; the others were there before.
    by_cases hless : rank n < rank name
    · exact hend.2 n hn hless
    · rw [h'.same.2 n (Nat.le_of_not_lt hless), List.mem_cons] at hn
      rcases hn with rfl | hn
      · exact fun h => hnone hinv hnil (htrouble h)
      · exact hinv.2 n hn hlt

/-- Fields conflict with some that a fragment selects, although those do not that one fragment
selects. -/
def TroubleWith (schema : Schema) (d : Document) (rank : String → ℕ) (bound : ℕ) (exclusive : Bool)
    (these : Occurrence → Prop) (name : String) : Prop :=
  Trusted schema d rank bound ∧
    Meet (Strongly schema d exclusive) these (FragmentSelects schema d name)

theorem not_troubleWith {bound : ℕ} {these : Occurrence → Prop} {name : String}
    (hplaced : d.placedFragment? name = none) :
    ¬ TroubleWith schema d rank bound exclusive these name :=
  fun h => not_meet_of_not_placed hplaced h.2

section WithFragment

variable {k l : ℕ} {parent? : Option TypeDefinition} {address : Address} {items : List Selection}
  {e : Entry}

/-- Comparing the fields of a set with those that a fragment selects. -/
theorem withFragment_outcome (exclusive : Bool) (hrank : Ranking d rank)
    (hcompare : Decides schema d rank depth compare)
    (he : Describes schema parent? address items e)
    (hready : ∀ x ∈ fieldsOf schema parent? address items, Ready schema d rank depth k x)
    (hapart : Apart schema d rank l parent? address items) {fuel bound : ℕ} {name : String}
    (names : List String) (hname : rank name < bound) (hbound : bound ≤ l) (hfuel : rank name ≤ fuel)
    (hfits : ∀ y, FragmentSelects schema d name y → Fits d rank depth y.items)
    (hm : Faithful schema d m) :
    Outcome
      (namesRegime schema d rank (k + l) bound
        (TroubleWith schema d rank (max k l) exclusive (FieldOf schema parent? address items)))
      (Meet (Weakly schema d exclusive) (FieldOf schema parent? address items)
        (FragmentSelects schema d name))
      (TroubleWith schema d rank (max k l) exclusive
        (FieldOf schema parent? address items) name)
      (names, m) (withFragment schema d compare exclusive e fuel name (names, m)) := by
  induction fuel generalizing name bound names m with
  | zero =>
    have hplaced := hrank.placed_eq_none (Nat.le_zero.mp hfuel)
    exact .nothing hm fun _ => not_troubleWith hplaced
  | succ fuel ih =>
    rw [withFragment]
    by_cases hmem : name ∈ names
    · rw [if_pos hmem]
      exact .nothing hm fun hinv => hinv.2 name hmem hname
    rw [if_neg hmem]
    cases hplaced : d.placedFragment? name with
    | none =>
      have hfields : Outcome (memoryRegime schema d rank (k + l)) False False m
          (([] : List Conflict), m) := .idle hm
      have hnone {p : Prop} (h : TroubleWith schema d rank (max k l) exclusive
          (FieldOf schema parent? address items) name) : p :=
        absurd h (not_troubleWith hplaced)
      exact (hfields.visit hname (.idle hm) hnone).imp (fun h => (or_self_iff.mp h).elim) hnone
    | some p =>
      obtain ⟨place, f⟩ := p
      obtain ⟨hother, hfaithful, hcompared⟩ := fragmentEntry_spec hplaced hm
      have hselects := fragmentSelects_iff hplaced hother
      have hless : rank name < l := hname.trans_le hbound
      have hreadyOther : ∀ y ∈ fieldsOf schema (schema.type? f.condition) place
          f.selectionSet.items, Ready schema d rank depth l y := by
        intro y hy
        have hy := (hselects y).mpr (.inl hy)
        exact (hrank.ready_of_fragment hy (hfits y hy)).mono hless.le
      have hfields := (between_outcome exclusive hcompare he hother hready hreadyOther
        (hapart.fields hless hplaced) hfaithful).of_compared_eq hcompared
      have hstep : ∀ n ∈ (fragmentEntry schema place f m).1.fragments, ∀ s,
          Faithful schema d s.2 →
          Outcome (namesRegime schema d rank (k + l) (rank name) (TroubleWith schema d rank (max k l)
              exclusive (FieldOf schema parent? address items)))
            (Meet (Weakly schema d exclusive) (FieldOf schema parent? address items)
              (FragmentSelects schema d n))
            (TroubleWith schema d rank (max k l) exclusive (FieldOf schema parent? address items) n)
            s (withFragment schema d compare exclusive e fuel n s) := by
        intro n hn s hs
        have hlower := (hrank.below hplaced).mentioned ((hother.fragments n).mp hn)
        refine ih s.1 hlower hless.le (by omega) (fun y hy => hfits y ?_) hs
        exact (hselects y).mpr (.inr ⟨n, hn, hy⟩)
      have hsplit (h : TroubleWith schema d rank (max k l) exclusive
          (FieldOf schema parent? address items) name) :
          (Trusted schema d rank (max k l) ∧
            Meet (Strongly schema d exclusive) (FieldOf schema parent? address items)
              (FieldOf schema (schema.type? f.condition) place f.selectionSet.items)) ∨
          ∃ n ∈ (fragmentEntry schema place f m).1.fragments,
            TroubleWith schema d rank (max k l) exclusive (FieldOf schema parent? address items) n := by
        obtain ⟨htrusted, hmeet⟩ := h
        rcases (meet_right_iff hselects).mp hmeet with hmeet | ⟨n, hn, hmeet⟩
        · exact .inl ⟨htrusted, hmeet⟩
        · exact .inr ⟨n, hn, htrusted, hmeet⟩
      dsimp only
      rw [if_neg (by rw [hother.place, he.place]; exact hapart.places hless hplaced)]
      exact (hfields.visit hname (Outcome.forEach _ _ _ hfields.ok hstep) hsplit).imp
        (meet_right_iff hselects).mpr hsplit

end WithFragment

/-! ### Fragments with fragments -/

theorem contains_insert (s : PairSet) (a b x y : String) (exclusive other : Bool) :
    (s.insert a b exclusive).contains x y other =
      if x = a ∧ y = b ∨ x = b ∧ y = a then other || !exclusive else s.contains x y other := by
  have hbeq {p q : String × String} (h : ¬ p = q) : (p == q) = false := beq_eq_false_iff_ne.mpr h
  unfold PairSet.contains PairSet.insert
  by_cases hback : (x, y) = (b, a)
  · obtain ⟨rfl, rfl⟩ := Prod.mk.inj hback
    simp
  · by_cases hforth : (x, y) = (a, b)
    · obtain ⟨rfl, rfl⟩ := Prod.mk.inj hforth
      simp [List.lookup_cons, hbeq hback]
    · simp only [List.lookup_cons, hbeq hback, hbeq hforth]
      simp only [Prod.mk.injEq] at hback hforth
      simp [hback, hforth]

/-- Trouble with a pair is trouble with it in either order, and it does not go away if fields around
are not taken to exclude one another. -/
theorem Trouble.of_covered {a b x y : String} {other : Bool}
    (h : Trouble schema d rank other x y) (hpair : x = a ∧ y = b ∨ x = b ∧ y = a)
    (hcovered : (other || !exclusive) = true) : Trouble schema d rank exclusive a b := by
  have hweaken {a b : String} (h : Trouble schema d rank other a b) :
      Trouble schema d rank exclusive a b := by
    refine ⟨h.1, h.2.imp (fun h => h.weaken fun hexclusive => ?_) id id⟩
    simpa [hexclusive] using hcovered
  rcases hpair with ⟨rfl, rfl⟩ | ⟨rfl, rfl⟩
  · exact hweaken h
  · exact hweaken h.symm

/-- A pair is remembered, and then compared by comparing pairs with a smaller sum of ranks. -/
theorem Outcome.remember {a b : String} {m' : Memory} {result : List Conflict × Memory}
    {weak strong : Prop} (hcompared : m'.compared = m.compared.insert a b exclusive)
    (h : Outcome (memoryRegime schema d rank (rank a + rank b)) weak strong m' result)
    (htrouble : Trouble schema d rank exclusive a b → strong) :
    Outcome (memoryRegime schema d rank (rank a + rank b + 1)) weak strong m result := by
  have hother {x y : String} (other : Bool) (hne : rank x + rank y ≠ rank a + rank b) :
      m'.compared.contains x y other = m.compared.contains x y other := by
    rw [hcompared, contains_insert, if_neg]
    rintro (⟨rfl, rfl⟩ | ⟨rfl, rfl⟩) <;> omega
  have hstart (hinv : (memoryRegime schema d rank (rank a + rank b + 1)).inv m) :
      (memoryRegime schema d rank (rank a + rank b)).inv m' := by
    intro x y other hlt hcontains
    rw [hother other (by omega)] at hcontains
    exact hinv x y other (by omega) hcontains
  refine ⟨h.ok, fun x y other hle => ?_, h.sound, fun hnil hinv x y other hlt hcontains => ?_,
    fun hnil hinv => h.complete hnil (hstart hinv)⟩
  · rw [h.same x y other (by omega), hother other (by omega)]
  · by_cases hless : rank x + rank y < rank a + rank b
    · exact h.keeps hnil (hstart hinv) x y other hless hcontains
    · rw [h.same x y other (Nat.le_of_not_lt hless), hcompared, contains_insert] at hcontains
      split at hcontains
      · rename_i hpair
        exact fun htrouble' =>
          h.complete hnil (hstart hinv) (htrouble (htrouble'.of_covered hpair hcontains))
      · exact hinv x y other hlt hcontains

theorem not_trouble_self (a : String) : ¬ Trouble schema d rank exclusive a a := by
  rintro ⟨htrusted, hmeet⟩
  refine htrusted a (by omega) (hmeet.imp (fun h => h.weaken fun hfalse => ?_) id id)
  cases hfalse

theorem not_trouble_of_not_placed {a b : String}
    (h : d.placedFragment? a = none ∨ d.placedFragment? b = none) :
    ¬ Trouble schema d rank exclusive a b := by
  rcases h with h | h
  · exact fun htrouble => not_meet_of_not_placed h htrouble.symm.2
  · exact fun htrouble => not_meet_of_not_placed h htrouble.2

section BetweenFragments

variable {a b : String} {place place' : Address} {f g : FragmentDefinition} {e e' : Entry}

/-- Trouble with two fragments is one with their own fields, or one with a fragment and one that the
other refers to. -/
theorem Trouble.cases (hrank : Ranking d rank) (ha : d.placedFragment? a = some (place, f))
    (hb : d.placedFragment? b = some (place', g))
    (he : Describes schema (schema.type? f.condition) place f.selectionSet.items e)
    (he' : Describes schema (schema.type? g.condition) place' g.selectionSet.items e')
    (h : Trouble schema d rank exclusive a b) :
    (Trusted schema d rank (max (rank a) (rank b)) ∧
        Meet (Strongly schema d exclusive)
          (FieldOf schema (schema.type? f.condition) place f.selectionSet.items)
          (FieldOf schema (schema.type? g.condition) place' g.selectionSet.items)) ∨
      (∃ n ∈ e'.fragments, Trouble schema d rank exclusive a n) ∨
      ∃ n ∈ e.fragments, Trouble schema d rank exclusive n b := by
  obtain ⟨htrusted, hmeet⟩ := h
  rcases (meet_right_iff (fragmentSelects_iff hb he')).mp hmeet with hmeet | ⟨n, hn, hmeet⟩
  · rcases (meet_left_iff (fragmentSelects_iff ha he)).mp hmeet with hmeet | ⟨n, hn, hmeet⟩
    · exact .inl ⟨htrusted.mono (Nat.le_succ _), hmeet⟩
    · have hlower := (hrank.below ha).mentioned ((he.fragments n).mp hn)
      refine .inr (.inr ⟨n, hn, htrusted.mono (by omega), hmeet.imp id id fun hy => ?_⟩)
      exact (fragmentSelects_iff hb he' _).mpr (.inl hy)
  · have hlower := (hrank.below hb).mentioned ((he'.fragments n).mp hn)
    exact .inr (.inl ⟨n, hn, htrusted.mono (by omega), hmeet⟩)

theorem fieldOf_ne_of_placed (ha : d.placedFragment? a = some (place, f))
    (hb : d.placedFragment? b = some (place', g)) (hab : a ≠ b) :
    ∀ x ∈ fieldsOf schema (schema.type? f.condition) place f.selectionSet.items,
    ∀ y ∈ fieldsOf schema (schema.type? g.condition) place' g.selectionSet.items,
    x.address ≠ y.address := by
  intro x hx y hy heq
  obtain rfl := eq_of_common_field (Document.hasSet_of_placedFragment? schema ha)
    (whole_of_placedFragment? schema ha) (Document.hasSet_of_placedFragment? schema hb)
    (whole_of_placedFragment? schema hb) hx hy heq
  exact hab (Document.eq_of_placedFragment? ha hb)

/-- Comparing two fragments that are defined, given the comparison of pairs with a smaller sum of
ranks. -/
theorem definedFragments_outcome (hrank : Ranking d rank)
    (hcompare : Decides schema d rank depth compare) (ha : d.placedFragment? a = some (place, f))
    (hb : d.placedFragment? b = some (place', g)) (hab : a ≠ b)
    (he : Describes schema (schema.type? f.condition) place f.selectionSet.items e)
    (he' : Describes schema (schema.type? g.condition) place' g.selectionSet.items e')
    (hfits : ∀ x, FragmentSelects schema d a x → Fits d rank depth x.items)
    (hfits' : ∀ y, FragmentSelects schema d b y → Fits d rank depth y.items)
    {find : String × String → Memory → List Conflict × Memory}
    (hfind : ∀ x y, rank x + rank y < rank a + rank b →
      (∀ o, FragmentSelects schema d x o → Fits d rank depth o.items) →
      (∀ o, FragmentSelects schema d y o → Fits d rank depth o.items) →
      ∀ m, Faithful schema d m → Outcome (memoryRegime schema d rank (rank a + rank b))
        (Meet (Weakly schema d exclusive) (FragmentSelects schema d x) (FragmentSelects schema d y))
        (Trouble schema d rank exclusive x y) m (find (x, y) m))
    (hm : Faithful schema d m) :
    let found := forEach (compare exclusive) (Candidate.between e.fields e'.fields) m
    let right := forEach find (e'.fragments.map (a, ·)) found.2
    let left := forEach find (e.fragments.map (·, b)) right.2
    Outcome (memoryRegime schema d rank (rank a + rank b))
      (Meet (Weakly schema d exclusive) (FragmentSelects schema d a) (FragmentSelects schema d b))
      (Trouble schema d rank exclusive a b) m (found.1 ++ right.1 ++ left.1, left.2) := by
  intro found right left
  have hselects := fragmentSelects_iff ha he
  have hselects' := fragmentSelects_iff hb he'
  have hfields := between_outcome exclusive hcompare he he'
    (fun x hx => hrank.ready_of_fragment ((hselects x).mpr (.inl hx))
      (hfits x ((hselects x).mpr (.inl hx))))
    (fun y hy => hrank.ready_of_fragment ((hselects' y).mpr (.inl hy))
      (hfits' y ((hselects' y).mpr (.inl hy))))
    (fieldOf_ne_of_placed ha hb hab) hm
  have hright : Outcome (memoryRegime schema d rank (rank a + rank b))
      (∃ p ∈ e'.fragments.map (a, ·), Meet (Weakly schema d exclusive)
        (FragmentSelects schema d p.1) (FragmentSelects schema d p.2))
      (∃ p ∈ e'.fragments.map (a, ·), Trouble schema d rank exclusive p.1 p.2) found.2 right := by
    refine Outcome.forEach _ _ _ hfields.ok ?_
    rintro p hp m hm
    obtain ⟨n, hn, rfl⟩ := List.mem_map.mp hp
    have hlower := (hrank.below hb).mentioned ((he'.fragments n).mp hn)
    refine hfind a n (by omega) hfits (fun y hy => hfits' y ?_) m hm
    exact (hselects' y).mpr (.inr ⟨n, hn, hy⟩)
  have hleft : Outcome (memoryRegime schema d rank (rank a + rank b))
      (∃ p ∈ e.fragments.map (·, b), Meet (Weakly schema d exclusive)
        (FragmentSelects schema d p.1) (FragmentSelects schema d p.2))
      (∃ p ∈ e.fragments.map (·, b), Trouble schema d rank exclusive p.1 p.2) right.2 left := by
    refine Outcome.forEach _ _ _ hright.ok ?_
    rintro p hp m hm
    obtain ⟨n, hn, rfl⟩ := List.mem_map.mp hp
    have hlower := (hrank.below ha).mentioned ((he.fragments n).mp hn)
    refine hfind n b (by omega) (fun x hx => hfits x ?_) hfits' m hm
    exact (hselects x).mpr (.inr ⟨n, hn, hx⟩)
  refine ((hfields.append hright).append hleft).imp ?_ ?_
  · rintro ((hmeet | ⟨p, hp, hmeet⟩) | ⟨p, hp, hmeet⟩)
    · exact hmeet.imp id (fun hx => (hselects _).mpr (.inl hx))
        fun hy => (hselects' _).mpr (.inl hy)
    · obtain ⟨n, hn, rfl⟩ := List.mem_map.mp hp
      exact hmeet.imp id id fun hy => (hselects' _).mpr (.inr ⟨n, hn, hy⟩)
    · obtain ⟨n, hn, rfl⟩ := List.mem_map.mp hp
      exact hmeet.imp id (fun hx => (hselects _).mpr (.inr ⟨n, hn, hx⟩)) id
  · intro htrouble
    rcases htrouble.cases hrank ha hb he he' with hfields | ⟨n, hn, hright⟩ | ⟨n, hn, hleft⟩
    · exact .inl (.inl hfields)
    · exact .inl (.inr ⟨(a, n), List.mem_map_of_mem hn, hright⟩)
    · exact .inr ⟨(n, b), List.mem_map.mpr ⟨n, hn, rfl⟩, hleft⟩

/-- Comparing two fragments. -/
theorem betweenFragments_outcome (hrank : Ranking d rank)
    (hcompare : Decides schema d rank depth compare) {fuel : ℕ} (hfuel : rank a + rank b ≤ fuel)
    (hfits : ∀ x, FragmentSelects schema d a x → Fits d rank depth x.items)
    (hfits' : ∀ y, FragmentSelects schema d b y → Fits d rank depth y.items)
    (hm : Faithful schema d m) :
    Outcome (memoryRegime schema d rank (rank a + rank b + 1))
      (Meet (Weakly schema d exclusive) (FragmentSelects schema d a) (FragmentSelects schema d b))
      (Trouble schema d rank exclusive a b) m
      (betweenFragments schema d compare exclusive fuel (a, b) m) := by
  induction fuel generalizing a b m with
  | zero =>
    have hzero : rank a = 0 := by omega
    exact .nothing hm fun _ => not_trouble_of_not_placed (.inl (hrank.placed_eq_none hzero))
  | succ fuel ih =>
    rw [betweenFragments]
    by_cases hab : a = b
    · subst hab
      rw [if_pos rfl]
      exact .nothing hm fun _ => not_trouble_self a
    rw [if_neg hab]
    by_cases hcontains : m.compared.contains a b exclusive = true
    · rw [if_pos hcontains]
      exact .nothing hm fun hinv => hinv a b exclusive (Nat.lt_succ_self _) hcontains
    rw [if_neg hcontains]
    have hundefined (h : d.placedFragment? a = none ∨ d.placedFragment? b = none) :
        Outcome (memoryRegime schema d rank (rank a + rank b + 1))
          (Meet (Weakly schema d exclusive) (FragmentSelects schema d a)
            (FragmentSelects schema d b))
          (Trouble schema d rank exclusive a b) m
          (([] : List Conflict), { m with compared := m.compared.insert a b exclusive }) := by
      have hidle : Outcome (memoryRegime schema d rank (rank a + rank b)) False False
          { m with compared := m.compared.insert a b exclusive }
          (([] : List Conflict), { m with compared := m.compared.insert a b exclusive }) := .idle hm
      exact (hidle.remember rfl (not_trouble_of_not_placed h)).imp False.elim
        (not_trouble_of_not_placed h)
    cases ha : d.placedFragment? a with
    | none => exact hundefined (.inl ha)
    | some p =>
      cases hb : d.placedFragment? b with
      | none => exact hundefined (.inr hb)
      | some q =>
        obtain ⟨place, f⟩ := p
        obtain ⟨place', g⟩ := q
        have hmemory : Faithful schema d
            { m with compared := m.compared.insert a b exclusive } := hm
        obtain ⟨he, hfaithful, hcompared⟩ := fragmentEntry_spec ha hmemory
        obtain ⟨he', hfaithful', hcompared'⟩ := fragmentEntry_spec hb hfaithful
        have hpair (x y : String) (hlower : rank x + rank y < rank a + rank b)
            (hx : ∀ o, FragmentSelects schema d x o → Fits d rank depth o.items)
            (hy : ∀ o, FragmentSelects schema d y o → Fits d rank depth o.items) (m : Memory)
            (hm : Faithful schema d m) :=
          (ih (by omega) hx hy hm).mono (Nat.succ_le_of_lt hlower)
        have hdefined := definedFragments_outcome hrank hcompare ha hb hab he he' hfits hfits' hpair
          hfaithful'
        exact hdefined.remember (hcompared'.trans hcompared) id

end BetweenFragments

end GraphQLCheck.Overlap
