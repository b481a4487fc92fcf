import GraphQLCheck.Proofs.Overlap.Subjects
import Mathlib.Data.Set.Insert

/-!
# What is met by a search that finds nothing

The search leaves out what it remembers. But what it remembers it has met before, if it starts with
no pairs of fragments remembered, and what it has met it has looked into. So if it finds nothing, all
that it meets is closed under what is involved, and nothing that it meets has values that cannot be
merged (`Runs.explores`, `Grows.not_clashes`).

The subjects met are a set that grows along the calls. `Accounts` ties it to the state that the calls
pass on, where the fragments met are those of one set at a time; `Passes` says of which.
-/

namespace GraphQLCheck.Overlap

variable {schema : Schema} {d : Document}

/-! ### Subjects met -/

/-- More subjects than before are met, in both orders. The new ones are two fields with values that
can be merged or something else, and all that they involve is met. -/
structure Grows (schema : Schema) (d : Document) (met more : Set Subject) : Prop where
  /-- What was met is met. -/
  subset : met ⊆ more
  /-- A subject is met in both orders. -/
  swap : ∀ u ∈ more, u.swap ∈ more
  /-- New subjects are settled. -/
  settled : ∀ u ∈ more, u ∉ met → ¬ u.Unmergeable schema ∧ ∀ v, Involves schema d u v → v ∈ more

/-- A subject is met, in both orders. -/
def meet (u : Subject) (met : Set Subject) : Set Subject := {u, u.swap} ∪ met

section Grows

variable {met more most : Set Subject} {u : Subject}

theorem Grows.refl (h : ∀ u ∈ met, u.swap ∈ met) : Grows schema d met met :=
  ⟨subset_rfl, h, fun _ hu hnew => absurd hu hnew⟩

theorem Grows.trans (h : Grows schema d met more) (h' : Grows schema d more most) :
    Grows schema d met most := by
  refine ⟨h.subset.trans h'.subset, h'.swap, fun u hu hnew => ?_⟩
  by_cases hmore : u ∈ more
  · obtain ⟨hmerge, hinvolves⟩ := h.settled u hmore hnew
    exact ⟨hmerge, fun v hv => h'.subset (hinvolves v hv)⟩
  · exact h'.settled u hu hmore

theorem swap_mem_meet (h : ∀ v ∈ met, v.swap ∈ met) : ∀ v ∈ meet u met, v.swap ∈ meet u met := by
  rintro v ((rfl | rfl) | hv)
  · exact .inl (.inr rfl)
  · exact .inl (.inl (Subject.swap_swap u))
  · exact .inr (h v hv)

/-- A subject that was met before, or that is settled by what is met afterwards. -/
theorem Grows.of_meet (h : Grows schema d (meet u met) more) (hswap : ∀ v ∈ met, v.swap ∈ met)
    (hu : u ∈ met ∨ ¬ u.Unmergeable schema ∧ ∀ v, Involves schema d u v → v ∈ more) :
    Grows schema d met more := by
  refine ⟨Set.subset_union_right.trans h.subset, h.swap, fun v hv hnew => ?_⟩
  by_cases hmeet : v ∈ meet u met
  · rcases hmeet with (rfl | rfl) | hold
    · exact hu.resolve_left hnew
    · obtain ⟨hmerge, hinvolves⟩ := hu.resolve_left fun hold => hnew (hswap u hold)
      refine ⟨fun hclash => hmerge ?_, fun w hw => ?_⟩
      · simpa using hclash.swap
      · rcases hw.of_swap with hw | hw
        · exact hinvolves w hw
        · simpa using h.swap _ (hinvolves _ hw)
    · exact absurd hold hnew
  · exact h.settled v hv hmeet

end Grows

/-- All that the state remembers was met; the fragments were met with the set at an address. -/
structure Accounts (met : Set Subject) (address : Address) (s : CallState) : Prop where
  /-- Pairs of fragments that were compared. -/
  pairs : ∀ {a b exclusive}, s.2.compared.contains a b exclusive = true → .pair a b ∈ met
  /-- Fragments that were met. -/
  names : ∀ {n}, n ∈ s.1 → .fragment address n ∈ met

/-- If the call is about a set and a fragment, the set is that at the address. -/
def Task.At (address : Address) : Task → Prop
  | fragment _ entry _ => entry.address = address
  | fields _ _ | pair _ _ => True
  | afresh | within _ _ _ => False

theorem Task.At.exists_subject {address : Address} {t : Task} (h : t.At address) :
    ∃ u, t.subject? = some u := by
  cases t with
  | fields exclusive c => exact ⟨_, rfl⟩
  | fragment exclusive e name => exact ⟨_, rfl⟩
  | pair exclusive p => exact ⟨_, rfl⟩
  | afresh | within _ _ _ => exact h.elim

/-- The calls are about the set at one address at first and about that at another in the end; the
set changes only after the fragments met are forgotten. -/
inductive Passes : Address → List Task → Address → Prop where
  /-- No calls. -/
  | nil {address : Address} : Passes address [] address
  /-- The fragments met are forgotten. -/
  | afresh {address start last : Address} {rest : List Task} :
      Passes start rest last → Passes address (.afresh :: rest) last
  /-- A call about the set. -/
  | cons {address last : Address} {t : Task} {rest : List Task} :
      t.At address → Passes address rest last → Passes address (t :: rest) last

section Passes

variable {address last : Address} {tasks more : List Task} {exclusive : Bool}

theorem Passes.append {final : Address} (h : Passes address tasks last)
    (h' : Passes last more final) : Passes address (tasks ++ more) final := by
  induction h with
  | nil => exact h'
  | afresh _ ih => exact .afresh (ih h')
  | cons ht _ ih => exact .cons ht (ih h')

theorem Passes.map {α : Type} (t : α → Task) (h : ∀ a, (t a).At address) (list : List α) :
    Passes address (list.map t) address := by
  induction list with
  | nil => exact .nil
  | cons a list ih => exact .cons (h a) ih

theorem passes_ofSets (address : Address) (e e' : Entry) :
    Passes address (Task.ofSets exclusive e e') e'.address := by
  have hfields : Passes address
      ((Candidate.between e.fields e'.fields).map (.fields exclusive)) address :=
    .map (.fields exclusive) (fun _ => trivial) _
  have hright : Passes address (.afresh :: e'.fragments.map (.fragment exclusive e)) e.address :=
    .afresh (.map (.fragment exclusive e) (fun _ => rfl) _)
  have hleft : Passes e.address (.afresh :: e.fragments.map (.fragment exclusive e')) e'.address :=
    .afresh (.map (.fragment exclusive e') (fun _ => rfl) _)
  exact ((hfields.append hright).append hleft).append (.map (.pair exclusive) (fun _ => trivial) _)

end Passes

section Steps

variable {met more : Set Subject} {address : Address} {t : Task} {s : CallState}
  {r : List Task × CallState} {u : Subject}

theorem Accounts.mono (h : Accounts met address s) (hsub : met ⊆ more) :
    Accounts more address s :=
  ⟨fun hcontains => hsub (h.pairs hcontains), fun hn => hsub (h.names hn)⟩

/-- What is remembered of a pair of fragments is met with the pair. -/
theorem Accounts.insert {names : List String} {m m' : Memory} {a b : String} {exclusive : Bool}
    (h : Accounts met address (names, m)) (hm : m'.compared = m.compared.insert a b exclusive) :
    Accounts (meet (.pair a b) met) address (names, m') := by
  refine ⟨fun {x y other} hcontains => ?_, fun hn => .inr (h.names hn)⟩
  change m'.compared.contains x y other = true at hcontains
  rw [hm, contains_insert] at hcontains
  split at hcontains
  · rename_i heq
    rcases heq with ⟨rfl, rfl⟩ | ⟨rfl, rfl⟩
    · exact .inl (.inl rfl)
    · exact .inl (.inr rfl)
  · exact .inr (h.pairs hcontains)

/-- What is remembered of a fragment is met with the set and the fragment. -/
theorem Accounts.cons {names : List String} {m m' : Memory} {name : String}
    (h : Accounts met address (names, m)) (hm : m'.compared = m.compared) :
    Accounts (meet (.fragment address name) met) address (name :: names, m') := by
  refine ⟨fun {x y other} hcontains => ?_, fun hn => ?_⟩
  · change m'.compared.contains x y other = true at hcontains
    rw [hm] at hcontains
    exact .inr (h.pairs hcontains)
  · rcases List.mem_cons.mp hn with rfl | hn
    · exact .inl (.inl rfl)
    · exact .inr (h.names hn)

theorem Accounts.congr {names : List String} {m m' : Memory} (h : Accounts met address (names, m))
    (hm : m'.compared = m.compared) : Accounts met address (names, m') := by
  refine ⟨fun {x y other} hcontains => ?_, h.names⟩
  change m'.compared.contains x y other = true at hcontains
  rw [hm] at hcontains
  exact h.pairs hcontains

/-- What a call remembers before its own calls is met with its subject. -/
theorem Task.Expands.accounts (h : t.Expands schema d s r) (ht : t.At address)
    (hu : t.subject? = some u) (hs : Accounts met address s) :
    Accounts (meet u met) address r.2 := by
  have hmono {s : CallState} (h : Accounts met address s) : Accounts (meet u met) address s :=
    h.mono Set.subset_union_right
  cases h with
  | afresh => cases hu
  | decided _ | bare _ | met _ | compared _ => exact hmono hs
  | fields _ _ _ hm _ _ => exact hmono (hs.congr hm)
  | missing _ _ hm =>
    obtain rfl := ht
    obtain rfl := Option.some.inj hu
    exact hs.cons hm
  | fragment _ _ _ hm _ =>
    obtain rfl := ht
    obtain rfl := Option.some.inj hu
    exact hs.cons hm
  | undefined _ _ hm =>
    obtain rfl := Option.some.inj hu
    rcases hm with hm | hm
    · exact hmono (hs.congr hm)
    · exact hs.insert hm
  | pair _ _ _ _ hm _ _ =>
    obtain rfl := Option.some.inj hu
    exact hs.insert hm

theorem Task.returns_fields_snd (exclusive : Bool) (c : Candidate) (s : CallState)
    (inner : List Conflict × CallState) :
    (Task.returns schema (.fields exclusive c) s inner).2 = (s.1, inner.2.2) := by
  rw [Task.returns]
  split <;> rfl

/-- The calls of a call are about the same set, or what they meet is forgotten afterwards. -/
theorem Task.Expands.passes (h : t.Expands schema d s r) (ht : t.At address)
    (hs : Accounts met address s) (inner : List Conflict × CallState) :
    ∃ last, Passes address r.1 last ∧ ∀ more : Set Subject, met ⊆ more →
      Accounts more last inner.2 → Accounts more address (t.returns schema s inner).2 := by
  cases h with
  | afresh => exact ht.elim
  | decided _ | bare _ =>
    refine ⟨address, .nil, fun more hsub hinner => ?_⟩
    rw [Task.returns_fields_snd]
    exact ⟨hinner.pairs, fun hn => hsub (hs.names hn)⟩
  | @fields exclusive c names m m' e e' _ _ _ _ _ _ =>
    refine ⟨e'.address, passes_ofSets address e e', fun more hsub hinner => ?_⟩
    rw [Task.returns_fields_snd]
    exact ⟨hinner.pairs, fun hn => hsub (hs.names hn)⟩
  | met _ | missing _ _ _ | compared _ | undefined _ _ _ =>
    exact ⟨address, .nil, fun _ _ hinner => hinner⟩
  | @fragment exclusive e other name names m m' place f _ _ _ _ _ =>
    refine ⟨address, ?_, fun _ _ hinner => hinner⟩
    exact (Passes.map (.fields exclusive) (fun _ => trivial) _).append
      (.map (.fragment exclusive e) (fun _ => ht) _)
  | @pair exclusive a b names m m' e e' place place' f g _ _ _ _ _ _ _ =>
    refine ⟨address, ?_, fun _ _ hinner => hinner⟩
    have hpairs (pairs : List (String × String)) :
        Passes address (pairs.map (.pair exclusive)) address :=
      .map (.pair exclusive) (fun _ => trivial) pairs
    exact ((Passes.map (.fields exclusive) (fun _ => trivial) _).append (hpairs _)).append (hpairs _)

/-- What is left out because it was met before was met. -/
theorem Accounts.mem_of_repeats (hs : Accounts met address s) (ht : t.At address)
    (hu : t.subject? = some u) (hrepeats : t.Repeats s) : u ∈ met := by
  cases t with
  | fragment exclusive e name =>
    obtain rfl := ht
    obtain rfl := Option.some.inj hu
    exact hs.names hrepeats
  | pair exclusive p =>
    obtain rfl := Option.some.inj hu
    exact hs.pairs hrepeats
  | fields _ _ | afresh | within _ _ _ => exact hrepeats.elim

/-- One call: what it meets and does not know is settled by what its own calls meet. -/
theorem Task.Expands.grows {inner : List Conflict × CallState} (h : t.Expands schema d s r)
    (hstands : t.Stands schema d) (ht : t.At address) (hu : t.subject? = some u)
    (hs : Accounts met address s) (hswap : ∀ v ∈ met, v.swap ∈ met)
    (hnil : (t.returns schema s inner).1 = [])
    (hinner : ∀ last, Accounts (meet u met) address r.2 → Passes address r.1 last →
      inner.1 = [] → ∃ more, Grows schema d (meet u met) more ∧
        (∀ v ∈ Task.subjects r.1, v ∈ more) ∧ Accounts more last inner.2) :
    ∃ more, Grows schema d met more ∧ u ∈ more ∧
      Accounts more address (t.returns schema s inner).2 := by
  obtain ⟨hempty, hdecided⟩ := (Task.returns_eq_nil_iff schema t s inner).mp hnil
  obtain ⟨last, hpasses, hafter⟩ := h.passes ht hs inner
  obtain ⟨more, hgrows, hcalls, haccounts⟩ := hinner last (h.accounts ht hu hs) hpasses hempty
  refine ⟨more, hgrows.of_meet hswap ?_, hgrows.subset (.inl (.inl rfl)), ?_⟩
  · by_cases hrepeats : t.Repeats s
    · exact .inl (hs.mem_of_repeats ht hu hrepeats)
    · exact .inr ⟨fun hclash => hdecided (Task.decided_of_unmergeable hu hclash),
        fun v hv => hcalls v (h.covers hstands hdecided hrepeats hu hv)⟩
  · exact hafter more (Set.subset_union_right.trans hgrows.subset) haccounts

end Steps

section Explored

variable {met : Set Subject} {address last : Address} {tasks : List Task} {s : CallState}
  {result : List Conflict × CallState}

/-- If nothing is found, then all that is compared is met, and all that is met for the first time is
settled. -/
theorem Runs.explores (hruns : Runs schema d tasks s result)
    (hstands : ∀ t ∈ tasks, t.Stands schema d) (hfaithful : Faithful schema d s.2)
    (hpasses : Passes address tasks last) (hs : Accounts met address s)
    (hswap : ∀ u ∈ met, u.swap ∈ met) (hnil : result.1 = []) :
    ∃ more, Grows schema d met more ∧ (∀ u ∈ Task.subjects tasks, u ∈ more) ∧
      Accounts more last result.2 := by
  -- The induction is on the tree of calls, for all that may have been met before: a call adds its
  -- subject first, so the pairs of fragments that are still under way count as met.
  induction hruns generalizing address last met with
  | nil =>
    cases hpasses
    exact ⟨met, .refl hswap, fun u hu => absurd hu List.not_mem_nil, hs⟩
  | @cons t rest s inner later hcalls _ ihCalls ihRest =>
    obtain ⟨ht, hrest⟩ := List.forall_mem_cons.mp hstands
    obtain ⟨hfirst, hlater⟩ := List.append_eq_nil_iff.mp hnil
    have hexpands := Task.expands_calls ht hfaithful
    have hinner : Faithful schema d (t.returns schema s inner).2.2 := by
      rw [Task.returns_memory]
      exact hcalls.faithful (hexpands.stands ht) (hexpands.faithful hfaithful)
    cases hpasses with
    | @afresh _ start _ _ hpasses =>
      -- No fragments are left that were met, so the calls may go on with another set.
      have hforgotten : Accounts met start (Task.calls schema d .afresh s).2 :=
        ⟨hs.pairs, fun hn => absurd hn List.not_mem_nil⟩
      obtain ⟨more, hgrows, -, haccounts⟩ := ihCalls (hexpands.stands ht)
        (hexpands.faithful hfaithful) .nil hforgotten hswap hfirst
      obtain ⟨most, hgrows', hmet, haccounts'⟩ := ihRest hrest hinner hpasses haccounts hgrows.swap
        hlater
      exact ⟨most, hgrows.trans hgrows', hmet, haccounts'⟩
    | cons hat hpasses =>
      obtain ⟨u, hu⟩ := hat.exists_subject
      obtain ⟨more, hgrows, hmore, haccounts⟩ := hexpands.grows ht hat hu hs hswap hfirst
        fun last haccounts hpasses hempty => ihCalls (hexpands.stands ht)
          (hexpands.faithful hfaithful) hpasses haccounts (swap_mem_meet hswap) hempty
      obtain ⟨most, hgrows', hmet, haccounts'⟩ := ihRest hrest hinner hpasses haccounts hgrows.swap
        hlater
      refine ⟨most, hgrows.trans hgrows', fun v hv => ?_, haccounts'⟩
      rcases Task.mem_subjects_cons.mp hv with hv | hv
      · obtain rfl := Option.some.inj (hu.symm.trans hv)
        exact hgrows'.subset hmore
      · exact hmet v hv

/-- What is settled from the beginning has no values inside that cannot be merged. -/
theorem Grows.not_clashes {more : Set Subject} (h : Grows schema d ∅ more) {u : Subject}
    (hu : u ∈ more) : ¬ u.Clashes schema d := by
  have hsettled {v : Subject} (hv : v ∈ more) := h.settled v hv (Set.notMem_empty v)
  rintro ⟨v, hreach, hclash⟩
  induction hreach using Relation.ReflTransGen.head_induction_on with
  | refl => exact (hsettled hu).1 hclash
  | head hinvolves _ ih => exact ih ((hsettled hu).2 _ hinvolves)

end Explored

end GraphQLCheck.Overlap
