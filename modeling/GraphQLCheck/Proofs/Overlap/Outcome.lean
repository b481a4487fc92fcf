import GraphQLCheck.Proofs.Overlap.Entries
import GraphQLCheck.Proofs.Overlap.Ranks

/-!
# What a search for conflicts establishes

A search passes on a state. An `Outcome` says of one search what can be said of all: if it finds
something there is a conflict in the weak sense, and if it finds nothing there is none in the strong
sense, provided that the state says of what was searched before only what is true. That is also the
case afterwards, as long as nothing is found.

The pairs of fragments that the memory holds as compared are not all compared already: those around
the present comparison are still under way. They all have a greater sum of ranks than the pairs that
are met inside, so what the memory says is claimed for sums below a `level` only, and other pairs are
left alone (`memoryRegime`).
-/

namespace GraphQLCheck.Overlap

/-- What searches keep about the state that they pass on. -/
structure Regime (σ : Type) where
  /-- Holds of the state at any time. -/
  ok : σ → Prop
  /-- Holds of the state as long as nothing is found. -/
  inv : σ → Prop
  /-- What is left alone. -/
  same : σ → σ → Prop
  /-- A state is left alone by doing nothing. -/
  refl : ∀ s, same s s
  /-- What is left alone twice is left alone. -/
  trans : ∀ {s t u}, same s t → same t u → same s u

/-- The result of a search from a state: it finds something only if `weak` holds, and nothing only if
`strong` does not. -/
structure Outcome {β σ : Type} (regime : Regime σ) (weak strong : Prop) (s : σ)
    (result : List β × σ) : Prop where
  /-- The new state is as all states. -/
  ok : regime.ok result.2
  /-- The new state differs only in what the search may change. -/
  same : regime.same s result.2
  /-- What is found is there. -/
  sound : result.1 ≠ [] → weak
  /-- The invariant is kept if nothing is found. -/
  keeps : result.1 = [] → regime.inv s → regime.inv result.2
  /-- What is there is found. -/
  complete : result.1 = [] → regime.inv s → ¬ strong

namespace Outcome

variable {α β σ : Type} {regime : Regime σ} {weak strong weak' strong' : Prop} {s t : σ}

theorem nothing (hok : regime.ok s) (h : regime.inv s → ¬ strong) :
    Outcome (β := β) regime weak strong s ([], s) :=
  ⟨hok, regime.refl s, fun h => absurd rfl h, fun _ hs => hs, fun _ hs => h hs⟩

theorem idle (hok : regime.ok s) : Outcome (β := β) regime False False s ([], s) :=
  .nothing hok fun _ => not_false

theorem imp {result : List β × σ} (h : Outcome regime weak strong s result)
    (hweak : weak → weak') (hstrong : strong' → strong) :
    Outcome regime weak' strong' s result :=
  ⟨h.ok, h.same, fun hne => hweak (h.sound hne), h.keeps,
    fun hnil hs hstrong' => h.complete hnil hs (hstrong hstrong')⟩

/-- It matters only whether something is found. -/
theorem of_nil_iff {γ : Type} {found : List β} {other : List γ}
    (h : Outcome regime weak strong s (found, t)) (hnil : other = [] ↔ found = []) :
    Outcome regime weak strong s (other, t) :=
  ⟨h.ok, h.same, fun hne => h.sound fun hfound => hne (hnil.mpr hfound),
    fun hother => h.keeps (hnil.mp hother), fun hother => h.complete (hnil.mp hother)⟩

/-- One search after another. -/
theorem append {u : σ} {found more : List β} (h : Outcome regime weak strong s (found, t))
    (h' : Outcome regime weak' strong' t (more, u)) :
    Outcome regime (weak ∨ weak') (strong ∨ strong') s (found ++ more, u) where
  ok := h'.ok
  same := regime.trans h.same h'.same
  sound := by
    intro hne
    by_cases hfound : found = []
    · exact .inr (h'.sound fun hmore => hne (List.append_eq_nil_iff.mpr ⟨hfound, hmore⟩))
    · exact .inl (h.sound hfound)
  keeps := by
    intro hnil hs
    obtain ⟨hfound, hmore⟩ := List.append_eq_nil_iff.mp hnil
    exact h'.keeps hmore (h.keeps hfound hs)
  complete := by
    intro hnil hs
    obtain ⟨hfound, hmore⟩ := List.append_eq_nil_iff.mp hnil
    rintro (hstrong | hstrong)
    · exact h.complete hfound hs hstrong
    · exact h'.complete hmore (h.keeps hfound hs) hstrong

/-- One search for each element of a list. -/
theorem forEach {find : α → σ → List β × σ} (weak strong : α → Prop) (list : List α)
    (hok : regime.ok s)
    (h : ∀ a ∈ list, ∀ s, regime.ok s → Outcome regime (weak a) (strong a) s (find a s)) :
    Outcome regime (∃ a ∈ list, weak a) (∃ a ∈ list, strong a) s
      (Overlap.forEach find list s) := by
  induction list generalizing s with
  | nil =>
    refine .nothing hok fun _ => ?_
    rintro ⟨a, ha, -⟩
    cases ha
  | cons a list ih =>
    have hfirst := h a List.mem_cons_self s hok
    have hrest := ih hfirst.ok fun b hb => h b (List.mem_cons_of_mem a hb)
    refine (hfirst.append hrest).imp ?_ ?_
    · rintro (hweak | ⟨b, hb, hweak⟩)
      · exact ⟨a, List.mem_cons_self, hweak⟩
      · exact ⟨b, List.mem_cons_of_mem a hb, hweak⟩
    · rintro ⟨b, hb, hstrong⟩
      rcases List.mem_cons.mp hb with rfl | hb
      · exact .inl hstrong
      · exact .inr ⟨b, hb, hstrong⟩

end Outcome

/-! ### Fields that meet -/

section Meet

variable {related related' : Occurrence → Occurrence → Prop} {these those : Occurrence → Prop}

theorem Meet.symm (hsymm : ∀ {x y}, related x y → related y x) (h : Meet related these those) :
    Meet related those these := by
  obtain ⟨x, y, hx, hy, hne, hname, hxy⟩ := h
  exact ⟨y, x, hy, hx, hne.symm, hname.symm, hsymm hxy⟩

theorem Meet.imp {these' those' : Occurrence → Prop} (h : Meet related these those)
    (hrelated : ∀ {x y}, related x y → related' x y) (hthese : ∀ {x}, these x → these' x)
    (hthose : ∀ {x}, those x → those' x) : Meet related' these' those' := by
  obtain ⟨x, y, hx, hy, hne, hname, hxy⟩ := h
  exact ⟨x, y, hthese hx, hthose hy, hne, hname, hrelated hxy⟩

/-- Fields meet those of one side that are its own or come through one of several names. -/
theorem meet_right_iff {own : Occurrence → Prop} {through : String → Occurrence → Prop}
    {names : List String} (h : ∀ y, those y ↔ own y ∨ ∃ n ∈ names, through n y) :
    Meet related these those ↔
      Meet related these own ∨ ∃ n ∈ names, Meet related these (through n) := by
  constructor
  · rintro ⟨x, y, hx, hy, hrest⟩
    rcases (h y).mp hy with hy | ⟨n, hn, hy⟩
    · exact .inl ⟨x, y, hx, hy, hrest⟩
    · exact .inr ⟨n, hn, x, y, hx, hy, hrest⟩
  · rintro (⟨x, y, hx, hy, hrest⟩ | ⟨n, hn, x, y, hx, hy, hrest⟩)
    · exact ⟨x, y, hx, (h y).mpr (.inl hy), hrest⟩
    · exact ⟨x, y, hx, (h y).mpr (.inr ⟨n, hn, hy⟩), hrest⟩

theorem meet_left_iff {own : Occurrence → Prop} {through : String → Occurrence → Prop}
    {names : List String} (h : ∀ x, these x ↔ own x ∨ ∃ n ∈ names, through n x) :
    Meet related these those ↔
      Meet related own those ∨ ∃ n ∈ names, Meet related (through n) those := by
  constructor
  · rintro ⟨x, y, hx, hrest⟩
    rcases (h x).mp hx with hx | ⟨n, hn, hx⟩
    · exact .inl ⟨x, y, hx, hrest⟩
    · exact .inr ⟨n, hn, x, y, hx, hrest⟩
  · rintro (⟨x, y, hx, hrest⟩ | ⟨n, hn, x, y, hx, hrest⟩)
    · exact ⟨x, y, (h x).mpr (.inl hx), hrest⟩
    · exact ⟨x, y, (h x).mpr (.inr ⟨n, hn, hx⟩), hrest⟩

end Meet

section Memory

variable (schema : Schema) (d : Document) (rank : String → ℕ)

/-- Fields conflict if their arguments are taken to differ as soon as they do in one order. -/
abbrev Weakly (exclusive : Bool) : Occurrence → Occurrence → Prop :=
  Conflicts schema d DifferEitherWay exclusive

/-- Fields conflict if their arguments are taken to differ only if they do in both orders. -/
abbrev Strongly (exclusive : Bool) : Occurrence → Occurrence → Prop :=
  Conflicts schema d DifferBothWays exclusive

/-- No two fields conflict that one fragment of a number below the bound selects. -/
def Trusted (bound : ℕ) : Prop :=
  ∀ name, rank name < bound →
    ¬ Meet (Strongly schema d false) (FragmentSelects schema d name) (FragmentSelects schema d name)

/-- Fields that two fragments select conflict, although those that one fragment selects do not. -/
def Trouble (exclusive : Bool) (a b : String) : Prop :=
  Trusted schema d rank (max (rank a) (rank b) + 1) ∧
    Meet (Strongly schema d exclusive) (FragmentSelects schema d a) (FragmentSelects schema d b)

/-- The memory knows what sets select, and there is no trouble with pairs that it holds as compared
if their sum of ranks is below the level. Other pairs are left alone. -/
def memoryRegime (level : ℕ) : Regime Memory where
  ok := Faithful schema d
  inv m := ∀ a b exclusive, rank a + rank b < level → m.compared.contains a b exclusive = true →
    ¬ Trouble schema d rank exclusive a b
  same m m' := ∀ a b exclusive, level ≤ rank a + rank b →
    m'.compared.contains a b exclusive = m.compared.contains a b exclusive
  refl := fun _ _ _ _ _ => rfl
  trans := fun h h' a b exclusive hle => (h' a b exclusive hle).trans (h a b exclusive hle)

end Memory

section Regime

variable {schema : Schema} {d : Document} {rank : String → ℕ} {weak strong : Prop}

theorem Trusted.mono {bound less : ℕ} (h : Trusted schema d rank bound) (hle : less ≤ bound) :
    Trusted schema d rank less :=
  fun name hname => h name (lt_of_lt_of_le hname hle)

theorem Trouble.symm {exclusive : Bool} {a b : String}
    (h : Trouble schema d rank exclusive a b) : Trouble schema d rank exclusive b a := by
  obtain ⟨htrusted, hmeet⟩ := h
  rw [max_comm] at htrusted
  exact ⟨htrusted, hmeet.symm (Conflicts.symm differBothWays_symm)⟩

/-- An outcome for a level holds for every greater one. -/
theorem Outcome.mono {β : Type} {m : Memory} {result : List β × Memory} {level more : ℕ}
    (h : Outcome (memoryRegime schema d rank level) weak strong m result) (hle : level ≤ more) :
    Outcome (memoryRegime schema d rank more) weak strong m result := by
  have hinv (hm : (memoryRegime schema d rank more).inv m) :
      (memoryRegime schema d rank level).inv m :=
    fun a b exclusive hlt => hm a b exclusive (lt_of_lt_of_le hlt hle)
  refine ⟨h.ok, fun a b exclusive hmore => h.same a b exclusive (hle.trans hmore), h.sound, ?_,
    fun hnil hm => h.complete hnil (hinv hm)⟩
  intro hnil hm a b exclusive hlt hcontains
  by_cases hlevel : rank a + rank b < level
  · exact h.keeps hnil (hinv hm) a b exclusive hlevel hcontains
  · rw [h.same a b exclusive (Nat.le_of_not_lt hlevel)] at hcontains
    exact hm a b exclusive hlt hcontains

/-- Looking up entries first does not change an outcome. -/
theorem Outcome.of_compared_eq {β : Type} {m m' : Memory} {result : List β × Memory} {level : ℕ}
    (h : Outcome (memoryRegime schema d rank level) weak strong m' result)
    (heq : m'.compared = m.compared) :
    Outcome (memoryRegime schema d rank level) weak strong m result := by
  obtain ⟨hok, hsame, hsound, hkeeps, hcomplete⟩ := h
  simp only [memoryRegime, heq] at hsame hkeeps hcomplete
  exact ⟨hok, hsame, hsound, hkeeps, hcomplete⟩

end Regime

end GraphQLCheck.Overlap
