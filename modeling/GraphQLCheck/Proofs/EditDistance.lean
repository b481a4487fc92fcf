import GraphQLCheck.Suggestion
import Mathlib.Data.Set.Operations
import Mathlib.Order.Bounds.Basic
import Mathlib.Order.MinMax

/-!
# The fewest edits between two texts

A script goes through a text once, from its first character to its last, and leaves another text
behind (`Script`). The distance that suggestions are chosen by is computed from a table instead, row
by row. Here it is shown to be the least number of edits of all scripts between the two texts.

## What is proved

* `isLeast_cons_cons` — what a script can do first, and so how a number of the table comes from its
  neighbours.
* `isRow_rows` — each row of the table has the least numbers of edits to all suffixes.
* `headOr_rows_reverse` — a table over prefixes ends with the same number as the one over suffixes.
* `distance_is_fewest_edits` — the distance is the least number of edits; so it is the same in both
  directions, zero for equal texts only, and bounded by the lengths of the texts.
-/

namespace GraphQLCheck.Suggestion

/-! ### Scripts -/

/-- A way to turn one text into another, from the first character to the last. Every character is
kept or edited once. Two neighbours that are swapped are done with: neither is edited again, and
nothing comes between them. -/
inductive Script : List Char → List Char → Type where
  /-- Nothing is left to do. -/
  | done : Script [] []
  /-- Go past a character. -/
  | keep {a b : List Char} (c : Char) (rest : Script a b) : Script (c :: a) (c :: b)
  /-- Put in a character. -/
  | insert {a b : List Char} (c : Char) (rest : Script a b) : Script a (c :: b)
  /-- Take away a character. -/
  | remove {a b : List Char} (c : Char) (rest : Script a b) : Script (c :: a) b
  /-- Put one character for another. -/
  | replace {a b : List Char} (c d : Char) (rest : Script a b) : Script (c :: a) (d :: b)
  /-- Swap two neighbours. -/
  | swap {a b : List Char} (c d : Char) (rest : Script a b) : Script (c :: d :: a) (d :: c :: b)

namespace Script

variable {a b : List Char}

/-- The number of edits of a script. All steps but `keep` are edits. -/
@[simp]
def edits {a b : List Char} : Script a b → ℕ
  | done => 0
  | keep _ rest => rest.edits
  | insert _ rest => rest.edits + 1
  | remove _ rest => rest.edits + 1
  | replace _ _ rest => rest.edits + 1
  | swap _ _ rest => rest.edits + 1

/-- The script in the other direction. -/
def undo {a b : List Char} : Script a b → Script b a
  | done => done
  | keep c rest => keep c rest.undo
  | insert c rest => remove c rest.undo
  | remove c rest => insert c rest.undo
  | replace c d rest => replace d c rest.undo
  | swap c d rest => swap d c rest.undo

/-- The script that puts in a whole text. -/
def write : (b : List Char) → Script [] b
  | [] => done
  | d :: b => insert d (write b)

/-- The script that keeps nothing: it writes one text over the other. -/
def overwrite : (a b : List Char) → Script a b
  | [], b => write b
  | c :: a, [] => remove c (overwrite a [])
  | c :: a, d :: b => replace c d (overwrite a b)

/-- One script after another, each for a part of the texts. -/
def append {a b a' b' : List Char} : Script a b → Script a' b' → Script (a ++ a') (b ++ b')
  | done, after => after
  | keep c rest, after => keep c (rest.append after)
  | insert c rest, after => insert c (rest.append after)
  | remove c rest, after => remove c (rest.append after)
  | replace c d rest, after => replace c d (rest.append after)
  | swap c d rest, after => swap c d (rest.append after)

@[simp]
theorem edits_undo (s : Script a b) : s.undo.edits = s.edits := by
  induction s with
  | done => rfl
  | keep c rest ih => exact ih
  | insert c rest ih | remove c rest ih | replace c d rest ih | swap c d rest ih =>
    simp [undo, edits, ih]

theorem edits_append {a' b' : List Char} (s : Script a b) (after : Script a' b') :
    (s.append after).edits = s.edits + after.edits := by
  induction s with
  | done => simp [append]
  | keep c rest ih => exact ih
  | insert c rest ih | remove c rest ih | replace c d rest ih | swap c d rest ih =>
    simp only [append, edits, ih]
    omega

theorem edits_write (b : List Char) : (write b).edits = b.length := by
  induction b with
  | nil => rfl
  | cons d b ih => simp [write, edits, ih]

theorem edits_overwrite (a b : List Char) : (overwrite a b).edits = max a.length b.length := by
  induction a generalizing b with
  | nil => simp [overwrite, edits_write]
  | cons c a ih => cases b <;> simp [overwrite, edits, ih]

/-- An edit makes a text longer by one character at most. -/
theorem length_le (s : Script a b) : b.length ≤ a.length + s.edits := by
  induction s with
  | done => simp
  | keep c rest ih | insert c rest ih | remove c rest ih | replace c d rest ih
  | swap c d rest ih =>
    simp only [edits, List.length_cons]
    omega

/-- A script without edits changes nothing. -/
theorem eq_of_edits_eq_zero (s : Script a b) (h : s.edits = 0) : a = b := by
  induction s with
  | done => rfl
  | keep c rest ih => rw [ih h]
  | insert c rest | remove c rest | replace c d rest | swap c d rest => cases h

end Script

/-! ### Least numbers of edits -/

/-- The numbers of edits of all scripts between two texts. -/
def editCounts (as bs : List Char) : Set ℕ := Set.range fun s : Script as bs => s.edits

variable {a b : Char} {as bs : List Char} {m n x y z : ℕ}

/-- From the empty text all characters are put in. -/
theorem isLeast_nil_left (bs : List Char) : IsLeast (editCounts [] bs) bs.length := by
  constructor
  · exact ⟨.write bs, Script.edits_write bs⟩
  · rintro _ ⟨s, rfl⟩
    simpa using s.length_le

/-- To the empty text all characters are taken away. -/
theorem isLeast_nil_right (as : List Char) : IsLeast (editCounts as []) as.length := by
  constructor
  · exact ⟨.overwrite as [], by simp [Script.edits_overwrite]⟩
  · rintro _ ⟨s, rfl⟩
    simpa using s.undo.length_le

theorem min_mem_editCounts (hm : m ∈ editCounts as bs) (hn : n ∈ editCounts as bs) :
    min m n ∈ editCounts as bs := by
  rcases min_choice m n with h | h
  · rwa [h]
  · rwa [h]

theorem remove_mem_editCounts (h : n ∈ editCounts as bs) (a : Char) :
    n + 1 ∈ editCounts (a :: as) bs := by
  obtain ⟨s, rfl⟩ := h
  exact ⟨.remove a s, rfl⟩

theorem insert_mem_editCounts (h : n ∈ editCounts as bs) (b : Char) :
    n + 1 ∈ editCounts as (b :: bs) := by
  obtain ⟨s, rfl⟩ := h
  exact ⟨.insert b s, rfl⟩

/-- Putting one character for another is an edit only if they differ. -/
theorem replace_mem_editCounts (h : n ∈ editCounts as bs) (a b : Char) :
    n + replaceCost a b ∈ editCounts (a :: as) (b :: bs) := by
  obtain ⟨s, rfl⟩ := h
  by_cases hab : a = b
  · subst hab
    exact ⟨.keep a s, by simp [Script.edits, replaceCost]⟩
  · exact ⟨.replace a b s, by simp [Script.edits, replaceCost, hab]⟩

/-- Swapping two neighbours is an edit only if they differ; two equal ones are kept. -/
theorem swap_mem_editCounts (h : n ∈ editCounts as bs) (a b : Char) :
    n + replaceCost a b ∈ editCounts (a :: b :: as) (b :: a :: bs) := by
  obtain ⟨s, rfl⟩ := h
  by_cases hab : a = b
  · subst hab
    exact ⟨.keep a (.keep a s), by simp [Script.edits, replaceCost]⟩
  · exact ⟨.swap a b s, by simp [Script.edits, replaceCost, hab]⟩

/-- A text needs no edits to stay as it is. -/
theorem zero_mem_editCounts (as : List Char) : 0 ∈ editCounts as as := by
  induction as with
  | nil => exact ⟨.done, rfl⟩
  | cons a as ih =>
    obtain ⟨s, hs⟩ := ih
    exact ⟨.keep a s, hs⟩

theorem append_mem_editCounts {as' bs' : List Char} (hm : m ∈ editCounts as bs)
    (hn : n ∈ editCounts as' bs') : m + n ∈ editCounts (as ++ as') (bs ++ bs') := by
  obtain ⟨s, rfl⟩ := hm
  obtain ⟨after, rfl⟩ := hn
  exact ⟨s.append after, s.edits_append after⟩

theorem replaceCost_le_one (a b : Char) : replaceCost a b ≤ 1 := by
  unfold replaceCost
  split <;> omega

/-- A number of edits is the least one if no first step leads to fewer. A swap comes first only
where the first two characters are the same crosswise. -/
theorem isLeast_of_first_step (hremove : IsLeast (editCounts as (b :: bs)) x)
    (hinsert : IsLeast (editCounts (a :: as) bs) y) (hreplace : IsLeast (editCounts as bs) z)
    (hn : n ∈ editCounts (a :: as) (b :: bs))
    (hle : n ≤ min (min (x + 1) (y + 1)) (z + replaceCost a b))
    (hswap : ∀ as' bs', as = b :: as' → bs = a :: bs' → ∀ s : Script as' bs', n ≤ s.edits + 1) :
    IsLeast (editCounts (a :: as) (b :: bs)) n := by
  refine ⟨hn, ?_⟩
  rintro _ ⟨s, rfl⟩
  cases s with
  | keep c rest =>
    have hrest : z ≤ rest.edits := hreplace.2 ⟨rest, rfl⟩
    have hcost : replaceCost a a = 0 := if_pos rfl
    simp only [Script.edits]
    omega
  | insert c rest =>
    have hrest : y ≤ rest.edits := hinsert.2 ⟨rest, rfl⟩
    simp only [Script.edits]
    omega
  | remove c rest =>
    have hrest : x ≤ rest.edits := hremove.2 ⟨rest, rfl⟩
    simp only [Script.edits]
    omega
  | replace c d rest =>
    have hrest : z ≤ rest.edits := hreplace.2 ⟨rest, rfl⟩
    have hcost := replaceCost_le_one a b
    simp only [Script.edits]
    omega
  | swap c d rest => exact hswap _ _ rfl rfl rest

/-! ### Reversed texts -/

/-- A script can be followed from the last step to the first. -/
theorem edits_mem_editCounts_reverse (s : Script as bs) :
    s.edits ∈ editCounts as.reverse bs.reverse := by
  induction s with
  | done => exact ⟨.done, rfl⟩
  | keep c rest ih => simpa using append_mem_editCounts ih (zero_mem_editCounts [c])
  | insert c rest ih =>
    have hlast : 1 ∈ editCounts [] [c] := ⟨.insert c .done, rfl⟩
    simpa using append_mem_editCounts ih hlast
  | remove c rest ih =>
    have hlast : 1 ∈ editCounts [c] [] := ⟨.remove c .done, rfl⟩
    simpa using append_mem_editCounts ih hlast
  | replace c d rest ih =>
    have hlast : 1 ∈ editCounts [c] [d] := ⟨.replace c d .done, rfl⟩
    simpa using append_mem_editCounts ih hlast
  | swap c d rest ih =>
    -- Two neighbours that are swapped are neighbours in the reversed text too.
    have hlast : 1 ∈ editCounts [d, c] [c, d] := ⟨.swap d c .done, rfl⟩
    simpa using append_mem_editCounts ih hlast

theorem editCounts_reverse (as bs : List Char) :
    editCounts as.reverse bs.reverse = editCounts as bs := by
  apply Set.Subset.antisymm
  · rintro _ ⟨s, rfl⟩
    simpa using edits_mem_editCounts_reverse s
  · rintro _ ⟨s, rfl⟩
    exact edits_mem_editCounts_reverse s

/-! ### Rows of the table -/

/-- There is a way over a swap exactly if the first two characters are the same crosswise. -/
theorem swap?_eq_some_iff {before : List ℕ} :
    swap? a as.head? b bs before = some n ↔
      ∃ as' bs', as = b :: as' ∧ bs = a :: bs' ∧ n = headOr before + replaceCost a b := by
  cases as with
  | nil => simp [swap?]
  | cons a' as' =>
    cases bs with
    | nil => simp [swap?]
    | cons b' bs' =>
      by_cases h : a = b' ∧ a' = b
      · obtain ⟨rfl, rfl⟩ := h
        simp [swap?, eq_comm]
      · simp only [swap?, List.head?_cons, if_neg h, List.cons.injEq]
        constructor
        · intro hnone
          cases hnone
        · rintro ⟨_, _, ⟨rfl, -⟩, ⟨rfl, -⟩, -⟩
          exact absurd ⟨rfl, rfl⟩ h

theorem nextRow_cons (a : Char) (second? : Option Char) (b : Char) (bs : List Char)
    (row before : List ℕ) :
    nextRow a second? (b :: bs) row before =
      (swap? a second? b bs before.tail.tail).elim
        (min (min (headOr row + 1) (headOr (nextRow a second? bs row.tail before.tail) + 1))
          (headOr row.tail + replaceCost a b))
        (min (min (min (headOr row + 1) (headOr (nextRow a second? bs row.tail before.tail) + 1))
          (headOr row.tail + replaceCost a b))) :: nextRow a second? bs row.tail before.tail := by
  rw [nextRow]
  cases swap? a second? b bs before.tail.tail <;> rfl

/-- A number of the table comes from its neighbours: those after a removal, an insertion and a
replacement, and the one after a swap where there is one. -/
theorem isLeast_cons_cons {before : List ℕ} (hremove : IsLeast (editCounts as (b :: bs)) x)
    (hinsert : IsLeast (editCounts (a :: as) bs) y) (hreplace : IsLeast (editCounts as bs) z)
    (hswap : ∀ as' bs', as = b :: as' → bs = a :: bs' →
      IsLeast (editCounts as' bs') (headOr before)) :
    IsLeast (editCounts (a :: as) (b :: bs))
      ((swap? a as.head? b bs before).elim (min (min (x + 1) (y + 1)) (z + replaceCost a b))
        (min (min (min (x + 1) (y + 1)) (z + replaceCost a b)))) := by
  have hplain : min (min (x + 1) (y + 1)) (z + replaceCost a b) ∈
      editCounts (a :: as) (b :: bs) := by
    apply min_mem_editCounts
    · exact min_mem_editCounts (remove_mem_editCounts hremove.1 a)
        (insert_mem_editCounts hinsert.1 b)
    · exact replace_mem_editCounts hreplace.1 a b
  cases hcrossed : swap? a as.head? b bs before with
  | none =>
    refine isLeast_of_first_step hremove hinsert hreplace hplain le_rfl ?_
    intro as' bs' has hbs
    have hsome : swap? a as.head? b bs before = some (headOr before + replaceCost a b) :=
      swap?_eq_some_iff.mpr ⟨as', bs', has, hbs, rfl⟩
    rw [hcrossed] at hsome
    cases hsome
  | some swapped =>
    obtain ⟨as', bs', rfl, rfl, rfl⟩ := swap?_eq_some_iff.mp hcrossed
    have hbest := hswap as' bs' rfl rfl
    refine isLeast_of_first_step hremove hinsert hreplace
      (min_mem_editCounts hplain (swap_mem_editCounts hbest.1 a b)) (min_le_left _ _) ?_
    rintro _ _ ⟨⟩ ⟨⟩ s
    have hrest : headOr before ≤ s.edits := hbest.2 ⟨s, rfl⟩
    have hcost := replaceCost_le_one a b
    simp only [Option.elim_some]
    omega

/-- The row of `as` has the least numbers of edits from `as` to a text and to all its shorter
suffixes. -/
inductive IsRow (as : List Char) : List Char → List ℕ → Prop where
  /-- The last number is that to the empty text. -/
  | last {n : ℕ} : IsLeast (editCounts as []) n → IsRow as [] [n]
  /-- The first number is that to the whole text. -/
  | cons {b : Char} {bs : List Char} {n : ℕ} {row : List ℕ} :
      IsLeast (editCounts as (b :: bs)) n → IsRow as bs row → IsRow as (b :: bs) (n :: row)

namespace IsRow

variable {row before : List ℕ}

theorem head (h : IsRow as bs row) : IsLeast (editCounts as bs) (headOr row) := by
  cases h with
  | last hn => exact hn
  | cons hn _ => exact hn

theorem tail (h : IsRow as (b :: bs) row) : IsRow as bs row.tail := by
  cases h with
  | cons _ hrow => exact hrow

theorem emptyRow (bs : List Char) : IsRow [] bs (Suggestion.emptyRow bs) := by
  induction bs with
  | nil => exact .last (isLeast_nil_left [])
  | cons b bs ih => exact .cons (isLeast_nil_left (b :: bs)) ih

/-- The row of a text comes from that of its tail and that of the tail of its tail. -/
theorem nextRow (a : Char) (hrow : IsRow as bs row)
    (hbefore : ∀ a' as', as = a' :: as' → IsRow as' bs before) :
    IsRow (a :: as) bs (Suggestion.nextRow a as.head? bs row before) := by
  induction bs generalizing row before with
  | nil =>
    have hrow : headOr row = as.length := hrow.head.unique (isLeast_nil_right as)
    rw [Suggestion.nextRow, hrow]
    exact .last (isLeast_nil_right (a :: as))
  | cons b bs ih =>
    have hright := ih hrow.tail fun a' as' has => (hbefore a' as' has).tail
    rw [nextRow_cons]
    refine .cons (isLeast_cons_cons hrow.head hright.head hrow.tail.head ?_) hright
    rintro as' bs' rfl rfl
    exact (hbefore b as' rfl).tail.tail.head

end IsRow

/-- What is computed for a text is its row and that of its tail. -/
theorem isRow_rows (as bs : List Char) :
    IsRow as bs (rows as bs).1 ∧ ∀ a' as', as = a' :: as' → IsRow as' bs (rows as bs).2 := by
  induction as with
  | nil => exact ⟨.emptyRow bs, nofun⟩
  | cons a as ih =>
    refine ⟨ih.1.nextRow a ih.2, ?_⟩
    rintro _ _ ⟨⟩
    exact ih.1

/-- The rows are over suffixes of the texts. Those of the reversed texts, which are over prefixes of
the texts themselves, lead to the same number. -/
theorem headOr_rows_reverse (as bs : List Char) :
    headOr (rows as.reverse bs.reverse).1 = headOr (rows as bs).1 := by
  have hreversed := (isRow_rows as.reverse bs.reverse).1.head
  rw [editCounts_reverse] at hreversed
  exact hreversed.unique (isRow_rows as bs).1.head

/-! ### The distance -/

theorem isLeast_distance (a b : String) :
    IsLeast (editCounts a.toList b.toList) (distance a b) :=
  (isRow_rows a.toList b.toList).1.head

theorem distance_le_swapped (a b : String) : distance a b ≤ distance b a := by
  obtain ⟨s, hs⟩ := (isLeast_distance b a).1
  rw [← hs]
  exact (isLeast_distance a b).2 ⟨s.undo, s.edits_undo⟩

theorem distance_eq_zero_iff (a b : String) : distance a b = 0 ↔ a = b := by
  constructor
  · intro h
    obtain ⟨s, hs⟩ := (isLeast_distance a b).1
    exact String.toList_injective (s.eq_of_edits_eq_zero (hs.trans h))
  · rintro rfl
    exact Nat.le_zero.mp ((isLeast_distance a a).2 (zero_mem_editCounts a.toList))

theorem natAbs_sub_length_le (a b : String) :
    ((a.length : ℤ) - b.length).natAbs ≤ distance a b := by
  obtain ⟨s, hs⟩ := (isLeast_distance a b).1
  have hlonger := s.length_le
  have hshorter := s.undo.length_le
  simp only [Script.edits_undo, String.length_toList] at hlonger hshorter hs
  omega

theorem distance_le_max_length (a b : String) : distance a b ≤ max a.length b.length := by
  rw [← String.length_toList, ← String.length_toList]
  exact (isLeast_distance a b).2 ⟨.overwrite a.toList b.toList, Script.edits_overwrite _ _⟩

/-- The distance of two texts is the least number of edits of all scripts that turn one into the
other: some script has as many, and none has fewer. So the distance is the same in both directions,
zero for equal texts only, and between the difference of the lengths and the greater length. -/
theorem distance_is_fewest_edits (a b : String) :
    (∃ s : Script a.toList b.toList, s.edits = distance a b) ∧
      (∀ s : Script a.toList b.toList, distance a b ≤ s.edits) ∧
      distance a b = distance b a ∧ (distance a b = 0 ↔ a = b) ∧
      ((a.length : ℤ) - b.length).natAbs ≤ distance a b ∧
      distance a b ≤ max a.length b.length :=
  ⟨(isLeast_distance a b).1, fun s => (isLeast_distance a b).2 ⟨s, rfl⟩,
    (distance_le_swapped a b).antisymm (distance_le_swapped b a), distance_eq_zero_iff a b,
    natAbs_sub_length_le a b, distance_le_max_length a b⟩

/-- The two characters that are swapped would have to be taken apart again. -/
example : distance "ca" "abc" = 3 := by decide

end GraphQLCheck.Suggestion
