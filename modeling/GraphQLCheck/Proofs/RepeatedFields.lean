import GraphQLCheck.Proofs.Scanning.Reading

/-!
# Repeated fields are found in the text

A document does not keep the fields that its object literals give more than once; they are searched
for in the text, without the grammar. For a text that can be read the search finds what the literals
of the document repeat, one entry for a repetition and nothing else, in the order of the text.

There is one exception. A carriage return may stand in a string, and the search takes it for the end
of the string; then it takes the closing mark for an opening one and goes wrong from there on. With
such a string in the text repetitions can be missed, and others can be found where there are none.

## What is proved

* `repeatedFields_names_eq` — without such strings the names found are those of the repetitions.
* `repeatedFields_wrong_after_return` — with one they may be too few or too many.
-/

namespace GraphQLCheck

/-- No string of a text, block strings apart, has a carriage return in it. -/
def Token.NoReturns (text : List Char) : Prop :=
  ∀ x ∈ cuts text, RepeatedField.breaksLine x.2.raw = false

instance (text : List Char) : Decidable (Token.NoReturns text) :=
  inferInstanceAs (Decidable (∀ x ∈ Token.cuts text, RepeatedField.breaksLine x.2.raw = false))

/-- In a text that can be read and has no carriage return in a string, the search finds one entry
for each field whose name stands before among the fields of the same object literal, in the order of
the text, and no others. -/
theorem repeatedFields_names_eq (text : String) (d : Document)
    (hread : Document.ofText text = .ok d) (hreturns : Token.NoReturns text.toList) :
    d.repeatedFields.map (·.name) = d.repeats.map (·.name) := by
  -- The reader and the search have the same tokens, each at its own positions.
  have hplaces : List.Forall₂ (RepeatedField.Moved fun _ _ _ => True) (Token.lex text.toList)
      (Token.place Position.start (Token.cuts text.toList)) := by
    have htokens : (Token.lex text.toList).map (·.token) =
        (Token.place Position.start (Token.cuts text.toList)).map (·.token) := by
      rw [Token.map_token_place, Token.lex, Token.map_token_lexFrom]
    rw [← List.forall₂_eq_eq_eq, List.forall₂_map_left_iff, List.forall₂_map_right_iff] at htokens
    exact htokens.imp fun t t' ht => ⟨ht, fun _ _ => trivial⟩
  have hmoved := Document.repeatedFields_moved hread hreturns hplaces
  have hnames : List.Forall₂ (· = ·) (d.repeats.map (·.name)) (d.repeatedFields.map (·.name)) := by
    rw [List.forall₂_map_left_iff, List.forall₂_map_right_iff]
    exact hmoved.imp fun entry entry' h => h.name
  rw [List.forall₂_eq_eq_eq] at hnames
  exact hnames.symm

/-! ### A literal inside a literal -/

/-- A literal that repeats a field around one that repeats its own. -/
def nestedText : String := "\x7b f(a: \x7bx: A, y: [\x7bz: \"x:\", z: B\x7d], x: C\x7d) \x7d"

/-- The document that it spells. -/
def nestedDocument : Document :=
  ⟨[.bare ⟨⟨⟨1, 1⟩, ⟨1, 44⟩⟩, [.field ⟨⟨1, 3⟩, none, "f", [⟨"a", .object
      [(⟨"x", ⟨1, 9⟩⟩, .atom (.enum "A")),
        (⟨"y", ⟨1, 15⟩⟩, .list [.object
          [(⟨"z", ⟨1, 20⟩⟩, .atom (.string "x:")), (⟨"z", ⟨1, 29⟩⟩, .atom (.enum "B"))]]),
        (⟨"x", ⟨1, 37⟩⟩, .atom (.enum "C"))]⟩], []⟩ ⟨⟨1, 3⟩, ⟨1, 3⟩⟩ []]⟩],
    [⟨"z", ⟨1, 20⟩, ⟨1, 29⟩⟩, ⟨"x", ⟨1, 9⟩, ⟨1, 37⟩⟩]⟩

/-- Both repetitions are found, the inner one first. -/
theorem repeatedFields_nested :
    Document.ofText nestedText = .ok nestedDocument ∧ Token.NoReturns nestedText.toList ∧
      nestedDocument.repeatedFields.map (·.name) = nestedDocument.repeats.map (·.name) ∧
      nestedDocument.repeats.map (·.name) = ["z", "x"] := by
  have hread : Document.ofText nestedText = .ok nestedDocument := by decide +kernel
  have hreturns : Token.NoReturns nestedText.toList := by decide +kernel
  exact ⟨hread, hreturns, repeatedFields_names_eq nestedText nestedDocument hread hreturns, rfl⟩

/-- After a string with a carriage return a repetition is missed, or found inside another string. -/
theorem repeatedFields_wrong_after_return :
    (Document.ofText "\x7b f(arg: \x7b a: \"x\r\", a: 2 \x7d) \x7d").toOption.map
        (fun d => (d.repeatedFields.map (·.name), d.repeats.map (·.name))) = some ([], ["a"]) ∧
      (Document.ofText "\x7b f(a: \"\r\", b: \"\x7bx: 1, x: 2\x7d\") \x7d").toOption.map
        (fun d => (d.repeatedFields.map (·.name), d.repeats.map (·.name))) = some (["x"], []) := by
  constructor
  · decide +kernel
  · decide +kernel

end GraphQLCheck
