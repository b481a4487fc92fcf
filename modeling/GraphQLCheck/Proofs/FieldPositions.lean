import GraphQLCheck.Proofs.RepeatedFields
import GraphQLCheck.Proofs.Scanning.Coordinates

/-!
# Where repeated fields are reported

The search for repeated fields reports each repetition at the positions of the two names, as they
are if every character counts for one column. These are not the positions that the reader gives to the
same two names: a tab before a name on its line makes a difference of seven columns, a carriage
return or a byte order mark one of a column the other way, and a comment that a carriage return ends
one of a line. The positions are the same where these make no difference, and so in every text that
has none of them between its tokens.

## What is proved

* `repeatedFields_positions` — which names are reported, where, and when the reader has them there.
* `repeatedFields_shifted` — texts in which the reader has them elsewhere.
-/

namespace GraphQLCheck

/-- There is no tab, carriage return or byte order mark between the tokens of a text. -/
def Token.PlainGaps (text : List Char) : Prop := ∀ x ∈ cuts text, Drift.isPlain x.1 = true

instance (text : List Char) : Decidable (Token.PlainGaps text) :=
  inferInstanceAs (Decidable (∀ x ∈ Token.cuts text, Drift.isPlain x.1 = true))

/-- In a text that can be read and has no carriage return in a string, each entry that the search
finds stands for one repetition in the document, and says for the same two names where they stand if
every character counts for one column. The reader has a name at that position if and only if there
is no drift before it. -/
theorem repeatedFields_positions (text : String) (d : Document)
    (hread : Document.ofText text = .ok d) (hreturns : Token.NoReturns text.toList) :
    List.Forall₂ (RepeatedField.EntryMoved fun name p q =>
        ∃ δ, Token.NameAt text.toList name δ p q ∧ (p = q ↔ δ = .zero)) d.repeats d.repeatedFields ∧
      (Token.PlainGaps text.toList → d.repeatedFields = d.repeats) := by
  have hmoved := Document.repeatedFields_moved hread hreturns
    (Token.moved_lexFrom (Token.reached_start text.toList))
  constructor
  · refine hmoved.imp fun entry entry' ⟨hname, ⟨δ, hfirst⟩, δ', hagain⟩ => ?_
    exact ⟨hname, ⟨δ, hfirst, hfirst.eq_iff⟩, δ', hagain, hagain.eq_iff⟩
  · intro hplain
    have hsame : List.Forall₂ (· = ·) d.repeats d.repeatedFields := by
      refine hmoved.imp fun ⟨name, first, again⟩ ⟨name', first', again'⟩ h => ?_
      obtain ⟨rfl, ⟨δ, hfirst⟩, δ', hagain⟩ := h
      obtain rfl := hfirst.eq_of_plain hplain
      obtain rfl := hagain.eq_of_plain hplain
      rfl
    rw [List.forall₂_eq_eq_eq] at hsame
    exact hsame.symm

/-- A text with a tab before a repetition. -/
def tabText : String := "\x7b f(a: \x7bx: A,\n\tx: B\x7d) \x7d"

/-- The document that it spells. -/
def tabDocument : Document :=
  ⟨[.bare ⟨⟨⟨1, 1⟩, ⟨2, 16⟩⟩, [.field ⟨⟨1, 3⟩, none, "f", [⟨"a", .object
      [(⟨"x", ⟨1, 9⟩⟩, .atom (.enum "A")), (⟨"x", ⟨2, 9⟩⟩, .atom (.enum "B"))]⟩], []⟩
      ⟨⟨1, 3⟩, ⟨1, 3⟩⟩ []]⟩],
    [⟨"x", ⟨1, 9⟩, ⟨2, 2⟩⟩]⟩

/-- The tab moves the second of two names, and in a text without tabs none is moved. -/
theorem repeatedFields_positions_tab :
    Document.ofText tabText = .ok tabDocument ∧ Token.NoReturns tabText.toList ∧
      List.Forall₂ (RepeatedField.EntryMoved fun name p q =>
          ∃ δ, Token.NameAt tabText.toList name δ p q ∧ (p = q ↔ δ = .zero))
        tabDocument.repeats tabDocument.repeatedFields ∧
      tabDocument.repeats = [⟨"x", ⟨1, 9⟩, ⟨2, 9⟩⟩] ∧
      Document.ofText nestedText = .ok nestedDocument ∧ Token.NoReturns nestedText.toList ∧
      Token.PlainGaps nestedText.toList ∧
      nestedDocument.repeatedFields = nestedDocument.repeats := by
  have htab : Document.ofText tabText = .ok tabDocument := by decide +kernel
  have htabReturns : Token.NoReturns tabText.toList := by decide +kernel
  have hnested : Document.ofText nestedText = .ok nestedDocument := by decide +kernel
  have hnestedReturns : Token.NoReturns nestedText.toList := by decide +kernel
  have hplain : Token.PlainGaps nestedText.toList := by decide +kernel
  exact ⟨htab, htabReturns, (repeatedFields_positions tabText tabDocument htab htabReturns).1, rfl,
    hnested, hnestedReturns, hplain,
    (repeatedFields_positions nestedText nestedDocument hnested hnestedReturns).2 hplain⟩

/-- What is found and what is read differ by seven columns after a tab, by one column after a byte
order mark, and by a line after a comment that ends with a carriage return. -/
theorem repeatedFields_shifted :
    (Document.ofText "\x7b f(arg: \x7b\ta: 1, a: 2 \x7d) \x7d").toOption.map
        (fun d => (d.repeatedFields, d.repeats)) =
      some ([⟨"a", ⟨1, 12⟩, ⟨1, 18⟩⟩], [⟨"a", ⟨1, 19⟩, ⟨1, 25⟩⟩]) ∧
    (Document.ofText "\uFEFF\x7b f(a: \x7bx: 1, x: 2\x7d) \x7d").toOption.map
        (fun d => (d.repeatedFields, d.repeats)) =
      some ([⟨"x", ⟨1, 10⟩, ⟨1, 16⟩⟩], [⟨"x", ⟨1, 9⟩, ⟨1, 15⟩⟩]) ∧
    (Document.ofText "# c\r\x7b f(a: \x7bx: 1, x: 2\x7d) \x7d").toOption.map
        (fun d => (d.repeatedFields, d.repeats)) =
      some ([⟨"x", ⟨1, 13⟩, ⟨1, 19⟩⟩], [⟨"x", ⟨2, 9⟩, ⟨2, 15⟩⟩]) := by
  refine ⟨?_, ?_, ?_⟩
  · decide +kernel
  · decide +kernel
  · decide +kernel

end GraphQLCheck
