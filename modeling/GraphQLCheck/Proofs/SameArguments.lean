import GraphQLCheck.Proofs.Overlap.Reference
import GraphQLCheck.Proofs.Printing.Readable
import GraphQLCheck.Validation

/-!
# Comparing arguments

Two fields under one response name can be merged only if they have the same arguments. Arguments are
compared by the texts of their values. The order in which they stand does not matter, nor that of
the fields of an object, and for values that are read from a text the comparison is exact but for
one thing: a float may be printed like a whole number, or like the enum value `inf`, and is then
taken for it. Without such floats the same arguments are those with the same names and equal values.

## What is proved

* `sameArguments_iff_render` — arguments are the same if each name is given values with one text.
* `sameArguments_as_printed` — that is, the same value as printed; in general not the same value.
* `whole_float_taken_for_int` — the arguments `a: 1` and `a: 1.0` are the same.
-/

namespace GraphQLCheck

/-! ### Lists of arguments -/

namespace Overlap

variable {first second : List Argument}

/-- Two lists of arguments have the same names, and give to each name values that are the same in
some sense. -/
structure GiveSame (same : Literal → Literal → Prop) (first second : List Argument) : Prop where
  /-- A name stands in both lists or in none. -/
  names : ∀ text, text ∈ first.map (·.name) ↔ text ∈ second.map (·.name)
  /-- Values of one name are the same. -/
  values : ∀ a ∈ first, ∀ b ∈ second, a.name = b.name → same a.value b.value

theorem GiveSame.congr {same same' : Literal → Literal → Prop}
    (h : ∀ a ∈ first, ∀ b ∈ second, same a.value b.value ↔ same' a.value b.value) :
    GiveSame same first second ↔ GiveSame same' first second := by
  constructor
  · rintro ⟨hnames, hvalues⟩
    exact ⟨hnames, fun a ha b hb hname => (h a ha b hb).mp (hvalues a ha b hb hname)⟩
  · rintro ⟨hnames, hvalues⟩
    exact ⟨hnames, fun a ha b hb hname => (h a ha b hb).mpr (hvalues a ha b hb hname)⟩

/-- Arguments without repetitions are the same if each name is given values with one text. -/
theorem sameArguments_iff_render (hfirst : (first.map (·.name)).Nodup)
    (hsecond : (second.map (·.name)).Nodup) :
    sameArguments first second = true ↔
      GiveSame (fun l l' => l.render = l'.render) first second := by
  rw [sameArguments_iff_perm hfirst, List.perm_ext_iff_of_nodup hfirst hsecond]
  constructor
  · rintro ⟨hnames, hvalues⟩
    exact ⟨hnames, hvalues⟩
  · rintro ⟨hnames, hvalues⟩
    exact ⟨hnames, hvalues⟩

/-- Arguments whose values are read from a text, without repetitions, are the same if each name is
given values that are the same as printed. If all these values are printed like no others, they have
to be equal. -/
theorem sameArguments_as_printed (hfirst : (first.map (·.name)).Nodup)
    (hsecond : (second.map (·.name)).Nodup) (hread : ∀ a ∈ first ++ second, a.written.Read) :
    (sameArguments first second = true ↔
      GiveSame (fun l l' => l.asPrinted = l'.asPrinted) first second) ∧
    ((∀ a ∈ first ++ second, a.value.OwnTexts) →
      (sameArguments first second = true ↔ GiveSame Eq first second)) := by
  have hprinted : sameArguments first second = true ↔
      GiveSame (fun l l' => l.asPrinted = l'.asPrinted) first second := by
    rw [sameArguments_iff_render hfirst hsecond]
    refine GiveSame.congr fun a ha b hb => Literal.render_eq_iff ?_ ?_
    · exact (hread a (List.mem_append_left _ ha)).readable
    · exact (hread b (List.mem_append_right _ hb)).readable
  refine ⟨hprinted, fun hown => hprinted.trans (GiveSame.congr fun a ha b hb => ?_)⟩
  rw [(hown a (List.mem_append_left _ ha)).asPrinted_eq,
    (hown b (List.mem_append_right _ hb)).asPrinted_eq]

/-! ### Arguments in another order -/

/-- A text with three values. -/
def boxText : String := "\x7bb: 1.5, a: $v\x7d RED \x7ba: $v, b: 1.5\x7d"

/-- The double 1.5. -/
def threeHalves : Binary64 := .finite false 6755399441055744 (-52)

/-- The lexemes of that text. -/
def boxLexemes : List Lexeme :=
  [⟨.punctuator .openBrace, ⟨1, 1⟩⟩, ⟨.name "b", ⟨1, 2⟩⟩, ⟨.punctuator .colon, ⟨1, 3⟩⟩,
    ⟨.float threeHalves, ⟨1, 5⟩⟩, ⟨.name "a", ⟨1, 10⟩⟩, ⟨.punctuator .colon, ⟨1, 11⟩⟩,
    ⟨.punctuator .dollar, ⟨1, 13⟩⟩, ⟨.name "v", ⟨1, 14⟩⟩, ⟨.punctuator .closeBrace, ⟨1, 15⟩⟩,
    ⟨.name "RED", ⟨1, 17⟩⟩,
    ⟨.punctuator .openBrace, ⟨1, 21⟩⟩, ⟨.name "a", ⟨1, 22⟩⟩, ⟨.punctuator .colon, ⟨1, 23⟩⟩,
    ⟨.punctuator .dollar, ⟨1, 25⟩⟩, ⟨.name "v", ⟨1, 26⟩⟩, ⟨.name "b", ⟨1, 29⟩⟩,
    ⟨.punctuator .colon, ⟨1, 30⟩⟩, ⟨.float threeHalves, ⟨1, 32⟩⟩,
    ⟨.punctuator .closeBrace, ⟨1, 35⟩⟩]

/-- The first and the second value as arguments. -/
def boxArguments : List Argument :=
  [⟨"x", .object
      [(⟨"b", ⟨1, 2⟩⟩, .atom (.float threeHalves)), (⟨"a", ⟨1, 10⟩⟩, .atom (.var "v"))]⟩,
    ⟨"y", .atom (.enum "RED")⟩]

/-- The second and the last value as arguments. -/
def boxReordered : List Argument :=
  [⟨"y", .atom (.enum "RED")⟩,
    ⟨"x", .object
      [(⟨"a", ⟨1, 22⟩⟩, .atom (.var "v")), (⟨"b", ⟨1, 29⟩⟩, .atom (.float threeHalves))]⟩]

theorem read_box : ∀ a ∈ boxArguments ++ boxReordered, a.written.Read := by
  have hlex : Token.lex boxText.toList = boxLexemes := by decide +kernel
  have hfirst : Reader.written false 1 (boxLexemes.drop 0) =
      .ok ((boxArguments.head (by decide)).written, boxLexemes.drop 9) := by decide +kernel
  have hred : Reader.written false 1 (boxLexemes.drop 9) =
      .ok (.atom (.enum "RED"), boxLexemes.drop 10) := rfl
  have hlast : Reader.written false 1 (boxLexemes.drop 10) =
      .ok ((boxReordered.getLast (by decide)).written, []) := by decide +kernel
  simp only [boxArguments, boxReordered, List.cons_append, List.nil_append, List.forall_mem_cons]
  exact ⟨Written.read_of_lex hlex 0 hfirst, Written.read_of_lex hlex 9 hred,
    Written.read_of_lex hlex 9 hred, Written.read_of_lex hlex 10 hlast,
    fun a ha => absurd ha List.not_mem_nil⟩

theorem ownTexts_box : ∀ a ∈ boxArguments ++ boxReordered, a.value.OwnTexts := by
  have hhalves : (Atom.float threeHalves).OwnText := ⟨by decide +kernel, by decide⟩
  have hobject :
      (Literal.object [("a", .atom (.var "v")), ("b", .atom (.float threeHalves))]).OwnTexts := by
    refine .object (fun _ _ => trivial) ?_
    simp only [List.forall_mem_cons]
    exact ⟨.atom trivial, .atom hhalves, fun a ha => absurd ha List.not_mem_nil⟩
  simp only [boxArguments, boxReordered, List.cons_append, List.nil_append, List.forall_mem_cons]
  exact ⟨hobject, .atom trivial, .atom trivial, hobject, fun a ha => absurd ha List.not_mem_nil⟩

/-- The order of arguments and that of fields do not matter. -/
theorem sameArguments_reordered :
    (boxArguments.map (·.name)).Nodup ∧ (boxReordered.map (·.name)).Nodup ∧
      (∀ a ∈ boxArguments ++ boxReordered, a.written.Read) ∧
      (∀ a ∈ boxArguments ++ boxReordered, a.value.OwnTexts) ∧
      sameArguments boxArguments boxReordered = true ∧ GiveSame Eq boxArguments boxReordered := by
  have hfirst : (boxArguments.map (·.name)).Nodup := by decide
  have hsecond : (boxReordered.map (·.name)).Nodup := by decide
  have hsame : sameArguments boxArguments boxReordered = true := by decide
  exact ⟨hfirst, hsecond, read_box, ownTexts_box, hsame,
    ((sameArguments_as_printed hfirst hsecond read_box).2 ownTexts_box).mp hsame⟩

/-! ### A whole number and a float -/

/-- A document in which one field is selected with a whole number and with a float. -/
def onesText : String := "\x7b f(a: 1) f(a: 1.0) \x7d"

/-- The lexemes of that text. -/
def onesLexemes : List Lexeme :=
  [⟨.punctuator .openBrace, ⟨1, 1⟩⟩, ⟨.name "f", ⟨1, 3⟩⟩, ⟨.punctuator .openParen, ⟨1, 4⟩⟩,
    ⟨.name "a", ⟨1, 5⟩⟩, ⟨.punctuator .colon, ⟨1, 6⟩⟩, ⟨.int 1, ⟨1, 8⟩⟩,
    ⟨.punctuator .closeParen, ⟨1, 9⟩⟩, ⟨.name "f", ⟨1, 11⟩⟩, ⟨.punctuator .openParen, ⟨1, 12⟩⟩,
    ⟨.name "a", ⟨1, 13⟩⟩, ⟨.punctuator .colon, ⟨1, 14⟩⟩,
    ⟨.float (.finite false 4503599627370496 (-52)), ⟨1, 16⟩⟩,
    ⟨.punctuator .closeParen, ⟨1, 19⟩⟩, ⟨.punctuator .closeBrace, ⟨1, 21⟩⟩]

/-- The argument `a: 1`. -/
def intOne : Argument := ⟨"a", .atom (.int 1)⟩

/-- The argument `a: 1.0`. -/
def floatOne : Argument := ⟨"a", .atom (.float (.finite false 4503599627370496 (-52)))⟩

/-- The document that the text spells. -/
def onesDocument : Document :=
  ⟨[.bare ⟨⟨⟨1, 1⟩, ⟨1, 21⟩⟩,
    [.field ⟨⟨1, 3⟩, none, "f", [intOne], []⟩ ⟨⟨1, 3⟩, ⟨1, 3⟩⟩ [],
      .field ⟨⟨1, 11⟩, none, "f", [floatOne], []⟩ ⟨⟨1, 11⟩, ⟨1, 11⟩⟩ []]⟩], []⟩

/-- The definition of a query type with a field that has a parameter for a float. -/
def onesType : List Sdl.Definition :=
  [.type ⟨⟨1, 1⟩, "Query", .object []
    [⟨⟨1, 14⟩, "f", [⟨⟨1, 16⟩, "a", .named "Float" true, none⟩], .named "Int" true, []⟩]⟩]

/-- The schema of that definition. -/
def onesSchema : Schema := (Schema.ofDefinitions "ones" onesType).toOption.getD default

theorem read_ones : ∀ a ∈ [intOne] ++ [floatOne], a.written.Read := by
  have hlex : Token.lex onesText.toList = onesLexemes := by decide +kernel
  have hint : Reader.written false 1 (onesLexemes.drop 5) =
      .ok (intOne.written, onesLexemes.drop 6) := rfl
  have hfloat : Reader.written false 1 (onesLexemes.drop 11) =
      .ok (floatOne.written, onesLexemes.drop 12) := rfl
  simp only [List.cons_append, List.nil_append, List.forall_mem_cons]
  exact ⟨Written.read_of_lex hlex 5 hint, Written.read_of_lex hlex 11 hfloat,
    fun a ha => absurd ha List.not_mem_nil⟩

/-- The whole number and the float are different values that are taken for the same, and the two
fields are merged without a finding. -/
theorem whole_float_taken_for_int :
    (∀ a ∈ [intOne] ++ [floatOne], a.written.Read) ∧ ¬ GiveSame Eq [intOne] [floatOne] ∧
      sameArguments [intOne] [floatOne] = true ∧
      Document.ofText onesText = .ok onesDocument ∧
      (Validation.ofRules [.overlappingFieldsCanBeMerged]).diagnostics onesSchema onesDocument =
        [] := by
  refine ⟨read_ones, fun h => ?_, by decide, ?_, by decide⟩
  · cases h.values intOne List.mem_cons_self floatOne List.mem_cons_self rfl
  · decide +kernel

end Overlap

end GraphQLCheck
