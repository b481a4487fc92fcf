import GraphQLCheck.Proofs.FieldMerging
import GraphQLCheck.Proofs.Typing.Reached
import GraphQLCheck.Proofs.Typing.Stored

/-!
# Three traversals, one typing

A document is gone through in three ways: by the walk, which has a stack of types and puts only
composite ones on it; by the search for the uses of variables, which passes a type on as an argument
and follows references to fragments; and by the search for fields that cannot be merged, which keeps
the fields of a set as they were when the set was first met, in the walk, in a comparison of two
fields or through a reference. Each derives the types of sets and the definitions of fields for
itself.

All three find the definitions of `d.typedFields schema` (`traversals_type_alike`), for every schema
and every document: a field may be unknown, fields of scalar type may have selections, and fragments
may refer to one another in cycles. They differ at most in a type that is not composite, which a
traversal may take to be missing; such a type has no fields that could be selected.
-/

namespace GraphQLCheck

open Overlap

/-- The walk, the search for the uses of variables of any operation and what the search for conflicts
has stored at any point agree with the fields listed, each of which has an address of its own. -/
theorem traversals_type_alike (schema : Schema) (d : Document) :
    ((d.typedFields schema).map (·.address)).Nodup ∧
    (d.visits schema).filterMap Visit.fieldView? = (d.typedFields schema).map (·.known.view) ∧
    (∀ (number : ℕ) (definition : Definition) (o : Operation),
      d.definitions[number]? = some definition → definition.operation? = some o →
      o.variableUses schema d = (o.reached schema d number).flatMap (·.uses schema) ∧
      ∀ x, .field x ∈ o.reached schema d number → x ∈ d.typedFields schema) ∧
    (∀ before after, d.visits schema = before ++ after →
      ∀ x ∈ (memoryAfter schema d before).stored, ∃ o ∈ d.typedFields schema,
        x = { o with parent? := x.parent? } ∧ MayDrop o.parent? x.parent?) ∧
    ∀ o ∈ d.typedFields schema,
      ∃ x ∈ (memoryAfter schema d (d.visits schema)).stored, x.address = o.address := by
  refine ⟨d.nodup_typedFields schema, d.fieldView?_visits schema, ?_, ?_, ?_⟩
  · intro number definition o hnumber ho
    refine ⟨o.variableUses_eq_flatMap schema d number, fun x hx => ?_⟩
    exact Document.mem_typedFields.mpr (Operation.hasField_of_reached hnumber ho hx)
  · intro before after hsplit x hx
    have hbefore : before ⊆ d.visits schema := hsplit ▸ List.subset_append_left before after
    obtain ⟨o, ho, heq, hdrop⟩ := isStored_of_memoryAfter hbefore hx
    exact ⟨o, Document.mem_typedFields.mpr ho, heq, hdrop⟩
  · intro o ho
    exact exists_stored_memoryAfter (Document.mem_typedFields.mp ho)

/-- A query that selects a scalar field twice, each time as if it had fields of its own, once inside
an inline fragment without a condition. -/
def belowScalar : Document :=
  let inner : Selection := pairField 7 []
  let outer (column : ℕ) (items : List Selection) : Selection :=
    .field ⟨⟨1, column⟩, none, "f", [], []⟩ ⟨⟨1, column⟩, ⟨1, column⟩⟩ items
  ⟨[.bare ⟨⟨⟨1, 1⟩, ⟨1, 30⟩⟩, [outer 3 [inner],
    outer 11 [.inline ⟨⟨1, 15⟩, none, []⟩ ⟨⟨1, 15⟩, ⟨1, 20⟩⟩ [inner]]]⟩], []⟩

/-- Below a scalar field one field is stored twice: by the comparison of the two scalar fields, which
knows the scalar type, and by the walk of the inline fragment, which does not. The definition is the
same. -/
theorem typed_alike_below_scalar :
    ∃ x ∈ (memoryAfter pairSchema belowScalar (belowScalar.visits pairSchema)).stored,
    ∃ y ∈ (memoryAfter pairSchema belowScalar (belowScalar.visits pairSchema)).stored,
      x.address = y.address ∧ x.parent?.isSome ∧ y.parent? = none ∧
        x.definition? = y.definition? := by
  obtain ⟨hunique, -, -, hstored, -⟩ := traversals_type_alike pairSchema belowScalar
  have htwice : ∃ x ∈ (memoryAfter pairSchema belowScalar (belowScalar.visits pairSchema)).stored,
      ∃ y ∈ (memoryAfter pairSchema belowScalar (belowScalar.visits pairSchema)).stored,
        x.address = y.address ∧ x.parent?.isSome ∧ y.parent?.isNone := by
    decide +kernel
  obtain ⟨x, hx, y, hy, haddress, hsome, hnone⟩ := htwice
  obtain ⟨o, ho, hxo, -⟩ := hstored _ _ (List.append_nil _).symm x hx
  obtain ⟨o', ho', hyo, -⟩ := hstored _ _ (List.append_nil _).symm y hy
  have hplace : o.address = o'.address := by rwa [hxo, hyo] at haddress
  obtain rfl := List.inj_on_of_nodup_map hunique ho ho' hplace
  refine ⟨x, hx, y, hy, haddress, hsome, Option.isNone_iff_eq_none.mp hnone, ?_⟩
  rw [hxo, hyo]

end GraphQLCheck
