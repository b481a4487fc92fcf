import GraphQLCheck.Decimal.Binary64
import GraphQLCheck.Text.Position

/-!
# Literals

A `Written` literal is what stands in a text: the fields of an object in the order in which they
were written, each name with its position. A `Literal` is the value that it denotes: the fields of
an object sorted by name, a repeated field standing for its last value.
-/

namespace GraphQLCheck

/-- A literal without parts. -/
inductive Atom where
  /-- A variable, without its dollar sign. -/
  | var (name : String)
  /-- A whole number. -/
  | int (value : Int)
  /-- A number with a fraction or an exponent. -/
  | float (value : Binary64)
  /-- A string, without quotes and escapes. -/
  | string (text : String)
  /-- `true` or `false`. -/
  | bool (value : Bool)
  /-- `null`. -/
  | null
  /-- Any other name. -/
  | enum (name : String)
  deriving DecidableEq, Repr, Inhabited

/-- The value of a literal. -/
inductive Literal where
  /-- A literal without parts. -/
  | atom (value : Atom)
  /-- A list of values. -/
  | list (items : List Literal)
  /-- An object, its fields sorted by name. -/
  | object (fields : List (String × Literal))
  deriving Repr, Inhabited

/-- The name of an object field where it is written. -/
structure FieldName where
  /-- The name. -/
  name : String
  /-- The position of the name. -/
  position : Position
  deriving DecidableEq, Repr, Inhabited

/-- A literal as it is written. -/
inductive Written where
  /-- A literal without parts. -/
  | atom (value : Atom)
  /-- A list between brackets. -/
  | list (items : List Written)
  /-- An object between braces, its fields in the order of the text. -/
  | object (fields : List (FieldName × Written))
  deriving Repr, Inhabited

namespace Written

mutual

/-- Decide whether two written literals are the same. -/
def decEq : (a b : Written) → Decidable (a = b)
  | atom a, atom b => decidable_of_decidable_of_iff (p := a = b) (by simp)
  | list a, list b =>
    match itemsDecEq a b with
    | isTrue h => isTrue (h ▸ rfl)
    | isFalse h => isFalse fun heq => h (list.inj heq)
  | object a, object b =>
    match fieldsDecEq a b with
    | isTrue h => isTrue (h ▸ rfl)
    | isFalse h => isFalse fun heq => h (object.inj heq)
  | atom _, list _ | atom _, object _ | list _, atom _ | list _, object _ | object _, atom _
  | object _, list _ => isFalse nofun

/-- Decide whether two lists of items are the same. -/
def itemsDecEq : (a b : List Written) → Decidable (a = b)
  | [], [] => isTrue rfl
  | [], _ :: _ | _ :: _, [] => isFalse nofun
  | a :: as, b :: bs =>
    match decEq a b, itemsDecEq as bs with
    | isTrue h, isTrue h' => isTrue (h ▸ h' ▸ rfl)
    | isFalse h, _ => isFalse fun heq => h (List.cons.inj heq).1
    | _, isFalse h => isFalse fun heq => h (List.cons.inj heq).2

/-- Decide whether two lists of fields are the same. -/
def fieldsDecEq : (a b : List (FieldName × Written)) → Decidable (a = b)
  | [], [] => isTrue rfl
  | [], _ :: _ | _ :: _, [] => isFalse nofun
  | (m, a) :: as, (n, b) :: bs =>
    match decEq a b, fieldsDecEq as bs with
    | isTrue h, isTrue h' => decidable_of_decidable_of_iff (p := m = n) (by simp [h, h'])
    | isFalse h, _ => isFalse fun heq => h (Prod.mk.inj (List.cons.inj heq).1).2
    | _, isFalse h => isFalse fun heq => h (List.cons.inj heq).2

end

instance : DecidableEq Written := decEq

end Written

namespace Literal

/-- Put a field in its place among fields sorted by name; a field of that name is replaced. -/
def insertField (name : String) (value : Literal) :
    List (String × Literal) → List (String × Literal)
  | [] => [(name, value)]
  | (other, kept) :: rest =>
    if name < other then (name, value) :: (other, kept) :: rest
    else if name = other then (name, value) :: rest
    else (other, kept) :: insertField name value rest

/-- The fields of an object sorted by name, the last of several with one name kept. -/
def sortFields (fields : List (String × Literal)) : List (String × Literal) :=
  fields.foldl (fun sorted field => insertField field.1 field.2 sorted) []

end Literal

namespace Written

mutual

/-- The value that a written literal denotes. -/
def toLiteral : Written → Literal
  | atom value => .atom value
  | list items => .list (itemLiterals items)
  | object fields => .object (Literal.sortFields (fieldLiterals fields))

/-- The values of the items of a list. -/
def itemLiterals : List Written → List Literal
  | [] => []
  | item :: rest => item.toLiteral :: itemLiterals rest

/-- The fields of an object as written, each with its value. -/
def fieldLiterals : List (FieldName × Written) → List (String × Literal)
  | [] => []
  | (name, value) :: rest => (name.name, value.toLiteral) :: fieldLiterals rest

end

end Written

end GraphQLCheck
