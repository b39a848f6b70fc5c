import EnumReflection.Table.Basic
import EnumReflection.Text.Decimal

/-!
# Repeated names and values

Look-ups find the first of several members with the same name or value, which the author of a
declaration rarely means. Each member that repeats an earlier one is reported with the index of the
first member that it repeats, its name before its value. One pass over the members does this: it
notes where each name and each value was seen first.
-/
namespace EnumReflection

/-- A member that repeats the name or the value of an earlier one, and the index of the first
member that has it. -/
inductive Duplicate
  | name (member : Member Int) (first : Nat)
  | value (member : Member Int) (first : Nat)
  deriving DecidableEq, Repr

namespace Duplicate

def message : Duplicate → Text
  | .name m first =>
    "member ".toList ++ Text.decimal m.index ++ " repeats the name `".toList ++
      m.name ++ "` of member ".toList ++ Text.decimal first ++
      "; lookups by name find member ".toList ++ Text.decimal first
  | .value m first =>
    "member ".toList ++ Text.decimal m.index ++ " (`".toList ++ m.name ++
      "`) repeats the value ".toList ++ Text.signedDecimal m.value ++ " of member ".toList ++
      Text.decimal first ++ "; lookups by value find member ".toList ++ Text.decimal first

/-- The index at which each name and each value was seen first. -/
structure Seen where
  names : List (Text × Nat)
  values : List (Int × Nat)
  deriving Repr

/-- A key that a member has: it is reported if it was seen before, and else noted down. -/
def note {κ : Type} [BEq κ] (report : Nat → Duplicate) (key : κ) (index : Nat)
    (seen : List (κ × Nat)) : List Duplicate × List (κ × Nat) :=
  match seen.lookup key with
  | some first => ([report first], seen)
  | none => ([], (key, index) :: seen)

/-- What a member repeats of what was seen before it, and what is seen after it. -/
def ofMember (seen : Seen) (m : Member Int) : List Duplicate × Seen :=
  let (byName, names) := note (name m) m.name m.index seen.names
  let (byValue, values) := note (value m) m.value m.index seen.values
  (byName ++ byValue, ⟨names, values⟩)

/-- What members repeat of each other and of what was seen before them. -/
def among (seen : Seen) : List (Member Int) → List Duplicate
  | [] => []
  | m :: ms => (ofMember seen m).1 ++ among (ofMember seen m).2 ms

end Duplicate

def Table.duplicates (t : Table Int) : List Duplicate := Duplicate.among ⟨[], []⟩ t.members

end EnumReflection
