import EnumReflection.Text.Basic

/-!
# Member tables

The table of an enumeration lists its members in the order of their declaration. Values and
names may repeat, and a look-up then finds the member that is declared first.
-/
namespace EnumReflection

/-- A member: its value, its name, the text that declares it and its place. -/
structure Member (α : Type) where
  value : α
  name : Text
  text : Text
  index : Nat
  deriving DecidableEq, Repr

/-- What the declaration alone tells of a member, its value apart. -/
def Member.declared {α : Type} (m : Member α) : Text × Text × Nat := (m.name, m.text, m.index)

/-- The members of an enumeration and the text that declares them. -/
structure Table (α : Type) where
  text : Text
  members : List (Member α)
  deriving DecidableEq, Repr

namespace Table

/-- What stands for the name of a value that no member has. -/
def absentName : Text := "__INVALID_ENUM_VAL__".toList

variable {α : Type}

def size (t : Table α) : Nat := t.members.length

def isEmpty (t : Table α) : Bool := t.members.isEmpty

def get? (t : Table α) (i : Nat) : Option (Member α) := t.members[i]?

def values (t : Table α) : List α := t.members.map Member.value

def names (t : Table α) : List Text := t.members.map Member.name

def valueOf? (t : Table α) (name : Text) : Option α :=
  (t.members.find? (·.name == name)).map Member.value

def valueOfD (t : Table α) (name : Text) (default : α) : α := (t.valueOf? name).getD default

variable [DecidableEq α]

def memberOf? (t : Table α) (v : α) : Option (Member α) := t.members.find? (·.value == v)

def nameOf (t : Table α) (v : α) : Text := ((t.memberOf? v).map Member.name).getD absentName

/-- The index of the first member with a value, or the size of the table. -/
def indexOf (t : Table α) (v : α) : Nat := ((t.memberOf? v).map Member.index).getD t.size

theorem memberOf?_eq_none {t : Table α} {v : α} : t.memberOf? v = none ↔ v ∉ t.values := by
  simp [memberOf?, values]

theorem nameOf_of_not_mem {t : Table α} {v : α} (h : v ∉ t.values) : t.nameOf v = absentName := by
  simp [nameOf, memberOf?_eq_none.2 h]

theorem indexOf_of_not_mem {t : Table α} {v : α} (h : v ∉ t.values) : t.indexOf v = t.size := by
  simp [indexOf, memberOf?_eq_none.2 h]

omit [DecidableEq α] in
theorem valueOf?_eq_none {t : Table α} {name : Text} :
    t.valueOf? name = none ↔ name ∉ t.names := by
  simp [valueOf?, names]

end Table

end EnumReflection
