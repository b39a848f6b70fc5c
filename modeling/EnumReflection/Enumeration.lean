import EnumReflection.Numbering
import EnumReflection.Table.Build
import EnumReflection.Table.Cursor

/-!
# Declared enumerations

An enumeration of a language with native enumerations has its variants and their discriminants
from the language. Its table is read from the text of the declaration, and is accepted only if
the values counted from the written ones are the discriminants and the names read from the
text are the names of the variants. Look-ups, conversions and iteration go through the table.
-/
namespace EnumReflection

/-- What a language knows of an enumeration, with the text that declares it and the values
written in that text. -/
structure Enumeration (E : Type) where
  name : Text
  type : IntType
  variants : List E
  discriminant : E → Int
  text : Text
  idents : List Text
  written : List (Option Int)

/-- Why the table of an enumeration is refused. -/
inductive BuildError
  | valueCount (slots members : Nat)
  | value (index : Nat) (counted discriminant : Int)
  | malformed (cause : TableError)
  | nameCount (idents members : Nat)
  | name (index : Nat) (ident read : Text)
  deriving DecidableEq, Repr

namespace BuildError

def inequality (what : Text) (left right : Nat) : Text :=
  "assertion `left == right` failed: ".toList ++ what ++ "\n  left: ".toList ++
    Text.decimal left ++ "\n right: ".toList ++ Text.decimal right

def message (enum : Text) : BuildError → Text
  | .valueCount slots members =>
    inequality (enum ++ ": ".toList ++ Text.decimal slots ++ " explicit value slots for ".toList ++
      Text.decimal members ++ " members".toList) slots members
  | .value index counted discriminant =>
    enum ++ ": member ".toList ++ Text.decimal index ++ " resolves to ".toList ++
      Text.signedDecimal counted ++ " but its discriminant is ".toList ++
      Text.signedDecimal discriminant
  | .malformed cause => "malformed declaration of ".toList ++ enum ++ ": ".toList ++ cause.message
  | .nameCount idents members =>
    inequality (enum ++ ": ".toList ++ Text.decimal idents ++ " variant names for ".toList ++
      Text.decimal members ++ " members".toList) idents members
  | .name index ident read =>
    enum ++ ": member ".toList ++ Text.decimal index ++ " is declared as `".toList ++ ident ++
      "` but reads as `".toList ++ read ++ "`".toList

end BuildError

structure UnknownName where
  enum : Text
  input : Text
  deriving DecidableEq, Repr

def UnknownName.message (e : UnknownName) : Text :=
  Text.Quoted.encode e.input ++ " is not a member of ".toList ++ e.enum

namespace Enumeration

variable {E : Type}

/-- An identifier without the mark of a raw one. -/
def bareIdent : Text → Text
  | 'r' :: '#' :: r => r
  | t => t

/-- The first variant, with its index, whose discriminant is not the counted value. -/
def misvalued? (e : Enumeration E) (index : Nat) : List E → List Int → Option BuildError
  | v :: vs, n :: ns =>
    if e.discriminant v = n then misvalued? e (index + 1) vs ns
    else some (.value index n (e.discriminant v))
  | _, _ => none

/-- The first member whose name is not its identifier. -/
def misnamed? : List (Member E) → List Text → Option BuildError
  | m :: ms, ident :: idents =>
    if m.name = bareIdent ident then misnamed? ms idents else some (.name m.index ident m.name)
  | _, _ => none

/-- The table read from a text for the variants of an enumeration, checked against identifiers
and written values. -/
def build (e : Enumeration E) (text : Text) (idents : List Text) (written : List (Option Int)) :
    Except BuildError (Table E) :=
  let counted := Numbering.values e.type written
  if counted.length ≠ e.variants.length then
    .error (.valueCount counted.length e.variants.length)
  else
    match misvalued? e 0 e.variants counted with
    | some refusal => .error refusal
    | none =>
      match Table.ofText text e.variants with
      | .error cause => .error (.malformed cause)
      | .ok table =>
        if idents.length ≠ table.size then .error (.nameCount idents.length table.size)
        else
          match misnamed? table.members idents with
          | some refusal => .error refusal
          | none => .ok table

def table (e : Enumeration E) : Except BuildError (Table E) := e.build e.text e.idents e.written

def ofDiscriminant? (e : Enumeration E) (n : Int) : Option E :=
  e.variants.find? (e.discriminant · == n)

/-- The member with a name, read with a report of the failure. -/
def parse (e : Enumeration E) (t : Table E) (input : Text) : Except UnknownName E :=
  match t.valueOf? input with
  | some v => .ok v
  | none => .error ⟨e.name, input⟩

/-- A cursor from the first member with a value on. -/
def cursorFrom [DecidableEq E] (t : Table E) (v : E) : Cursor E :=
  match t.indexOf v with
  | 0 => t.cursor
  | n + 1 => (t.cursor.nth n).2

def describeRange (e : Enumeration E) : Text :=
  "MetaEnumRange \x7b enum: ".toList ++ Text.Quoted.encode e.name ++ " \x7d".toList

/-- The bare form of an identifier is the name that it stands for, raw or not. -/
theorem bareIdent_eq_iff {ident name : Text} : bareIdent ident = name ↔
    ident = 'r' :: '#' :: name ∨ ident = name ∧ ¬ ['r', '#'] <+: ident := by
  by_cases hraw : ['r', '#'] <+: ident
  · obtain ⟨r, rfl⟩ := hraw
    simp [bareIdent]
  · have hbare : bareIdent ident = ident := by
      unfold bareIdent
      split
      · exact absurd (List.prefix_append ['r', '#'] _) hraw
      · rfl
    rw [hbare]
    constructor
    · exact fun h => .inr ⟨h, hraw⟩
    · rintro (rfl | ⟨rfl, -⟩)
      · exact absurd (List.prefix_append ['r', '#'] name) hraw
      · rfl

theorem misvalued?_eq_none {e : Enumeration E} {index : Nat} {vs : List E} {ns : List Int}
    (hlen : vs.length = ns.length) :
    misvalued? e index vs ns = none ↔ vs.map e.discriminant = ns := by
  induction vs generalizing index ns with
  | nil =>
    cases ns with
    | nil => simp [misvalued?]
    | cons n ns => simp at hlen
  | cons v vs ih =>
    cases ns with
    | nil => simp at hlen
    | cons n ns =>
      have hlen' : vs.length = ns.length := by simpa using hlen
      rw [misvalued?]
      split
      · rename_i hv
        rw [ih hlen', List.map_cons, hv, List.cons_inj_right]
      · rename_i hv
        simp [hv]

theorem misnamed?_eq_none {ms : List (Member E)} {idents : List Text}
    (hlen : ms.length = idents.length) :
    misnamed? ms idents = none ↔ ms.map Member.name = idents.map bareIdent := by
  induction ms generalizing idents with
  | nil =>
    cases idents with
    | nil => simp [misnamed?]
    | cons i is => simp at hlen
  | cons m ms ih =>
    cases idents with
    | nil => simp at hlen
    | cons i is =>
      have hlen' : ms.length = is.length := by simpa using hlen
      rw [misnamed?]
      split
      · rename_i hm
        rw [ih hlen', List.map_cons, List.map_cons, hm, List.cons_inj_right]
      · rename_i hm
        simp [hm]

end Enumeration

end EnumReflection
