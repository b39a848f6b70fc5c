import EnumReflection.Initializer
import EnumReflection.Numbering
import EnumReflection.Table.Build

/-!
# Declarations on their own

A declaration that no language stands behind is numbered from the values written in it. They
are counted in 128 bits, and every value has to fit the integer type of the enumeration.
-/
namespace EnumReflection

/-- Why a declaration has no table, in the order in which the reasons are looked for. -/
inductive DeclarationError
  | initializer (cause : UnsupportedInitializer)
  | malformed (cause : TableError)
  | misfit (name : Text) (value : Int) (type : IntType)
  deriving DecidableEq, Repr

def DeclarationError.chain : DeclarationError → List Text
  | .initializer cause => cause.chain
  | .malformed cause => ["malformed member list".toList, cause.message]
  | .misfit name value type =>
    ["member ".toList ++ name ++ " resolves to ".toList ++ Text.signedDecimal value ++
      ", which does not fit in ".toList ++ type.name]

namespace Declaration

/-- The table of a declaration whose values have an integer type. -/
def table (type : IntType) (text : Text) : Except DeclarationError (Table Int) :=
  match Initializer.ofText text with
  | .error e => .error (.initializer e)
  | .ok written =>
    match Table.ofText text (Numbering.values .i128 written) with
    | .error e => .error (.malformed e)
    | .ok t =>
      match t.members.find? (¬ type.Contains ·.value) with
      | some m => .error (.misfit m.name m.value type)
      | none => .ok t

theorem exists_ofText {type : IntType} {text : Text} {t : Table Int} (h : table type text = .ok t) :
    ∃ written, Initializer.ofText text = .ok written ∧
      Table.ofText text (Numbering.values .i128 written) = .ok t ∧
      ∀ m ∈ t.members, type.Contains m.value := by
  unfold table at h
  split at h
  · cases h
  · rename_i written hwritten
    split at h
    · cases h
    · rename_i u hu
      split at h
      · cases h
      · rename_i hfind
        cases h
        exact ⟨written, hwritten, hu, fun m hm => by simpa using List.find?_eq_none.1 hfind m hm⟩

theorem contains_of_table {type : IntType} {text : Text} {t : Table Int}
    (h : table type text = .ok t) {v : Int} (hv : v ∈ t.values) : type.Contains v := by
  obtain ⟨-, -, -, hfits⟩ := exists_ofText h
  obtain ⟨m, hm, rfl⟩ := List.mem_map.1 hv
  exact hfits m hm

end Declaration

end EnumReflection
