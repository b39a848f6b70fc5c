import EnumReflection.Text.Basic

/-!
# Integer types

The integer types that can stand behind an enumeration. Each holds a run of consecutive
integers, as many as its bits can tell apart, and counting past the end of the run goes on at
its other end.
-/
namespace EnumReflection

inductive IntType
  | i8 | i16 | i32 | i64 | i128 | isize
  | u8 | u16 | u32 | u64 | u128 | usize
  deriving DecidableEq, Repr

namespace IntType

def all : List IntType := [i8, i16, i32, i64, i128, isize, u8, u16, u32, u64, u128, usize]

def name : IntType → Text
  | i8 => "i8".toList
  | i16 => "i16".toList
  | i32 => "i32".toList
  | i64 => "i64".toList
  | i128 => "i128".toList
  | isize => "isize".toList
  | u8 => "u8".toList
  | u16 => "u16".toList
  | u32 => "u32".toList
  | u64 => "u64".toList
  | u128 => "u128".toList
  | usize => "usize".toList

def ofName? (t : Text) : Option IntType := all.find? (·.name == t)

/-- The width in bits. The types of a machine address are 64 bits wide. -/
def bits : IntType → Nat
  | i8 | u8 => 8
  | i16 | u16 => 16
  | i32 | u32 => 32
  | i64 | u64 | isize | usize => 64
  | i128 | u128 => 128

def isSigned : IntType → Bool
  | i8 | i16 | i32 | i64 | i128 | isize => true
  | u8 | u16 | u32 | u64 | u128 | usize => false

def count (ty : IntType) : Nat := Nat.pow 2 ty.bits

def min (ty : IntType) : Int := if ty.isSigned then -(ty.count / 2 : Nat) else 0

def max (ty : IntType) : Int := ty.min + ty.count - 1

def Contains (ty : IntType) (v : Int) : Prop := ty.min ≤ v ∧ v ≤ ty.max

instance (ty : IntType) (v : Int) : Decidable (ty.Contains v) :=
  inferInstanceAs (Decidable (_ ∧ _))

/-- The value of the type that differs from an integer by a multiple of the number of values. -/
def wrap (ty : IntType) (v : Int) : Int := ty.min + (v - ty.min) % ty.count

def successor (ty : IntType) (v : Int) : Int := ty.wrap (v + 1)

theorem count_pos (ty : IntType) : 0 < ty.count := Nat.two_pow_pos ty.bits

theorem contains_wrap (ty : IntType) (v : Int) : ty.Contains (ty.wrap v) := by
  have hpos := ty.count_pos
  have hlow := Int.emod_nonneg (v - ty.min) (b := ty.count) (by omega)
  have hhigh := Int.emod_lt_of_pos (v - ty.min) (b := ty.count) (by omega)
  simp only [Contains, wrap, max]
  omega

theorem wrap_eq_self {ty : IntType} {v : Int} (h : ty.Contains v) : ty.wrap v = v := by
  have hmod : (v - ty.min) % ty.count = v - ty.min := by
    simp only [Contains, max] at h
    apply Int.emod_eq_of_lt <;> omega
  rw [wrap, hmod]
  omega

theorem wrap_emod (ty : IntType) (v : Int) : ty.wrap v % ty.count = v % ty.count := by
  rw [wrap, Int.add_emod_emod, show ty.min + (v - ty.min) = v by omega]

theorem wrap_wrap_add (ty : IntType) (v d : Int) : ty.wrap (ty.wrap v + d) = ty.wrap (v + d) := by
  have h : (ty.wrap v + d - ty.min) % ty.count = (v + d - ty.min) % ty.count := by
    rw [show ty.wrap v + d - ty.min = ty.wrap v + (d - ty.min) by omega, ← Int.emod_add_emod,
      wrap_emod, Int.emod_add_emod, show v + (d - ty.min) = v + d - ty.min by omega]
  simp only [wrap] at h ⊢
  rw [h]

theorem contains_zero (ty : IntType) : ty.Contains 0 := by cases ty <;> decide

end IntType

end EnumReflection
