import EnumReflection.Text.Basic

/-!
# Digits

The digits of the bases up to sixteen, letters in either case.
-/
namespace EnumReflection.Text

def digitValue? (c : Char) : Option Nat :=
  if c.isDigit then some (c.toNat - 48)
  else if 97 ≤ c.toNat ∧ c.toNat ≤ 102 then some (c.toNat - 87)
  else if 65 ≤ c.toNat ∧ c.toNat ≤ 70 then some (c.toNat - 55)
  else none

theorem digitValue?_digitChar {d : Nat} (h : d < 16) : digitValue? d.digitChar = some d := by
  have all : ∀ e ∈ List.range 16, digitValue? e.digitChar = some e := by decide
  exact all d (List.mem_range.2 h)

end EnumReflection.Text
