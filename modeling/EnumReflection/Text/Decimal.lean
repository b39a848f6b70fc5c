import EnumReflection.Text.Basic

/-!
# Decimal numbers and columns

Numbers are written with the fewest decimal digits and a sign only when negative. Columns are
padded with spaces to a width in characters; text that is wider stays whole.
-/
namespace EnumReflection.Text

def decimal (n : Nat) : Text := Nat.toDigits 10 n

def signedDecimal : Int → Text
  | .ofNat n => decimal n
  | .negSucc n => '-' :: decimal (n + 1)

def natural? (t : Text) : Option Nat :=
  if t ≠ [] ∧ t.all Char.isDigit then some (Nat.ofDigitChars 10 t 0) else none

def integer? : Text → Option Int
  | '-' :: r => (natural? r).map fun n => -n
  | '+' :: r => (natural? r).map fun n => n
  | t => (natural? t).map fun n => n

def padLeft (width : Nat) (t : Text) : Text := List.replicate (width - t.length) ' ' ++ t

def padRight (width : Nat) (t : Text) : Text := t ++ List.replicate (width - t.length) ' '

theorem ofDigitChars_decimal (n : Nat) : Nat.ofDigitChars 10 (decimal n) 0 = n :=
  Nat.ofDigitChars_toDigits (by decide) (by decide)

theorem isDigit_of_mem_decimal {n : Nat} {c : Char} (h : c ∈ decimal n) : c.isDigit = true :=
  Nat.isDigit_of_mem_toDigits (by decide) (by decide) h

theorem decimal_ne_nil (n : Nat) : decimal n ≠ [] := Nat.toDigits_ne_nil

theorem natural?_decimal (n : Nat) : natural? (decimal n) = some n := by
  have hdigits : (decimal n).all Char.isDigit = true :=
    List.all_eq_true.2 fun _ hc => isDigit_of_mem_decimal hc
  rw [natural?, if_pos ⟨decimal_ne_nil n, hdigits⟩, ofDigitChars_decimal]

theorem integer?_signedDecimal (v : Int) : integer? (signedDecimal v) = some v := by
  cases v with
  | ofNat n =>
    obtain ⟨c, r, hcr⟩ := List.exists_cons_of_ne_nil (decimal_ne_nil n)
    have hc : c.isDigit = true := isDigit_of_mem_decimal (n := n) (by simp [hcr])
    have hn := natural?_decimal n
    rw [signedDecimal]
    rw [hcr] at hn ⊢
    unfold integer?
    split
    · rename_i heq
      cases heq
      exact absurd hc (by decide)
    · rename_i heq
      cases heq
      exact absurd hc (by decide)
    · rw [hn]
      rfl
  | negSucc n =>
    rw [signedDecimal, integer?, natural?_decimal]
    rfl

theorem length_padLeft (width : Nat) (t : Text) :
    (padLeft width t).length = max width t.length := by
  simp [padLeft]; omega

theorem length_padRight (width : Nat) (t : Text) :
    (padRight width t).length = max width t.length := by
  simp [padRight]; omega

end EnumReflection.Text
