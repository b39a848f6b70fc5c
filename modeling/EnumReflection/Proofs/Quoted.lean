import EnumReflection.Text.Quoted

/-!
# Quoted text reads back

The quoted form of a text stands on one line and is read back as the text, whatever follows it.
-/
namespace EnumReflection.Text.Quoted

theorem hex_eq (n : Nat) :
    hex n = if n < 16 then [n.digitChar] else hex (n / 16) ++ [(n % 16).digitChar] :=
  Nat.toDigits_eq_if (by decide)

theorem digitChar_ne {d : Nat} (h : d < 16) {c : Char}
    (hc : ∀ e ∈ List.range 16, e.digitChar ≠ c) : d.digitChar ≠ c := hc d (List.mem_range.2 h)

theorem number?_digitChar {d : Nat} (h : d < 16) (value : Nat) (t : Text) :
    number? value (d.digitChar :: t) = number? (16 * value + d) t := by
  rw [number?, if_neg (digitChar_ne h (by decide)), digitValue?_digitChar h, Option.bind_some]

theorem number?_hex (n : Nat) (t : Text) : number? 0 (hex n ++ t) = number? n t := by
  induction n using Nat.strongRecOn generalizing t with
  | ind n ih =>
    rw [hex_eq]
    split
    · rename_i hlt
      rw [List.singleton_append, number?_digitChar hlt, Nat.mul_zero, Nat.zero_add]
    · rename_i hlt
      rw [List.append_assoc, ih (n / 16) (by omega), List.singleton_append,
        number?_digitChar (Nat.mod_lt n (by decide)), Nat.div_add_mod]

theorem not_mem_hex {c : Char} (hc : ∀ e ∈ List.range 16, e.digitChar ≠ c) (n : Nat) :
    c ∉ hex n := by
  induction n using Nat.strongRecOn with
  | ind n ih =>
    rw [hex_eq]
    split
    · rename_i hlt
      simpa using (digitChar_ne hlt hc).symm
    · rename_i hlt
      simpa [ih (n / 16) (by omega)] using (digitChar_ne (Nat.mod_lt n (by decide)) hc).symm

theorem ne_of_lookup_none {c : Char} (h : letters.lookup c = none) {p : Char × Char}
    (hp : p ∈ letters) : c ≠ p.1 := by
  simpa using List.lookup_eq_none_iff.1 h p hp

theorem decodeInside?_letter {c letter : Char} (h : (c, letter) ∈ letters) (r : Text) :
    decodeInside? ('\\' :: letter :: r) = (decodeInside? r).map fun p => (c :: p.1, p.2) := by
  have all : ∀ p ∈ letters, p.2 ≠ 'u' ∧ letters.find? (·.2 == p.2) = some p := by decide
  obtain ⟨hu, hfind⟩ := all _ h
  rw [decodeInside?.eq_4 letter r fun _ he => absurd he hu, hfind]

theorem decodeInside?_number (c : Char) (r : Text) :
    decodeInside? ('\\' :: 'u' :: '{' :: (hex c.toNat ++ '}' :: r)) =
      (decodeInside? r).map fun p => (c :: p.1, p.2) := by
  have hnumber : number? 0 (hex c.toNat ++ '}' :: r) = some (c.toNat, r) := by
    rw [number?_hex, number?, if_pos rfl]
  rw [decodeInside?.eq_3]
  split
  · rename_i n rest h
    rw [hnumber] at h
    cases h
    rw [Char.ofNat_toNat]
  · rename_i h
    rw [hnumber] at h
    cases h

theorem decodeInside?_escape (c : Char) (r : Text) :
    decodeInside? (escape c ++ r) = (decodeInside? r).map fun p => (c :: p.1, p.2) := by
  unfold escape
  split
  · rename_i letter hlookup
    obtain ⟨l₁, l₂, hl, -⟩ := List.lookup_eq_some_iff.1 hlookup
    exact decodeInside?_letter (by simp [hl]) r
  · rename_i hlookup
    split
    · have h := decodeInside?_number c r
      simpa using h
    · have hquote : c ≠ '"' := ne_of_lookup_none hlookup (p := ('"', '"')) (by decide)
      have hslash : c ≠ '\\' := ne_of_lookup_none hlookup (p := ('\\', '\\')) (by decide)
      exact decodeInside?.eq_5 c r (fun he => hquote he) (fun _ he => absurd he hslash)
        (fun _ _ he => absurd he hslash)

theorem not_mem_escape (c : Char) : '\n' ∉ escape c := by
  unfold escape
  split
  · rename_i letter hlookup
    obtain ⟨l₁, l₂, hl, -⟩ := List.lookup_eq_some_iff.1 hlookup
    have all : ∀ p ∈ letters, '\n' ∉ ['\\', p.2] := by decide
    exact all (c, letter) (by simp [hl])
  · rename_i hlookup
    split
    · simp [not_mem_hex (c := '\n') (by decide)]
    · simpa using (ne_of_lookup_none hlookup (p := ('\n', 'n')) (by decide)).symm

theorem decodeInside?_flatMap (t r : Text) :
    decodeInside? (t.flatMap escape ++ '"' :: r) = some (t, r) := by
  induction t with
  | nil => exact decodeInside?.eq_2 r
  | cons c t ih =>
    rw [List.flatMap_cons, List.append_assoc, decodeInside?_escape, ih]
    rfl

/-- The quoted form of a text is read back as the text. -/
theorem decode?_encode (t r : Text) : decode? (encode t ++ r) = some (t, r) := by
  have h := decodeInside?_flatMap t r
  simpa [encode, decode?] using h

theorem not_mem_encode (t : Text) : '\n' ∉ encode t := by
  have hinside : '\n' ∉ t.flatMap escape := by
    intro h
    obtain ⟨c, -, hc⟩ := List.mem_flatMap.1 h
    exact not_mem_escape c hc
  simp [encode, hinside]

end EnumReflection.Text.Quoted
