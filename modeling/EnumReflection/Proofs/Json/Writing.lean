import EnumReflection.Json.Grammar

/-!
# What is written are documents

Whatever a value holds, its text stands for it in the grammar of JSON, provided that the layout puts
only blanks between the parts. The text may be any: quotes, backslashes and control characters are
escaped, and nothing else needs to be.
-/
namespace EnumReflection.Json

/-- A layout that puts nothing but blanks between the parts of a value. -/
structure Layout.Blanks (layout : Layout) : Prop where
  newline : ∀ depth, Blank (layout.newline depth)
  colon : ∃ b, layout.colon = ':' :: b ∧ Blank b

theorem blank_nil : Blank [] := by simp [Blank]

theorem blanks_pretty : Layout.pretty.Blanks where
  newline := by
    intro depth c hc
    rcases List.mem_cons.1 hc with rfl | hc
    · rfl
    · rw [List.eq_of_mem_replicate hc]
      rfl
  colon := ⟨[' '], rfl, by simp [Blank, isBlank]⟩

theorem spells_escape (c : Char) : Spells (escape c) c := by
  unfold escape
  split
  · rename_i letter hlookup
    obtain ⟨l₁, l₂, hl, -⟩ := List.lookup_eq_some_iff.1 hlookup
    exact .letter (by simp [spellings, hl])
  · rename_i hlookup
    have hplain : ∀ p ∈ letters, c ≠ p.1 := by
      intro p hp
      simpa using List.lookup_eq_none_iff.1 hlookup p hp
    by_cases hlow : c.toNat < 0x20
    · have hzero : Text.digitValue? '0' = some 0 := by decide
      have hunit := IsUnit.digits hzero hzero (Text.digitValue?_digitChar (d := c.toNat / 16) (by omega))
        (Text.digitValue?_digitChar (d := c.toNat % 16) (by omega))
      rw [show 16 * (16 * (16 * 0 + 0) + c.toNat / 16) + c.toNat % 16 = c.toNat by omega] at hunit
      have hspells := Spells.number hunit c.valid
      rw [Char.ofNat_toNat] at hspells
      rw [if_pos hlow]
      exact hspells
    · rw [if_neg hlow]
      exact .plain (hplain ('"', '"') (by decide)) (hplain ('\\', '\\') (by decide)) (by omega)

theorem spellsAll_flatMap_escape (t : Text) : SpellsAll (t.flatMap escape) t := by
  induction t with
  | nil => exact .nil
  | cons c t ih =>
    rw [List.flatMap_cons]
    exact .cons (spells_escape c) ih

theorem denotes_quote (t : Text) : Denotes (quote t) (.string t) :=
  .string (spellsAll_flatMap_escape t)

theorem eq_zero_of_head?_decimal {n : Nat} (h : (Text.decimal n).head? = some '0') : n = 0 := by
  induction n using Nat.strongRecOn with
  | ind n ih =>
    rw [Text.decimal, Nat.toDigits_eq_if (by decide)] at h
    split at h
    · rename_i hlt
      have hall : ∀ d ∈ List.range 10, d.digitChar = '0' → d = 0 := by decide
      exact hall n (List.mem_range.2 hlt) (by simpa using h)
    · rename_i hlt
      obtain ⟨c, r, hcr⟩ := List.exists_cons_of_ne_nil (Text.decimal_ne_nil (n / 10))
      rw [← Text.decimal, hcr] at h
      have hzero := ih (n / 10) (by omega) (by rw [hcr]; exact h)
      omega

theorem isDigits_decimal (n : Nat) : IsDigits (Text.decimal n) where
  ne_nil := Text.decimal_ne_nil n
  all := fun _ hc => Text.isDigit_of_mem_decimal hc
  lead := by
    intro h
    rw [eq_zero_of_head?_decimal h]
    rfl

theorem isNumeral_signedDecimal (v : Int) : IsNumeral (Text.signedDecimal v) v := by
  cases v with
  | ofNat n =>
    have h := IsNumeral.natural (isDigits_decimal n)
    rwa [Text.ofDigitChars_decimal] at h
  | negSucc n =>
    have h := IsNumeral.negative (isDigits_decimal (n + 1))
    rwa [Text.ofDigitChars_decimal] at h

section

variable {α : Type} (lead body : α → Text) (stop : Text)

/-- The parts of a written list. What is written before the closing bracket belongs to the last. -/
def partsOf : α → List α → List (Part α)
  | a, [] => [⟨lead a, body a, stop, a⟩]
  | a, b :: l => ⟨lead a, body a, [], a⟩ :: partsOf b l

theorem partsOf_ne_nil (a : α) (l : List α) : partsOf lead body stop a l ≠ [] := by
  cases l <;> simp [partsOf]

theorem map_value_partsOf (a : α) (l : List α) :
    (partsOf lead body stop a l).map Part.value = a :: l := by
  induction l generalizing a with
  | nil => rfl
  | cons b l ih => rw [partsOf, List.map_cons, ih]

theorem join_partsOf (a : α) (l : List α) :
    Text.join [','] ((partsOf lead body stop a l).map Part.text) =
      lead a ++ (body a ++ (l.flatMap (fun b => ',' :: (lead b ++ body b)) ++ stop)) := by
  induction l generalizing a with
  | nil => simp [partsOf, Text.join, Part.text]
  | cons b l ih =>
    obtain ⟨p, ps, hp⟩ := List.exists_cons_of_ne_nil (partsOf_ne_nil lead body stop b l)
    have hi := ih b
    rw [hp] at hi
    rw [partsOf, hp, List.map_cons, List.map_cons, Text.join_cons_cons, ← List.map_cons, hi]
    simp [Part.text]

theorem of_mem_partsOf {a : α} {l : List α} {p : Part α} (hp : p ∈ partsOf lead body stop a l) :
    p.value ∈ a :: l ∧ p.lead = lead p.value ∧ p.body = body p.value ∧
      (p.tail = [] ∨ p.tail = stop) := by
  induction l generalizing a with
  | nil =>
    rw [partsOf, List.mem_singleton] at hp
    subst hp
    exact ⟨by simp, rfl, rfl, .inr rfl⟩
  | cons b l ih =>
    rcases List.mem_cons.1 hp with rfl | hp
    · exact ⟨by simp, rfl, rfl, .inl rfl⟩
    · obtain ⟨hvalue, hrest⟩ := ih hp
      exact ⟨List.mem_cons_of_mem a hvalue, hrest⟩

variable {lead body stop}

theorem blank_tail_of_mem_partsOf (hstop : Blank stop) {a : α} {l : List α} {p : Part α}
    (hp : p ∈ partsOf lead body stop a l) : Blank p.tail := by
  obtain ⟨-, -, -, htail | htail⟩ := of_mem_partsOf lead body stop hp
  · rw [htail]
    exact blank_nil
  · rw [htail]
    exact hstop

end

theorem writeItems_eq (layout : Layout) (depth : Nat) (vs : List Json) :
    writeItems layout depth vs =
      vs.flatMap fun v => ',' :: (layout.newline depth ++ write layout depth v) := by
  induction vs with
  | nil => rfl
  | cons v vs ih => simp [writeItems, ih]

/-- What is written before the value of a field. -/
def fieldLead (layout : Layout) (depth : Nat) (f : Text × Json) : Text :=
  layout.newline depth ++ (quote f.1 ++ layout.colon)

theorem writeFields_eq (layout : Layout) (depth : Nat) (fs : List (Text × Json)) :
    writeFields layout depth fs =
      fs.flatMap fun f => ',' :: (fieldLead layout depth f ++ write layout depth f.2) := by
  induction fs with
  | nil => rfl
  | cons f fs ih => simp [writeFields, fieldLead, ih]

variable {layout : Layout}

theorem isKey_fieldLead (h : layout.Blanks) (depth : Nat) (f : Text × Json) :
    IsKey (fieldLead layout depth f) f.1 := by
  obtain ⟨b, hcolon, hb⟩ := h.colon
  have hkey := IsKey.mk (h.newline depth) (spellsAll_flatMap_escape f.1) blank_nil hb
  simpa [fieldLead, quote, hcolon] using hkey

theorem denotes_array (h : layout.Blanks) (depth : Nat) {v : Json} {vs : List Json}
    (hvs : ∀ w ∈ v :: vs, Denotes (write layout (depth + 1) w) w) :
    Denotes (write layout depth (.array (v :: vs))) (.array (v :: vs)) := by
  let parts := partsOf (fun _ => layout.newline (depth + 1)) (write layout (depth + 1))
    (layout.newline depth) v vs
  have hparts : Denotes ('[' :: (Text.join [','] (parts.map Part.text) ++ [']']))
      (.array (parts.map Part.value)) := by
    refine .array (partsOf_ne_nil _ _ _ v vs) (fun p hp => ?_) (fun p hp => ?_)
    · obtain ⟨-, hlead, -⟩ := of_mem_partsOf _ _ _ hp
      refine ⟨?_, blank_tail_of_mem_partsOf (h.newline depth) hp⟩
      rw [hlead]
      exact h.newline (depth + 1)
    · obtain ⟨hvalue, -, hbody, -⟩ := of_mem_partsOf _ _ _ hp
      rw [hbody]
      exact hvs p.value hvalue
  rw [map_value_partsOf, join_partsOf, ← writeItems_eq] at hparts
  simpa [write] using hparts

theorem denotes_object (h : layout.Blanks) (depth : Nat) {f : Text × Json} {fs : List (Text × Json)}
    (hfs : ∀ g ∈ f :: fs, Denotes (write layout (depth + 1) g.2) g.2) :
    Denotes (write layout depth (.object (f :: fs))) (.object (f :: fs)) := by
  let parts := partsOf (fieldLead layout (depth + 1)) (fun g => write layout (depth + 1) g.2)
    (layout.newline depth) f fs
  have hparts : Denotes ('{' :: (Text.join [','] (parts.map Part.text) ++ ['}']))
      (.object (parts.map Part.value)) := by
    refine .object (partsOf_ne_nil _ _ _ f fs) (fun p hp => ?_) (fun p hp => ?_)
    · obtain ⟨-, hlead, -⟩ := of_mem_partsOf _ _ _ hp
      refine ⟨?_, blank_tail_of_mem_partsOf (h.newline depth) hp⟩
      rw [hlead]
      exact isKey_fieldLead h (depth + 1) p.value
    · obtain ⟨hvalue, -, hbody, -⟩ := of_mem_partsOf _ _ _ hp
      rw [hbody]
      exact hfs p.value hvalue
  rw [map_value_partsOf, join_partsOf, ← writeFields_eq] at hparts
  simpa [write, fieldLead] using hparts

mutual

/-- The text of a value stands for it. -/
theorem denotes_write (h : layout.Blanks) (depth : Nat) :
    (v : Json) → Denotes (write layout depth v) v
  | .null => .null
  | .number n => .number (isNumeral_signedDecimal n)
  | .string t => denotes_quote t
  | .array [] => .emptyArray blank_nil
  | .array (v :: vs) => denotes_array h depth (denotes_items h (depth + 1) (v :: vs))
  | .object [] => .emptyObject blank_nil
  | .object (f :: fs) => denotes_object h depth (denotes_fields h (depth + 1) (f :: fs))

theorem denotes_items (h : layout.Blanks) (depth : Nat) :
    (vs : List Json) → ∀ v ∈ vs, Denotes (write layout depth v) v
  | [] => by simp
  | v :: vs => List.forall_mem_cons.2 ⟨denotes_write h depth v, denotes_items h depth vs⟩

theorem denotes_fields (h : layout.Blanks) (depth : Nat) :
    (fs : List (Text × Json)) → ∀ f ∈ fs, Denotes (write layout depth f.2) f.2
  | [] => by simp
  | (_, v) :: fs => List.forall_mem_cons.2 ⟨denotes_write h depth v, denotes_fields h depth fs⟩

end

end EnumReflection.Json
