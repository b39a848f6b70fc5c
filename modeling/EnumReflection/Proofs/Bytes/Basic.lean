import EnumReflection.Bytes.Basic

/-!
# Places of a text

A place is a position between two characters, with the text that stands behind it. The byte at a
place tells an ASCII character from every other one, and all bytes of a character outside of ASCII
are larger than those. A scan that steps over large bytes one by one hence comes from a place to
the next place, whatever positions inside a character it meets.
-/
namespace EnumReflection.Bytes

def IsAscii (c : Char) : Prop := c.toNat < 128

instance (c : Char) : Decidable (IsAscii c) := inferInstanceAs (Decidable (_ < _))

/-- A class that holds of all characters outside of ASCII or of none of them. -/
def IsAsciiClass (p : Char → Bool) : Prop :=
  ∀ c d, ¬ IsAscii c → ¬ IsAscii d → p c = p d

theorem isAsciiClass_of_imp {p : Char → Bool} (h : ∀ c, p c = true → IsAscii c) :
    IsAsciiClass p := by
  intro c d hc hd
  rw [Bool.eq_false_iff.2 fun hp => hc (h c hp), Bool.eq_false_iff.2 fun hp => hd (h d hp)]

theorem IsAsciiClass.not {p : Char → Bool} (h : IsAsciiClass p) : IsAsciiClass (!p ·) :=
  fun c d hc hd => congrArg (!·) (h c d hc hd)

theorem utf8Size_eq_one_iff {c : Char} : c.utf8Size = 1 ↔ IsAscii c := by
  rw [Char.utf8Size_eq_one_iff, UInt32.le_iff_toNat_le]
  exact Nat.lt_succ_iff.symm

theorem utf8EncodeChar_of_isAscii {c : Char} (h : IsAscii c) :
    String.utf8EncodeChar c = [c.toUInt8] :=
  String.utf8EncodeChar_eq_singleton (utf8Size_eq_one_iff.2 h)

theorem large_of_mem_utf8EncodeChar {c : Char} (h : ¬ IsAscii c) {b : UInt8}
    (hb : b ∈ String.utf8EncodeChar c) : 128 ≤ b.toNat := by
  have hc : ¬ c.val.toNat ≤ 127 := fun hle => h (Nat.lt_succ_of_le hle)
  unfold String.utf8EncodeChar at hb
  simp only [if_neg hc] at hb
  have hlarge (n k : Nat) (hk : 128 ≤ k) (hlt : n + k < 256) : 128 ≤ (UInt8.ofNat (n + k)).toNat := by
    rw [UInt8.toNat_ofNat', Nat.mod_eq_of_lt hlt]
    omega
  split at hb
  · simp only [List.mem_cons, List.not_mem_nil, or_false] at hb
    rcases hb with rfl | rfl <;> apply hlarge <;> omega
  split at hb
  · simp only [List.mem_cons, List.not_mem_nil, or_false] at hb
    rcases hb with rfl | rfl | rfl <;> apply hlarge <;> omega
  · simp only [List.mem_cons, List.not_mem_nil, or_false] at hb
    rcases hb with rfl | rfl | rfl | rfl <;> apply hlarge <;> omega

theorem toNat_toUInt8 {c : Char} (h : IsAscii c) : c.toUInt8.toNat = c.toNat :=
  Nat.mod_eq_of_lt (Nat.lt_trans h (by decide))

theorem character_toUInt8 {c : Char} (h : IsAscii c) : character c.toUInt8 = c := by
  rw [character, toNat_toUInt8 h, Char.ofNat_toNat]

theorem not_isAscii_character {b : UInt8} (h : 128 ≤ b.toNat) : ¬ IsAscii (character b) := by
  have hb := b.toNat_lt
  have hvalid : b.toNat.isValidChar := Or.inl (by omega)
  have hnumber : (character b).toNat = b.toNat := by
    rw [character, Char.ofNat, dif_pos hvalid]
    rfl
  rw [IsAscii, hnumber]
  omega

theorem ne_of_large {b : UInt8} (h : 128 ≤ b.toNat) {d : Char} (hd : IsAscii d) :
    b ≠ d.toUInt8 := by
  rintro rfl
  rw [toNat_toUInt8 hd] at h
  exact absurd hd (Nat.not_lt.2 h)

/-- What the first byte of a character tells of it. -/
structure Leads (b : UInt8) (c : Char) : Prop where
  eq_iff : ∀ {d : Char}, IsAscii d → (b = d.toUInt8 ↔ c = d)
  class_eq : ∀ {p : Char → Bool}, IsAsciiClass p → p (character b) = p c

theorem Leads.eq {b : UInt8} {c : Char} (h : Leads b c) (hc : IsAscii c) : b = c.toUInt8 :=
  (h.eq_iff hc).2 rfl

theorem Leads.ne {b : UInt8} {c d : Char} (h : Leads b c) (hd : IsAscii d) (hne : c ≠ d) :
    b ≠ d.toUInt8 := mt (h.eq_iff hd).1 hne

theorem leads_of_isAscii {c : Char} (h : IsAscii c) : Leads c.toUInt8 c where
  eq_iff := by
    intro d hd
    constructor
    · intro he
      rw [← character_toUInt8 h, he, character_toUInt8 hd]
    · rintro rfl
      rfl
  class_eq := fun _ => by rw [character_toUInt8 h]

theorem leads_of_large {c : Char} {b : UInt8} (hc : ¬ IsAscii c) (hb : 128 ≤ b.toNat) :
    Leads b c where
  eq_iff := by
    intro d hd
    constructor
    · intro he
      exact absurd he (ne_of_large hb hd)
    · rintro rfl
      exact absurd hd hc
  class_eq := fun hp => hp _ _ (not_isAscii_character hb) hc

/-- A position between two characters and the text behind it. -/
def At (t : Text) (pos : Nat) (u : Text) : Prop := ∃ s, t = s ++ u ∧ s.byteLength = pos

/-- A position inside a character. -/
def Large (t : Text) (pos : Nat) : Prop := ∃ b, byteAt t pos = .ok b ∧ 128 ≤ b.toNat

/-- A scan that ends at a place. -/
def Reaches (t : Text) (scan : Checked Nat) (u : Text) : Prop := ∃ pos, scan = .ok pos ∧ At t pos u

/-- A search that ends at a place, or finds nothing. -/
def Finds (t : Text) (search : Checked (Option Nat)) : Option Text → Prop
  | none => search = .ok none
  | some u => ∃ pos, search = .ok (some pos) ∧ At t pos u

theorem ofText_append (s t : Text) : ofText (s ++ t) = ofText s ++ ofText t := List.flatMap_append

theorem ofText_cons (c : Char) (t : Text) :
    ofText (c :: t) = String.utf8EncodeChar c ++ ofText t := List.flatMap_cons

theorem byteAt_of_byte? {t : Text} {pos : Nat} {b : UInt8} (h : byte? t pos = some b) :
    byteAt t pos = .ok b := by
  rw [byteAt, h]

theorem byteAt_eq_ok {t : Text} {pos : Nat} {b : UInt8} :
    byteAt t pos = .ok b ↔ byte? t pos = some b := by
  refine ⟨fun h => ?_, byteAt_of_byte?⟩
  rw [byteAt] at h
  split at h
  · rename_i hb
    cases h
    exact hb
  · cases h

theorem exists_byteAt {t : Text} {pos : Nat} (h : pos < t.byteLength) :
    ∃ b, byteAt t pos = .ok b := by
  rw [← length_ofText] at h
  exact ⟨_, byteAt_of_byte? (List.getElem?_eq_getElem h)⟩

theorem lt_of_byteAt {t : Text} {pos : Nat} {b : UInt8} (h : byteAt t pos = .ok b) :
    pos < t.byteLength := lt_of_byte? (byteAt_eq_ok.1 h)

section
variable {t u r : Text} {c : Char} {pos : Nat}

theorem at_zero (t : Text) : At t 0 t := ⟨[], rfl, rfl⟩

theorem at_end (t : Text) : At t t.byteLength [] := ⟨t, (List.append_nil t).symm, rfl⟩

theorem At.add (h : At t pos u) : pos + u.byteLength = t.byteLength := by
  obtain ⟨s, rfl, rfl⟩ := h
  rw [Text.byteLength_append]

theorem At.cons (h : At t pos (c :: r)) : At t (pos + c.utf8Size) r := by
  obtain ⟨s, rfl, rfl⟩ := h
  exact ⟨s ++ [c], by simp, by simp⟩

theorem At.cons_ascii (h : At t pos (c :: r)) (hc : IsAscii c) : At t (pos + 1) r := by
  have hnext := h.cons
  rwa [utf8Size_eq_one_iff.2 hc] at hnext

theorem At.append {s : Text} (h : At t pos (s ++ r)) : At t (pos + s.byteLength) r := by
  obtain ⟨s', rfl, rfl⟩ := h
  exact ⟨s' ++ s, by simp, by simp⟩

theorem At.lt_stop {s : Text} {stop : Nat} (h : At t pos (s ++ r)) (hs : s ≠ [])
    (hstop : At t stop r) : pos < stop := by
  have hadd := h.add
  have hstop' := hstop.add
  have hlen : s.byteLength ≠ 0 := fun h0 => hs (Text.byteLength_eq_zero.1 h0)
  rw [Text.byteLength_append] at hadd
  omega

theorem At.lt (h : At t pos (c :: r)) : pos < t.byteLength := by
  have hadd := h.add
  have hc := c.utf8Size_pos
  rw [Text.byteLength_cons] at hadd
  omega

theorem At.eq_end (h : At t pos []) : pos = t.byteLength := h.add

theorem At.eq_end_iff (h : At t pos u) : pos = t.byteLength ↔ u = [] := by
  rw [← h.add, ← Text.byteLength_eq_zero]
  omega

theorem At.byte?_add (h : At t pos u) (k : Nat) : byte? t (pos + k) = (ofText u)[k]? := by
  obtain ⟨s, rfl, rfl⟩ := h
  rw [byte?, ofText_append, List.getElem?_append_right (by simp), length_ofText,
    Nat.add_sub_cancel_left]

theorem At.byte?_eq (h : At t pos u) : byte? t pos = (ofText u)[0]? := h.byte?_add 0

theorem At.byte?_nil (h : At t pos []) : byte? t pos = none := by
  rw [h.byte?_eq]
  rfl

theorem At.large (h : At t pos (c :: r)) (hc : ¬ IsAscii c) {k : Nat} (hk : k < c.utf8Size) :
    Large t (pos + k) := by
  rw [← String.length_utf8EncodeChar] at hk
  have hbyte : byte? t (pos + k) = some (String.utf8EncodeChar c)[k] := by
    rw [h.byte?_add, ofText_cons, List.getElem?_append_left hk, List.getElem?_eq_getElem hk]
  exact ⟨_, byteAt_of_byte? hbyte, large_of_mem_utf8EncodeChar hc (List.getElem_mem hk)⟩

theorem At.exists_byte? (h : At t pos (c :: r)) : ∃ b, byte? t pos = some b ∧ Leads b c := by
  by_cases hc : IsAscii c
  · refine ⟨c.toUInt8, ?_, leads_of_isAscii hc⟩
    rw [h.byte?_eq, ofText_cons, utf8EncodeChar_of_isAscii hc]
    rfl
  · obtain ⟨b, hb, hlarge⟩ := h.large hc (k := 0) c.utf8Size_pos
    exact ⟨b, byteAt_eq_ok.1 hb, leads_of_large hc hlarge⟩

theorem At.exists_byteAt (h : At t pos (c :: r)) : ∃ b, byteAt t pos = .ok b ∧ Leads b c := by
  obtain ⟨b, hb, hleads⟩ := h.exists_byte?
  exact ⟨b, byteAt_of_byte? hb, hleads⟩

theorem At.byte?_eq_iff (h : At t pos u) {d : Char} (hd : IsAscii d) :
    byte? t pos = some d.toUInt8 ↔ u.head? = some d := by
  cases u with
  | nil => simp [h.byte?_nil]
  | cons c r =>
    obtain ⟨b, hb, hleads⟩ := h.exists_byte?
    rw [hb, List.head?_cons, Option.some_inj, Option.some_inj, hleads.eq_iff hd]

/-- A scan that steps over large bytes one by one passes the rest of a character. -/
theorem At.pass {α : Type} {scan : Nat → α} (h : At t pos (c :: r))
    (hscan : ¬ IsAscii c → ∀ i, Large t i → scan i = scan (i + 1)) :
    scan (pos + 1) = scan (pos + c.utf8Size) := by
  by_cases hc : IsAscii c
  · rw [utf8Size_eq_one_iff.2 hc]
  · have hpass (k : Nat) (hk : k < c.utf8Size) : scan (pos + 1) = scan (pos + (k + 1)) := by
      induction k with
      | zero => rfl
      | succ k ih => rw [ih (by omega), hscan hc _ (h.large hc hk)]; rfl
    have hpos := c.utf8Size_pos
    have hlast := hpass (c.utf8Size - 1) (by omega)
    rwa [Nat.sub_add_cancel hpos] at hlast

theorem At.drop?_eq (h : At t pos u) : t.drop? pos = some u := by
  obtain ⟨s, rfl, rfl⟩ := h
  exact Text.drop?_byteLength_append s u

theorem At.slice_eq {s : Text} {stop : Nat} (h : At t pos (s ++ r)) (hstop : At t stop r) :
    slice pos stop t = .ok s := by
  have hadd := h.append.add
  have hstop' := hstop.add
  obtain rfl : stop = pos + s.byteLength := by omega
  obtain ⟨s', rfl, rfl⟩ := h
  have hslice := Text.slice?_append s' s r
  rw [List.append_assoc] at hslice
  rw [slice, if_neg (by simp only [Text.byteLength_append]; omega), hslice]

theorem At.sliceFrom_eq (h : At t pos u) : sliceFrom pos t = .ok u := by
  have h' : At t pos (u ++ []) := by rwa [List.append_nil]
  exact h'.slice_eq (at_end t)

theorem reaches_ok (h : At t pos u) : Reaches t (.ok pos) u := ⟨pos, rfl, h⟩

end

end EnumReflection.Bytes
