import EnumReflection.Proofs.First
import EnumReflection.Proofs.Table.Lookup
import EnumReflection.Table.Build

/-!
# Look-ups with repeats

Values and names of a table may repeat. The look-ups by value read the index that a member carries,
the positional access counts the members, and the look-up by name is a search of its own. They agree
all the same: each finds the member that is declared first. A value is found again from its name if
the names are distinct, whether the values are or not.
-/
namespace EnumReflection.Table

variable {α : Type} {t : Table α}

/-- Every member carries the index at which it stands. -/
def Indexed (t : Table α) : Prop := ∀ i m, t.get? i = some m → m.index = i

theorem indexed_of_ofText {text : Text} {values : List α} (h : ofText text values = .ok t) :
    t.Indexed := by
  intro i m hm
  obtain ⟨-, -, hindex, -⟩ := ofText_ok h
  rw [get?] at hm
  have hi : i < t.size := (List.getElem?_eq_some_iff.1 hm).1
  have hget := congrArg (·[i]?) hindex
  simpa [hm, hi] using hget

theorem value_mem_of_get? {i : Nat} {m : Member α} (h : t.get? i = some m) : m.value ∈ t.values :=
  List.mem_map_of_mem (List.mem_of_getElem? h)

theorem valueOf?_of_isFirst {s : Text} {i : Nat} {m : Member α}
    (h : IsFirst (·.name = s) t.members i m) : t.valueOf? s = some m.value := by
  rw [valueOf?, find?_eq_some_iff_isFirst.2 ⟨i, h⟩, Option.map_some]

variable [DecidableEq α] {v : α} {i : Nat} {m : Member α}

theorem memberOf?_of_isFirst (h : IsFirst (·.value = v) t.members i m) :
    t.memberOf? v = some m := find?_eq_some_iff_isFirst.2 ⟨i, h⟩

theorem nameOf_of_isFirst (h : IsFirst (·.value = v) t.members i m) : t.nameOf v = m.name := by
  simp [nameOf, memberOf?_of_isFirst h]

section
variable (ht : t.Indexed)
include ht

theorem indexOf_of_isFirst (h : IsFirst (·.value = v) t.members i m) : t.indexOf v = i := by
  simp [indexOf, memberOf?_of_isFirst h, ht i m h.getElem]

/-- The index of a value is the place of the first member that has it. -/
theorem isFirst_indexOf (hv : v ∈ t.values) :
    ∃ m, IsFirst (·.value = v) t.members (t.indexOf v) m := by
  obtain ⟨i, m, h⟩ := IsFirst.exists_of_mem_map hv
  rw [indexOf_of_isFirst ht h]
  exact ⟨m, h⟩

theorem memberOf?_eq_get? (v : α) : t.memberOf? v = t.get? (t.indexOf v) := by
  by_cases hv : v ∈ t.values
  · obtain ⟨m, h⟩ := isFirst_indexOf ht hv
    rw [memberOf?_of_isFirst h, get?, h.getElem]
  · rw [memberOf?_eq_none.2 hv, indexOf_of_not_mem hv]
    simp [get?, size]

theorem indexOf_le (hm : t.get? i = some m) : t.indexOf m.value ≤ i := by
  obtain ⟨k, h⟩ := isFirst_indexOf ht (value_mem_of_get? hm)
  by_contra hlt
  exact h.before i (by omega) m hm rfl

theorem indexOf_eq_iff_nodup :
    (∀ i m, t.get? i = some m → t.indexOf m.value = i) ↔ t.values.Nodup := by
  constructor
  · intro h
    rw [List.nodup_iff_getElem?_ne_getElem?]
    intro i j hij hj heq
    rw [values, List.length_map] at hj
    have hmi := List.getElem?_eq_getElem (Nat.lt_trans hij hj)
    have hmj := List.getElem?_eq_getElem hj
    have hvalue : t.members[i].value = t.members[j].value := by
      simpa [values, hmi, hmj] using heq
    have hi := h i _ hmi
    have hj := h j _ hmj
    rw [hvalue, hj] at hi
    omega
  · intro h i m hm
    rw [indexOf_of_mem h (List.mem_of_getElem? hm), ht i m hm]

end

theorem valueOf?_nameOf (hnames : t.names.Nodup) (hv : v ∈ t.values) :
    t.valueOf? (t.nameOf v) = some v := by
  obtain ⟨i, m, h⟩ := IsFirst.exists_of_mem_map hv
  rw [nameOf_of_isFirst h, valueOf?_eq_some_iff hnames]
  exact ⟨m, List.mem_of_getElem? h.getElem, rfl, h.holds⟩

/-- All look-ups in a table that is built tell of the member that is declared first. -/
theorem lookups_first {text : Text} {values : List α} (h : ofText text values = .ok t) :
    t.Indexed ∧
    (∀ v ∈ t.values, ∃ m, IsFirst (·.value = v) t.members (t.indexOf v) m ∧
      t.memberOf? v = some m ∧ t.nameOf v = m.name) ∧
    (∀ v, v ∉ t.values →
      t.indexOf v = t.size ∧ t.memberOf? v = none ∧ t.nameOf v = absentName) ∧
    (∀ v, t.memberOf? v = t.get? (t.indexOf v)) ∧
    (∀ s ∈ t.names, ∃ i m, IsFirst (·.name = s) t.members i m ∧ t.valueOf? s = some m.value) ∧
    (∀ s, s ∉ t.names → t.valueOf? s = none) ∧
    (∀ i m, t.get? i = some m → t.indexOf m.value ≤ i ∧
      ∃ k, t.get? (t.indexOf m.value) = some k ∧ k.value = m.value) ∧
    ((∀ i m, t.get? i = some m → t.indexOf m.value = i) ↔ t.values.Nodup) ∧
    (t.names.Nodup → (∀ v ∈ t.values, t.valueOf? (t.nameOf v) = some v) ∧
      (absentName ∉ t.names → ∀ v, v ∉ t.values → t.valueOf? (t.nameOf v) = none)) := by
  have ht := indexed_of_ofText h
  refine ⟨ht, ?_, ?_, memberOf?_eq_get? ht, ?_, fun s hs => valueOf?_eq_none.2 hs, ?_,
    indexOf_eq_iff_nodup ht, ?_⟩
  · intro v hv
    obtain ⟨m, hfirst⟩ := isFirst_indexOf ht hv
    exact ⟨m, hfirst, memberOf?_of_isFirst hfirst, nameOf_of_isFirst hfirst⟩
  · intro v hv
    exact ⟨indexOf_of_not_mem hv, memberOf?_eq_none.2 hv, nameOf_of_not_mem hv⟩
  · intro s hs
    obtain ⟨i, m, hfirst⟩ := IsFirst.exists_of_mem_map hs
    exact ⟨i, m, hfirst, valueOf?_of_isFirst hfirst⟩
  · intro i m hm
    obtain ⟨k, hfirst⟩ := isFirst_indexOf ht (value_mem_of_get? hm)
    exact ⟨indexOf_le ht hm, k, hfirst.getElem, hfirst.holds⟩
  · intro hnames
    refine ⟨fun v hv => valueOf?_nameOf hnames hv, fun hsentinel v hv => ?_⟩
    rw [nameOf_of_not_mem hv]
    exact valueOf?_eq_none.2 hsentinel

/-- Two members share a value, which leads to the name of the first one and back. -/
theorem lookups_first_shared_value :
    let t : Table Int := ⟨"Low, Least = 0, Top = 7".toList, [⟨0, "Low".toList, "Low".toList, 0⟩,
      ⟨0, "Least".toList, " Least = 0".toList, 1⟩, ⟨7, "Top".toList, " Top = 7".toList, 2⟩]⟩
    ofText t.text [0, 0, 7] = .ok t ∧ t.names.Nodup ∧ absentName ∉ t.names ∧
      t.valueOf? (t.nameOf 0) = some 0 ∧ t.valueOf? (t.nameOf 5) = none ∧
      ¬ ∀ i m, t.get? i = some m → t.indexOf m.value = i := by
  intro t
  have ht : ofText t.text [0, 0, 7] = .ok t := by decide +kernel
  have hnames : t.names.Nodup := by decide
  have hsentinel : absentName ∉ t.names := by decide
  obtain ⟨-, -, -, -, -, -, -, hplaces, hback⟩ := lookups_first ht
  obtain ⟨hmember, habsent⟩ := hback hnames
  refine ⟨ht, hnames, hsentinel, hmember 0 (by simp [values, t]),
    habsent hsentinel 5 (by simp [values, t]), ?_⟩
  rw [hplaces]
  simp [values, t]

end EnumReflection.Table
