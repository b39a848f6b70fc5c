import EnumReflection.Enumeration

/-!
# When an enumeration agrees with its declaration

The table of an enumeration is accepted after checks of lengths, values, text and names in turn.
Together they say no more than three equations: the counted values are the discriminants, the
table is the one of the text and the variants, and its names are the identifiers.
-/
namespace EnumReflection.Enumeration

variable {E : Type}

/-- A table that the text, the identifiers and the written values of an enumeration agree on. -/
structure Agrees (e : Enumeration E) (text : Text) (idents : List Text)
    (written : List (Option Int)) (t : Table E) : Prop where
  values : e.variants.map e.discriminant = Numbering.values e.type written
  table : Table.ofText text e.variants = .ok t
  names : t.names = idents.map bareIdent

variable {e : Enumeration E} {text : Text} {idents : List Text} {written : List (Option Int)}
  {t : Table E}

theorem Agrees.values_eq (h : Agrees e text idents written t) : t.values = e.variants :=
  (Table.ofText_ok h.table).2.1

theorem Agrees.slots (h : Agrees e text idents written t) :
    (Numbering.values e.type written).length = e.variants.length := by
  rw [← h.values, List.length_map]

theorem Agrees.idents_length (h : Agrees e text idents written t) : idents.length = t.size := by
  have hlen := congrArg List.length h.names
  rw [Table.names, List.length_map, List.length_map] at hlen
  exact hlen.symm

theorem Agrees.build_eq (h : Agrees e text idents written t) :
    e.build text idents written = .ok t := by
  have hvalued : misvalued? e 0 e.variants (Numbering.values e.type written) = none :=
    (misvalued?_eq_none h.slots.symm).2 h.values
  have hnamed : misnamed? t.members idents = none :=
    (misnamed?_eq_none h.idents_length.symm).2 h.names
  simp only [build, h.slots, hvalued, h.table, h.idents_length, hnamed, ne_eq, not_true_eq_false,
    if_false]

theorem agrees_of_build (h : e.build text idents written = .ok t) :
    Agrees e text idents written t := by
  unfold build at h
  simp only at h
  split at h
  · cases h
  rename_i hslots
  split at h
  · cases h
  rename_i hvalued
  split at h
  · cases h
  rename_i u htable
  split at h
  · cases h
  rename_i hcount
  split at h
  · cases h
  rename_i hnamed
  cases h
  have hslots : e.variants.length = (Numbering.values e.type written).length :=
    (Decidable.not_not.1 hslots).symm
  have hcount : t.members.length = idents.length := (Decidable.not_not.1 hcount).symm
  exact ⟨(misvalued?_eq_none hslots).1 hvalued, htable, (misnamed?_eq_none hcount).1 hnamed⟩

theorem Agrees.exists_member (h : Agrees e text idents written t) {i : Nat} {v : E}
    (hv : e.variants[i]? = some v) :
    ∃ m ident, t.members[i]? = some m ∧ idents[i]? = some ident ∧ m.value = v ∧ m.index = i ∧
      m.name = bareIdent ident := by
  obtain ⟨-, hvalues, hindex, -⟩ := Table.ofText_ok h.table
  rw [← hvalues, Table.values, List.getElem?_map] at hv
  obtain ⟨m, hm, hmv⟩ := Option.map_eq_some_iff.1 hv
  have hi : i < t.size := (List.getElem?_eq_some_iff.1 hm).1
  have hx := congrArg (·[i]?) hindex
  simp only [List.getElem?_map, hm, Option.map_some, List.getElem?_range hi] at hx
  have hn := congrArg (·[i]?) h.names
  simp only [Table.names, List.getElem?_map, hm, Option.map_some] at hn
  obtain ⟨ident, hident, hname⟩ := Option.map_eq_some_iff.1 hn.symm
  exact ⟨m, ident, hm, hident, hmv, Option.some.inj hx, hname.symm⟩

end EnumReflection.Enumeration
