import EnumReflection.Proofs.Enumeration.Agreement
import EnumReflection.Proofs.Table.Lookup
import Mathlib.Data.Fin.VecNotation

/-!
# Conversions of an enumeration undo each other

A variant, its place, its name and its discriminant lead to one another, each through a search of
its own: three over the table and one over the variants. A language guarantees that discriminants
and identifiers are distinct, and the table takes this over from them.
-/
namespace EnumReflection.Enumeration

variable {E : Type} {e : Enumeration E}

theorem discriminant_of_ofDiscriminant? {n : Int} {v : E} (h : e.ofDiscriminant? n = some v) :
    e.discriminant v = n := by
  have hfound := List.find?_some h
  simpa using hfound

theorem ofDiscriminant?_eq_none {n : Int} :
    e.ofDiscriminant? n = none ↔ n ∉ e.variants.map e.discriminant := by
  simp [ofDiscriminant?]

theorem parse_eq_ok_iff {t : Table E} {input : Text} {v : E} :
    e.parse t input = .ok v ↔ t.valueOf? input = some v := by
  unfold parse
  cases t.valueOf? input <;> simp

theorem parse_of_not_mem {t : Table E} {input : Text} (h : input ∉ t.names) :
    e.parse t input = .error ⟨e.name, input⟩ := by
  rw [parse, Table.valueOf?_eq_none.2 h]

/-- The conversions of an enumeration whose table is built are inverse to each other. That its
variants are distinct follows from their discriminants. -/
theorem conversions_inverse [DecidableEq E] {text : Text} {idents : List Text}
    {written : List (Option Int)} {t : Table E} (h : e.build text idents written = .ok t)
    (discriminants_distinct : (e.variants.map e.discriminant).Nodup)
    (idents_distinct : (idents.map bareIdent).Nodup) :
    (∀ (i : Nat) (v : E), e.variants[i]? = some v →
      t.indexOf v = i ∧
      (∃ ident, idents[i]? = some ident ∧ t.nameOf v = bareIdent ident) ∧
      (Numbering.values e.type written)[i]? = some (e.discriminant v) ∧
      e.ofDiscriminant? (e.discriminant v) = some v ∧
      (t.get? i).map Member.value = some v ∧
      e.parse t (t.nameOf v) = .ok v) ∧
    (∀ (s : Text) (v : E), e.parse t s = .ok v → t.nameOf v = s) ∧
    (∀ s : Text, s ∉ idents.map bareIdent → e.parse t s = .error ⟨e.name, s⟩) ∧
    (∀ (n : Int) (v : E), e.ofDiscriminant? n = some v → e.discriminant v = n) ∧
    (∀ n : Int, n ∉ e.variants.map e.discriminant → e.ofDiscriminant? n = none) := by
  have agrees := agrees_of_build h
  have hvalues : t.values.Nodup := agrees.values_eq ▸ discriminants_distinct.of_map
  have hnames : t.names.Nodup := agrees.names ▸ idents_distinct
  refine ⟨?_, ?_, ?_, fun n v hv => discriminant_of_ofDiscriminant? hv,
    fun n hn => ofDiscriminant?_eq_none.2 hn⟩
  · intro i v hv
    obtain ⟨m, ident, hm, hident, rfl, hindex, hname⟩ := agrees.exists_member hv
    have hmem : m ∈ t.members := List.mem_of_getElem? hm
    have hnameOf := Table.nameOf_of_mem hvalues hmem
    refine ⟨?_, ⟨ident, hident, hnameOf.trans hname⟩, ?_, ?_, ?_, ?_⟩
    · rw [Table.indexOf_of_mem hvalues hmem, hindex]
    · rw [← agrees.values, List.getElem?_map, hv, Option.map_some]
    · exact (find?_key_eq_some_iff discriminants_distinct).2 ⟨List.mem_of_getElem? hv, rfl⟩
    · rw [Table.get?, hm, Option.map_some]
    · rw [parse_eq_ok_iff, hnameOf]
      exact (Table.valueOf?_eq_some_iff hnames).2 ⟨m, hmem, rfl, rfl⟩
  · intro s v hs
    obtain ⟨m, hmem, hname, rfl⟩ := (Table.valueOf?_eq_some_iff hnames).1 (parse_eq_ok_iff.1 hs)
    rw [Table.nameOf_of_mem hvalues hmem, hname]
  · intro s hs
    exact parse_of_not_mem (agrees.names ▸ hs)

/-- Raw identifiers that are keywords, and discriminants that are not the places of the variants. -/
theorem conversions_inverse_raw_identifiers :
    let e : Enumeration (Fin 3) :=
      { name := "Keyword".toList, type := .i8, variants := [0, 1, 2], discriminant := ![-1, 4, 5],
        text := "r#type = -1, r#match = 4, plain".toList,
        idents := ["r#type".toList, "r#match".toList, "plain".toList],
        written := [some (-1), some 4, none] }
    ∃ t, e.table = .ok t ∧ (e.variants.map e.discriminant).Nodup ∧
      (e.idents.map bareIdent).Nodup ∧ t.indexOf 1 = 1 ∧ e.parse t (t.nameOf 1) = .ok 1 ∧
      e.parse t "r#match".toList = .error ⟨e.name, "r#match".toList⟩ := by
  intro e
  let t : Table (Fin 3) := ⟨e.text, [⟨0, "type".toList, "r#type = -1".toList, 0⟩,
    ⟨1, "match".toList, " r#match = 4".toList, 1⟩, ⟨2, "plain".toList, " plain".toList, 2⟩]⟩
  have hbuild : e.build e.text e.idents e.written = .ok t := by decide +kernel
  have hdiscriminants : (e.variants.map e.discriminant).Nodup := by decide
  have hidents : (e.idents.map bareIdent).Nodup := by decide
  obtain ⟨hplaces, -, hunknown, -, -⟩ := conversions_inverse hbuild hdiscriminants hidents
  obtain ⟨hindex, -, -, -, -, hparse⟩ := hplaces 1 1 rfl
  exact ⟨t, hbuild, hdiscriminants, hidents, hindex, hparse, hunknown _ (by decide)⟩

end EnumReflection.Enumeration
