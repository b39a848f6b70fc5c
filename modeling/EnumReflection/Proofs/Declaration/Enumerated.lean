import EnumReflection.Proofs.Declaration.Outcome
import EnumReflection.Proofs.Enumeration.Agreement
import Mathlib.Data.Fin.VecNotation

/-!
# Declarations that a language could stand behind

A declaration on its own is counted in 128 bits and checked against its type at the end, while
an enumeration is counted in its own width and checked against its discriminants. Whatever is
accepted on its own is accepted as an enumeration too, with the same members: no value that fits
the type was reached by wrapping.
-/
namespace EnumReflection

namespace Enumeration

theorem bareIdent_of_isIdentifier {t : Text} (h : Name.IsIdentifier t) : bareIdent t = t := by
  unfold bareIdent
  split
  · exact absurd (h.all '#' (by simp)) (by decide)
  · rfl

end Enumeration

namespace Table

variable {α : Type} {text : Text} {values : List α} {t : Table α}

theorem Holds.map_bareIdent_names (h : Holds text values t) :
    t.names.map Enumeration.bareIdent = t.names := by
  rw [Table.names, List.map_map]
  apply List.map_congr_left
  intro m hm
  obtain ⟨⟨name, tail⟩, hread, hname⟩ := Option.map_eq_some_iff.1 (h.name_eq hm)
  apply Enumeration.bareIdent_of_isIdentifier
  rw [← hname]
  exact (Name.read?_eq_some hread).1

theorem names_eq_of_map_declared_eq {β : Type} {u : Table β}
    (h : t.members.map Member.declared = u.members.map Member.declared) : t.names = u.names := by
  have hfirst := congrArg (List.map Prod.fst) h
  rw [List.map_map, List.map_map] at hfirst
  exact hfirst

end Table

namespace Declaration
open EnumReflection.Numbering (contains_written)

/-- A declaration that is accepted on its own is accepted for every enumeration with its values as
discriminants, and has the same members there. -/
theorem build_of_table {type : IntType} (htype : type ∈ Command.offeredTypes) {text : Text}
    {t : Table Int} (h : table type text = .ok t) :
    ∃ written, Initializer.ofText text = .ok written ∧
      (∀ v, some v ∈ written → type.Contains v) ∧
      Numbering.values type written = t.values ∧
      ∀ (E : Type) (e : Enumeration E), e.type = type →
        e.variants.map e.discriminant = t.values →
        ∃ u, e.build text t.names written = .ok u ∧
          u.members.map Member.declared = t.members.map Member.declared := by
  obtain ⟨written, writes, named, fits, holds⟩ := accepted_of_table htype h
  have hcount : Numbering.values type written = t.values :=
    (Numbering.count_of_fits fits).trans holds.values_eq.symm
  refine ⟨written, ofText_of_writes writes, fun v hv => contains_written fits hv, hcount, ?_⟩
  rintro E e rfl hvalues
  have hlen : e.variants.length = (Numbering.countUp 0 written).length := by
    rw [← holds.values_eq, ← hvalues, List.length_map]
  have hmembers : e.variants.length = Segment.memberCount text := by
    rw [hlen, Numbering.length_countUp, length_of_writes writes]
  have hnamed : ∀ b ∈ (Segment.bodies text).take e.variants.length, ¬ Table.Nameless b := by
    rw [hmembers]
    exact Table.named_iff.1 named
  obtain ⟨u, hu, htexts⟩ := Table.ofText_of_named hnamed hmembers
  have hdeclared := (Table.holds_of_texts hu htexts).map_declared_eq holds hlen
  have hnames : u.names = t.names.map Enumeration.bareIdent := by
    rw [holds.map_bareIdent_names]
    exact Table.names_eq_of_map_declared_eq hdeclared
  have agrees : Enumeration.Agrees e text t.names written u :=
    ⟨hvalues.trans hcount.symm, hu, hnames⟩
  exact ⟨u, agrees.build_eq, hdeclared⟩

/-- Values at both ends of the type, one of them counted on from the least. -/
theorem build_of_table_ends :
    let text : Text := "#[max] Top = 0x7F, r#type = 5, Bottom = -128_i8, Next".toList
    let e : Enumeration (Fin 4) := ⟨"Ends".toList, .i8, [0, 1, 2, 3], ![127, 5, -128, -127], text,
      ["Top".toList, "type".toList, "Bottom".toList, "Next".toList],
      [some 127, some 5, some (-128), none]⟩
    .i8 ∈ Command.offeredTypes ∧
      ∃ t, table .i8 text = .ok t ∧ e.variants.map e.discriminant = t.values ∧
        ∃ u, e.table = .ok u ∧ u.members.map Member.declared = t.members.map Member.declared := by
  intro text e
  let t : Table Int := ⟨text, [⟨127, "Top".toList, "#[max] Top = 0x7F".toList, 0⟩,
    ⟨5, "type".toList, " r#type = 5".toList, 1⟩,
    ⟨-128, "Bottom".toList, " Bottom = -128_i8".toList, 2⟩,
    ⟨-127, "Next".toList, " Next".toList, 3⟩]⟩
  have htable : table .i8 text = .ok t := by decide +kernel
  have hvalues : e.variants.map e.discriminant = t.values := by decide
  obtain ⟨written, hwritten, -, -, hbuild⟩ := build_of_table (by decide) htable
  have hwritten' : Initializer.ofText text = .ok e.written := by decide +kernel
  rw [hwritten'] at hwritten
  cases hwritten
  exact ⟨by decide, t, htable, hvalues, hbuild (Fin 4) e rfl hvalues⟩

end Declaration

end EnumReflection
