import EnumReflection.Proofs.Body
import EnumReflection.Proofs.Declaration.Outcome
import EnumReflection.Proofs.Spelling
import EnumReflection.Proofs.Tiling

/-!
# Declarations as they are written

A member is written as its name and perhaps an equals sign and an integer, with layout between
all of these, and members are joined by commas. The table of such a declaration has the names
that were written and the values that they count up to, with the texts of the members as they
were. Splitting, names, values and blanks all pass over the same layout.
-/
namespace EnumReflection
open Trivia (IsComment IsLayout)

/-- The texts that write a member with a name and perhaps a value of 128 bits. -/
inductive WritesMember : Text → Text → Option Int → Prop
  | bare {g name h : Text} : IsLayout g → Name.IsIdentifier name → IsLayout h →
      WritesMember (g ++ (name ++ h)) name none
  | valued {g name h t : Text} {v : Int} : IsLayout g → Name.IsIdentifier name → IsLayout h →
      Literal.Writes t v → IntType.i128.Contains v →
      WritesMember (g ++ (name ++ (h ++ '=' :: t))) name (some v)

structure WrittenMember where
  text : Text
  name : Text
  value : Option Int
  writes : WritesMember text name value

/-- The texts that write a list of members, with a comma after the last one or without. -/
inductive WritesMembers (ms : List WrittenMember) : Text → Prop
  | plain : WritesMembers ms (Text.join [','] (ms.map WrittenMember.text))
  | trailing {g : Text} : ms ≠ [] → IsLayout g →
      WritesMembers ms (Text.join [','] (ms.map WrittenMember.text) ++ ',' :: g)

section
variable {text name : Text} {value : Option Int}

theorem WritesMember.exists_tail (h : WritesMember text name value) :
    ∃ tail, Name.read? text = some (name, tail) ∧ Initializer.afterName tail = .ok value := by
  cases h with
  | @bare g name h hg hname hh =>
    refine ⟨h, Name.read?_layout hg hname (Name.endsName_layout hh), ?_⟩
    have hskip : Trivia.skip h = [] := by simpa [Trivia.isBlank] using Trivia.isBlank_layout hh
    rw [Initializer.afterName, hskip]
  | @valued g name h t v hg hname hh ht hv =>
    refine ⟨h ++ '=' :: t, Name.read?_layout hg hname (Name.endsName_layout_append hh), ?_⟩
    have hskip : Trivia.skip (h ++ '=' :: t) = '=' :: t := by
      rw [Trivia.skip_layout hh, Trivia.skip_of_plain (by decide) (by decide)]
    rw [Initializer.afterName, hskip]
    simp only [if_true]
    rw [Literal.parse_of_writes ht hv]

theorem WritesMember.ofSegment_eq (h : WritesMember text name value) :
    Name.ofSegment? text = some name ∧ Initializer.ofSegment text = .ok value := by
  obtain ⟨tail, hread, hafter⟩ := h.exists_tail
  constructor
  · rw [Name.ofSegment?, hread]
    rfl
  · rw [Initializer.ofSegment, hread]
    exact hafter

theorem WritesMember.not_nameless (h : WritesMember text name value) : ¬ Table.Nameless text := by
  intro hn
  rw [Table.Nameless, h.ofSegment_eq.1] at hn
  cases hn

theorem not_mem_marks_of_spells {t : Text} {m : Nat} (h : Literal.Spells t m) :
    ∀ c ∈ t, c ∉ Segment.marks := by
  have hdigits : ∀ {mark run : Text} {base : Nat}, Literal.IsMark mark base →
      Literal.IsRun base mark run → ∀ c ∈ mark ++ run, c ∉ Segment.marks := by
    intro mark run base hm hrun c hc hmarks
    have hall : ∀ d ∈ Segment.marks, d ≠ '_' ∧ Text.digitValue? d = none ∧
        d ∉ '0' :: Literal.radixLetters := Text.forall_of_all (by decide)
    obtain ⟨hne, hnone, hletter⟩ := hall c hmarks
    rcases List.mem_append.1 hc with hc | hc
    · exact hletter (hm.all c hc)
    · rcases hrun.all c hc with rfl | ⟨d, hd, -⟩
      · exact hne rfl
      · rw [hnone] at hd
        cases hd
  cases h with
  | plain hm hrun => exact hdigits hm hrun
  | typed type hm hrun =>
    intro c hc
    rcases List.mem_append.1 hc with hc | hc
    · exact hdigits hm hrun c hc
    · have hall : ∀ ty : IntType, ∀ d ∈ ty.name, d ∉ Segment.marks := by
        intro ty
        cases ty <;> exact Text.forall_of_all (by decide)
      exact hall type c hc

theorem atoms_of_writes {t : Text} {v : Int} (h : Literal.Writes t v) : Segment.Atoms t := by
  have hnumber : ∀ {t h : Text} {m : Nat}, Literal.Spells t m → IsLayout h →
      Segment.Atoms (t ++ h) := fun ht hh =>
    (Segment.Atoms.of_plain (not_mem_marks_of_spells ht)).append (.of_layout hh)
  cases h with
  | unsigned hg ht hh => exact (Segment.Atoms.of_layout hg).append (hnumber ht hh)
  | positive hg hg' ht hh =>
    exact (Segment.Atoms.of_layout hg).append
      (.cons (.plain (by decide)) ((Segment.Atoms.of_layout hg').append (hnumber ht hh)))
  | negative hg hg' ht hh =>
    exact (Segment.Atoms.of_layout hg).append
      (.cons (.plain (by decide)) ((Segment.Atoms.of_layout hg').append (hnumber ht hh)))

theorem WritesMember.closed (h : WritesMember text name value) : Segment.Closed text := by
  apply Segment.WellFormed.closed
  apply Segment.Atoms.wellFormed
  cases h with
  | bare hg hn hh =>
    exact (Segment.Atoms.of_layout hg).append
      ((Segment.Atoms.of_isIdentifier hn).append (.of_layout hh))
  | valued hg hn hh ht _ =>
    exact (Segment.Atoms.of_layout hg).append ((Segment.Atoms.of_isIdentifier hn).append
      ((Segment.Atoms.of_layout hh).append (.cons (.plain (by decide)) (atoms_of_writes ht))))

end

theorem join_append_singleton {ts : List Text} (hne : ts ≠ []) (t : Text) :
    Text.join [','] (ts ++ [t]) = Text.join [','] ts ++ ',' :: t := by
  have happ := intercalate_append [','] hne (List.cons_ne_nil t [])
  rw [List.intercalate_singleton] at happ
  exact happ

theorem memberBodies_of_writes {ms : List WrittenMember} {text : Text}
    (h : WritesMembers ms text) : Segment.memberBodies text = ms.map WrittenMember.text := by
  have hclosed : ∀ t ∈ ms.map WrittenMember.text, Segment.Closed t := by
    rw [List.forall_mem_map]
    exact fun m _ => m.writes.closed
  cases h with
  | plain =>
    cases ms with
    | nil => exact Segment.memberBodies_eq_nil.2 Trivia.isBlank_nil
    | cons m ms =>
      have hbodies := Segment.bodies_join (by simp) hclosed
      rw [Table.memberBodies_of_named, hbodies]
      rw [hbodies, List.forall_mem_map]
      exact fun n _ => n.writes.not_nameless
  | @trailing g hne hg =>
    have hlast : Segment.Closed g := (Segment.Atoms.of_layout hg).wellFormed.closed
    have hbodies : Segment.bodies (Text.join [','] (ms.map WrittenMember.text) ++ ',' :: g) =
        ms.map WrittenMember.text ++ Segment.bodies g := by
      rw [← join_append_singleton (by simpa using hne), Segment.bodies_of_closed hlast]
      apply Segment.bodies_join (by simp)
      intro t ht
      rcases List.mem_append.1 ht with ht | ht
      · exact hclosed t ht
      · rw [List.mem_singleton.1 ht]
        exact hlast
    rw [Segment.memberBodies_append hbodies,
      Segment.memberBodies_eq_nil.2 (Trivia.isBlank_layout hg), List.append_nil]

namespace Declaration
open Report (memberSegments)

theorem writes_of_written {ms : List WrittenMember} {text : Text} (h : WritesMembers ms text) :
    Writes text (ms.map WrittenMember.value) := by
  rw [Writes, map_ofSegment, memberBodies_of_writes h, List.map_map, List.map_map]
  apply List.map_congr_left
  intro m _
  exact m.writes.ofSegment_eq.2

theorem named_of_written {ms : List WrittenMember} {text : Text} (h : WritesMembers ms text) :
    ∀ s ∈ memberSegments text, ¬ Table.Nameless s.text := by
  rw [← List.forall_mem_map (P := fun b => ¬ Table.Nameless b), map_text_memberSegments,
    memberBodies_of_writes h, List.forall_mem_map]
  exact fun m _ => m.writes.not_nameless

/-- A declaration has a table exactly when the values that its members count up to fit the type,
and then the table has the names, values and texts that were written. -/
theorem table_of_written {type : IntType} (htype : type ∈ Command.offeredTypes)
    {ms : List WrittenMember} {text : Text} (h : WritesMembers ms text) :
    ((∃ t, table type text = .ok t) ↔
      ∀ v ∈ Numbering.countUp 0 (ms.map WrittenMember.value), type.Contains v) ∧
    ∀ t, table type text = .ok t → t.text = text ∧ t.names = ms.map WrittenMember.name ∧
      t.values = Numbering.countUp 0 (ms.map WrittenMember.value) ∧
      t.members.map Member.text = ms.map WrittenMember.text := by
  have writes := writes_of_written h
  have named := named_of_written h
  have hiff := exists_table_iff writes named htype
  refine ⟨hiff, ?_⟩
  intro t ht
  obtain ⟨u, hu, holds⟩ := table_of_fits writes named htype (hiff.1 ⟨t, ht⟩)
  rw [ht] at hu
  cases hu
  have hlen : (Numbering.countUp 0 (ms.map WrittenMember.value)).length =
      Segment.memberCount text := by
    rw [Numbering.length_countUp, length_of_writes writes]
  have htexts := holds.texts_eq hlen
  rw [memberBodies_of_writes h] at htexts
  refine ⟨holds.text_eq, ?_, holds.values_eq, htexts⟩
  have hnames : t.names.map some = (ms.map WrittenMember.name).map some := by
    have hread : t.names.map some = (t.members.map Member.text).map Name.ofSegment? := by
      rw [Table.names, List.map_map, List.map_map]
      apply List.map_congr_left
      intro m hm
      exact (holds.name_eq hm).symm
    rw [hread, htexts, List.map_map, List.map_map]
    apply List.map_congr_left
    intro m _
    exact m.writes.ofSegment_eq.1
  exact List.map_injective_iff.2 (fun _ _ he => Option.some.inj he) hnames

/-- Two members among comments with commas, a quote and brackets, and a comma after the last. -/
theorem table_of_written_negative_hexadecimal :
    ∃ ms : List WrittenMember, IntType.i8 ∈ Command.offeredTypes ∧
      WritesMembers ms "/*a,\"*/A = -/*(*/0x7F_u8,//[,\n_b2\t, /*,*/".toList ∧
      ∃ t, table .i8 "/*a,\"*/A = -/*(*/0x7F_u8,//[,\n_b2\t, /*,*/".toList = .ok t ∧
        t.names = ["A".toList, "_b2".toList] ∧ t.values = [-127, -126] ∧
        t.members.map Member.text = ["/*a,\"*/A = -/*(*/0x7F_u8".toList, "//[,\n_b2\t".toList] := by
  have hquote : IsComment "/*a,\"*/".toList :=
    .block (show ¬ ['*', '/'] <:+: "a,\"".toList ++ ['*'] by decide)
  have hround : IsComment "/*(*/".toList :=
    .block (show ¬ ['*', '/'] <:+: "(".toList ++ ['*'] by decide)
  have hcomma : IsComment "/*,*/".toList :=
    .block (show ¬ ['*', '/'] <:+: ",".toList ++ ['*'] by decide)
  have hsquare : IsComment "//[,\n".toList :=
    .line (show ∀ c ∈ "[,".toList, Trivia.endsLine c = false from Text.forall_of_all (by decide)) rfl
  have hrun : Literal.IsRun 16 "0x".toList "7F_".toList := by
    refine ⟨Text.forall_of_all (by decide), ⟨'7', by decide, by decide⟩, ?_⟩
    intro he
    cases he
  have hnumber : Literal.Spells "0x7F_u8".toList 127 := .typed .u8 (.hexadecimal (by decide)) hrun
  have hvalue : Literal.Writes " -/*(*/0x7F_u8".toList (-127) :=
    .negative (.space rfl .nil) (.comment hround .nil) hnumber .nil
  have hA : Name.IsIdentifier "A".toList := ⟨⟨'A', [], rfl, by decide⟩, Text.forall_of_all (by decide)⟩
  have hb : Name.IsIdentifier "_b2".toList :=
    ⟨⟨'_', "b2".toList, rfl, by decide⟩, Text.forall_of_all (by decide)⟩
  have hfirst : WritesMember "/*a,\"*/A = -/*(*/0x7F_u8".toList "A".toList (some (-127)) :=
    .valued (.comment hquote .nil) hA (.space rfl .nil) hvalue (by decide)
  have hsecond : WritesMember "//[,\n_b2\t".toList "_b2".toList none :=
    .bare (.comment hsquare .nil) hb (.space rfl .nil)
  have h : WritesMembers [⟨_, _, _, hfirst⟩, ⟨_, _, _, hsecond⟩]
      "/*a,\"*/A = -/*(*/0x7F_u8,//[,\n_b2\t, /*,*/".toList :=
    .trailing (by simp) (.space rfl (.comment hcomma .nil))
  obtain ⟨hfits, htable⟩ := table_of_written (show IntType.i8 ∈ Command.offeredTypes by decide) h
  have hsmall : ∀ v ∈ Numbering.countUp 0 [some (-127), none], IntType.i8.Contains v := by decide
  obtain ⟨t, ht⟩ := hfits.2 hsmall
  obtain ⟨-, hnames, hvalues, htexts⟩ := htable t ht
  exact ⟨_, by decide, h, t, ht, hnames, hvalues, htexts⟩

end Declaration

end EnumReflection
