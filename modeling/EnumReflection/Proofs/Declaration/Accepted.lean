import EnumReflection.Proofs.Declaration.Outcome
import EnumReflection.Proofs.Numeral
import EnumReflection.Proofs.Prelude

/-!
# What an accepted declaration is made of

If a declaration has a table, each of its member segments is a prelude, a name and perhaps an
integer, and the whole segment is used up by these. One gap is left: the name is searched for and
not expected, so between the prelude and the name anything may stand that starts no identifier.
-/
namespace EnumReflection
open Trivia (IsLayout IsPadding)

namespace Initializer

/-- What follows a name: layout, and perhaps an equals sign and an integer. -/
inductive IsTail : Text → Option Int → Prop
  | bare {t : Text} : IsPadding t → IsTail t none
  | valued {g t : Text} {v : Int} : IsLayout g → Literal.IsLiteral t v →
      IsTail (g ++ '=' :: t) (some v)

theorem isTail_of_afterName {tail : Text} {w : Option Int} (h : afterName tail = .ok w) :
    IsTail tail w := by
  unfold afterName at h
  split at h
  · rename_i hskip
    cases h
    exact .bare (Trivia.isPadding_of_isBlank (by rw [Trivia.isBlank, hskip]; rfl))
  rename_i c r hskip
  split at h
  · rename_i hc
    subst hc
    cases hparse : Literal.parse r with
    | error e =>
      rw [hparse] at h
      cases h
    | ok v =>
      rw [hparse] at h
      cases h
      obtain ⟨g, hg, ht⟩ := Trivia.exists_layout (t := tail) (by simp [hskip])
      rw [hskip] at ht
      rw [← ht]
      exact .valued hg (Literal.isLiteral_of_parse hparse)
  · cases h

end Initializer

/-- A segment that declares a member, with the value that it writes. -/
structure DeclaresMember (segment : Text) (p : Name.Parts) (written : Option Int) : Prop where
  parts : Name.HasParts segment p
  tail : Initializer.IsTail p.tail written

namespace Name

theorem head_of_isPrelude {t : Text} (h : IsPrelude t) (hne : t ≠ []) :
    ∃ c r, t = c :: r ∧ (c = '#' ∨ c ∈ Trivia.layoutHeads) := by
  have hlayout : ∀ {g : Text} (u : Text), IsLayout g → g ≠ [] →
      ∃ c r, g ++ u = c :: r ∧ (c = '#' ∨ c ∈ Trivia.layoutHeads) := by
    intro g u hg hne
    obtain ⟨c, r, rfl⟩ := List.exists_cons_of_ne_nil hne
    exact ⟨c, r ++ u, rfl, Or.inr (Trivia.head_mem_layoutHeads hg rfl)⟩
  cases h with
  | layout hg => simpa using hlayout [] hg hne
  | @attributed g a u hg ha _ =>
    by_cases hg' : g = []
    · subst hg'
      cases ha with
      | outer _ _ => exact ⟨'#', _, rfl, Or.inl rfl⟩
      | inner _ _ _ => exact ⟨'#', _, rfl, Or.inl rfl⟩
    · exact hlayout (a ++ u) hg hg'

theorem HasParts.exists_rest {segment : Text} {p : Parts} (h : HasParts segment p)
    (hskipped : p.skipped = []) : ∃ c r, p.rest = c :: r ∧ isWordStart c = true := by
  obtain ⟨d, s, hs, hd⟩ := h.name.start
  rw [Parts.rest, hskipped, hs]
  rcases h.mark with hmark | hmark
  · exact ⟨d, s ++ p.tail, by rw [hmark]; rfl, hd⟩
  · exact ⟨'r', '#' :: d :: (s ++ p.tail), by rw [hmark]; rfl, rfl⟩

theorem HasParts.skipped_eq_nil_iff {segment : Text} {p : Parts} (h : HasParts segment p) :
    p.skipped = [] ↔ ∃ c r, p.rest = c :: r ∧ isWordStart c = true := by
  refine ⟨h.exists_rest, ?_⟩
  rintro ⟨c, r, hr, hc⟩
  cases hskipped : p.skipped with
  | nil => rfl
  | cons d s =>
    rw [Parts.rest, hskipped] at hr
    obtain ⟨rfl, -⟩ := List.cons.inj hr
    rw [h.skipped d (by simp [hskipped])] at hc
    cases hc

theorem head_of_hasParts {segment : Text} {p : Parts} (h : HasParts segment p)
    (hskipped : p.skipped = []) :
    ∃ c r, segment = c :: r ∧ (c = '#' ∨ c ∈ Trivia.layoutHeads ∨ isWordStart c = true) := by
  by_cases hne : p.prelude = []
  · obtain ⟨c, r, hr, hc⟩ := h.exists_rest hskipped
    exact ⟨c, r, by rw [h.text_eq, hne, hr]; rfl, Or.inr (Or.inr hc)⟩
  · obtain ⟨c, r, hr, hc⟩ := head_of_isPrelude h.prelude hne
    refine ⟨c, r ++ p.rest, by rw [h.text_eq, hr]; rfl, ?_⟩
    exact hc.imp_right Or.inl

end Name

namespace Declaration
open Report (memberSegments)

theorem holds_of_table {type : IntType} (htype : type ∈ Command.offeredTypes) {text : Text}
    {t : Table Int} (h : table type text = .ok t) :
    ∃ written, Writes text written ∧ Table.Holds text (Numbering.countUp 0 written) t := by
  obtain ⟨written, writes, -, -, holds⟩ := accepted_of_table htype h
  exact ⟨written, writes, holds⟩

/-- The segments of an accepted declaration declare the members of its table. Whatever stands
before a name is a prelude as long as it can be, and then starts no identifier. Nothing does so
exactly where the prelude is followed by what can start an identifier. -/
theorem declaresMember_of_table {type : IntType} (htype : type ∈ Command.offeredTypes) {text : Text}
    {t : Table Int} (h : table type text = .ok t) {i : Nat} {s : Segment}
    (hs : (memberSegments text)[i]? = some s) :
    ∃ m p written, t.members[i]? = some m ∧ m.text = s.text ∧ m.name = p.name ∧
      (∀ v, written = some v → m.value = v) ∧ DeclaresMember s.text p written ∧
      Trivia.skip p.rest = p.rest ∧ Name.afterAttribute? p.rest = none ∧
      (p.skipped = [] ↔ ∃ c r, p.rest = c :: r ∧ Name.isWordStart c = true) := by
  obtain ⟨ws, writes, holds⟩ := holds_of_table htype h
  obtain ⟨w, hw, hvalue⟩ : ∃ w, ws[i]? = some w ∧ Initializer.ofSegment s.text = .ok w := by
    have hget := congrArg (·[i]?) writes
    simp only [List.getElem?_map, hs, Option.map_some] at hget
    obtain ⟨w, hw, he⟩ := Option.map_eq_some_iff.1 hget.symm
    exact ⟨w, hw, he.symm⟩
  have hi : i < t.members.length := by
    have hlt := (List.getElem?_eq_some_iff.1 hw).1
    rw [holds.length_eq, Numbering.length_countUp]
    exact hlt
  have hm := List.getElem?_eq_getElem hi
  obtain ⟨hcount, -, s', hs', htext, hname⟩ := holds.member i _ hm
  rw [getElem?_segments_of_memberSegments hs] at hs'
  cases hs'
  obtain ⟨⟨name, tail⟩, hread, rfl⟩ := Option.map_eq_some_iff.1 hname
  obtain ⟨p, hp, hpname, hptail, hskip, hnone⟩ := Name.exists_parts hread
  refine ⟨_, p, w, hm, htext, hpname.symm, ?_, ⟨hp, ?_⟩, hskip, hnone, hp.skipped_eq_nil_iff⟩
  · rintro v rfl
    rw [Numbering.getElem?_countUp_of_written 0 hw] at hcount
    exact (Option.some.inj hcount).symm
  · rw [Initializer.ofSegment, hread] at hvalue
    rw [hptail]
    exact Initializer.isTail_of_afterName hvalue

/-- An attribute and comments that hold brackets and commas, a raw name and a negative number. -/
theorem declaresMember_of_table_raw :
    ∃ text t s,
      text = "#[doc = \"],[\"] // x, y\n r#match /* , */ = -/*s*/ 0x_1F_u8, 7B /*,".toList ∧
      IntType.i8 ∈ Command.offeredTypes ∧ table .i8 text = .ok t ∧
      (memberSegments text)[0]? = some s ∧
      s.text = "#[doc = \"],[\"] // x, y\n r#match /* , */ = -/*s*/ 0x_1F_u8".toList ∧
      ∃ m p written, t.members[0]? = some m ∧ m.text = s.text ∧ m.name = p.name ∧
        (∀ v, written = some v → m.value = v) ∧ DeclaresMember s.text p written ∧
        Trivia.skip p.rest = p.rest ∧ Name.afterAttribute? p.rest = none ∧
        (p.skipped = [] ↔ ∃ c r, p.rest = c :: r ∧ Name.isWordStart c = true) := by
  have htable : table .i8
      "#[doc = \"],[\"] // x, y\n r#match /* , */ = -/*s*/ 0x_1F_u8, 7B /*,".toList =
      .ok ⟨"#[doc = \"],[\"] // x, y\n r#match /* , */ = -/*s*/ 0x_1F_u8, 7B /*,".toList,
        [⟨-31, "match".toList,
          "#[doc = \"],[\"] // x, y\n r#match /* , */ = -/*s*/ 0x_1F_u8".toList, 0⟩,
        ⟨-30, "B".toList, " 7B /*,".toList, 1⟩]⟩ := by
    decide +kernel
  have hsegment : (memberSegments
      "#[doc = \"],[\"] // x, y\n r#match /* , */ = -/*s*/ 0x_1F_u8, 7B /*,".toList)[0]? =
      some ⟨0, 57, "#[doc = \"],[\"] // x, y\n r#match /* , */ = -/*s*/ 0x_1F_u8".toList⟩ := by
    decide +kernel
  exact ⟨_, _, _, rfl, by decide, htable, hsegment, rfl,
    declaresMember_of_table (by decide) htable hsegment⟩

/-- A name is taken from a comment after an initializer that no name stands before. -/
theorem table_of_initializer_only :
    table .i32 "= 5 // A".toList = .ok ⟨"= 5 // A".toList, [⟨0, ['A'], "= 5 // A".toList, 0⟩]⟩ ∧
      (memberSegments "= 5 // A".toList).map Segment.text = ["= 5 // A".toList] ∧
      ¬ ∃ p written, DeclaresMember "= 5 // A".toList p written ∧ p.skipped = [] := by
  refine ⟨by decide +kernel, by decide +kernel, ?_⟩
  rintro ⟨p, written, h, hskipped⟩
  obtain ⟨c, r, hr, hc⟩ := Name.head_of_hasParts h.parts hskipped
  obtain ⟨rfl, -⟩ := List.cons.inj hr
  revert hc
  decide

end Declaration

end EnumReflection
