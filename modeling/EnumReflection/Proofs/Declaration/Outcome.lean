import EnumReflection.Proofs.Counting
import EnumReflection.Proofs.Messages
import EnumReflection.Proofs.Table.Outcome

/-!
# When a declaration has a table of its own

The values of a declaration are read, numbered and put into a table by three passes that each
split the text again. The outcome is said here of the member segments alone, with the reasons
for a failure in the order in which they win, and with what its messages say. Two refusals of the
table builder never come up, since all passes count the same members.
-/
namespace EnumReflection

namespace Initializer

def Unreadable (body : Text) : Prop := ∃ e, ofSegment body = .error e

theorem ofSegments_of_error {index i : Nat} {bodies : List Text} {b : Text} {e : InitializerError}
    (h : IsFirst Unreadable bodies i b) (he : ofSegment b = .error e) :
    ofSegments index bodies = .error ⟨index + i, b, e⟩ := by
  induction bodies generalizing index i with
  | nil => simp at h
  | cons c bodies ih =>
    cases i with
    | zero =>
      obtain ⟨rfl, -⟩ := IsFirst.cons_zero.1 h
      simp only [ofSegments, he, Nat.add_zero]
    | succ i =>
      obtain ⟨hc, h⟩ := IsFirst.cons_succ.1 h
      cases hw : ofSegment c with
      | error e' => exact absurd ⟨e', hw⟩ hc
      | ok w =>
        rw [ofSegments, hw]
        simp only
        rw [ih h, Nat.add_right_comm]
        rfl

theorem ofSegments_of_ok {index : Nat} {bodies : List Text} {written : List (Option Int)}
    (h : bodies.map ofSegment = written.map .ok) : ofSegments index bodies = .ok written := by
  induction bodies generalizing index written with
  | nil =>
    have hnil : written = [] := List.map_eq_nil_iff.1 h.symm
    rw [hnil]
    rfl
  | cons b bodies ih =>
    obtain ⟨w, ws, rfl, hw, hws⟩ := List.map_eq_cons_iff.1 h.symm
    rw [ofSegments, ← hw]
    simp only
    rw [ih hws.symm]
    rfl

theorem exists_error_or_ok (bodies : List Text) :
    (∃ b ∈ bodies, Unreadable b) ∨
      ∃ written : List (Option Int), bodies.map ofSegment = written.map .ok := by
  induction bodies with
  | nil => exact Or.inr ⟨[], rfl⟩
  | cons b bodies ih =>
    cases hb : ofSegment b with
    | error e => exact Or.inl ⟨b, by simp, e, hb⟩
    | ok w =>
      rcases ih with ⟨c, hc, he⟩ | ⟨ws, hws⟩
      · exact Or.inl ⟨c, by simp [hc], he⟩
      · exact Or.inr ⟨w :: ws, by simp [hb, hws]⟩

end Initializer

namespace Declaration
open Report (memberSegments)

def Writes (text : Text) (written : List (Option Int)) : Prop :=
  (memberSegments text).map (Initializer.ofSegment ·.text) = written.map .ok

/-- What becomes of a declaration. A value that cannot be read counts before a missing name, and
a missing name before a value that does not fit. -/
inductive Outcome (type : IntType) (text : Text) : Except DeclarationError (Table Int) → Prop
  | initializer {i : Nat} {s : Segment} {cause : InitializerError}
      (first : IsFirst (fun s => Initializer.Unreadable s.text) (memberSegments text) i s)
      (cause_eq : Initializer.ofSegment s.text = .error cause) :
      Outcome type text (.error (.initializer ⟨i, s.text, cause⟩))
  | nameless {written : List (Option Int)} {i : Nat} {s : Segment} (writes : Writes text written)
      (first : IsFirst (fun s => Table.Nameless s.text) (memberSegments text) i s) :
      Outcome type text (.error (.malformed (.nameless i s.text)))
  | misfit {written : List (Option Int)} {i : Nat} {v : Int} {s : Segment} {name : Text}
      (writes : Writes text written)
      (named : ∀ s ∈ memberSegments text, ¬ Table.Nameless s.text)
      (first : IsFirst (¬ type.Contains ·) (Numbering.countUp 0 written) i v)
      (segment : (memberSegments text)[i]? = some s) (name_eq : Name.ofSegment? s.text = some name) :
      Outcome type text (.error (.misfit name v type))
  | table {written : List (Option Int)} {t : Table Int} (writes : Writes text written)
      (named : ∀ s ∈ memberSegments text, ¬ Table.Nameless s.text)
      (fits : ∀ v ∈ Numbering.countUp 0 written, type.Contains v)
      (holds : Table.Holds text (Numbering.countUp 0 written) t) :
      Outcome type text (.ok t)

theorem map_text_memberSegments (text : Text) :
    (memberSegments text).map Segment.text = Segment.memberBodies text := by
  rw [memberSegments, Table.map_text_take, Segment.memberCount]
  exact (List.prefix_iff_eq_take.1 (Segment.memberBodies_isPrefix_bodies text)).symm

theorem getElem?_segments_of_memberSegments {text : Text} {i : Nat} {s : Segment}
    (h : (memberSegments text)[i]? = some s) : (Segment.segments text)[i]? = some s := by
  rw [memberSegments, List.getElem?_take] at h
  split at h
  · exact h
  · cases h

theorem map_ofSegment (text : Text) :
    (memberSegments text).map (Initializer.ofSegment ·.text) =
      (Segment.memberBodies text).map Initializer.ofSegment := by
  rw [← map_text_memberSegments, List.map_map]
  rfl

theorem length_of_writes {text : Text} {written : List (Option Int)} (h : Writes text written) :
    written.length = Segment.memberCount text := by
  have hlen := congrArg List.length h
  rw [map_ofSegment] at hlen
  simpa [Segment.memberCount] using hlen.symm

theorem ofText_of_writes {text : Text} {written : List (Option Int)} (h : Writes text written) :
    Initializer.ofText text = .ok written :=
  Initializer.ofSegments_of_ok ((map_ofSegment text).symm.trans h)

theorem table_of_unreadable (type : IntType) {text : Text} {i : Nat} {s : Segment}
    {cause : InitializerError}
    (first : IsFirst (fun s => Initializer.Unreadable s.text) (memberSegments text) i s)
    (h : Initializer.ofSegment s.text = .error cause) :
    table type text = .error (.initializer ⟨i, s.text, cause⟩) := by
  have hfirst : IsFirst Initializer.Unreadable (Segment.memberBodies text) i s.text := by
    rw [← map_text_memberSegments]
    exact first.map
  have hread : Initializer.ofText text = .error ⟨i, s.text, cause⟩ := by
    rw [Initializer.ofText, Initializer.ofSegments_of_error hfirst h, Nat.zero_add]
  rw [table, hread]

section
variable {type : IntType} {text : Text} {written : List (Option Int)} (writes : Writes text written)
include writes

theorem length_values : (Numbering.values .i128 written).length = Segment.memberCount text := by
  rw [Numbering.length_values, length_of_writes writes]

theorem table_of_nameless {i : Nat} {s : Segment}
    (first : IsFirst (fun s => Table.Nameless s.text) (memberSegments text) i s) :
    table type text = .error (.malformed (.nameless i s.text)) := by
  have hfirst : IsFirst Table.Nameless
      ((Segment.bodies text).take (Numbering.values .i128 written).length) i s.text := by
    rw [length_values writes, ← Table.map_text_take]
    exact first.map
  rw [table, ofText_of_writes writes]
  simp only
  rw [Table.ofText_of_nameless hfirst]

variable (named : ∀ s ∈ memberSegments text, ¬ Table.Nameless s.text)
include named

theorem exists_table : ∃ t, Table.ofText text (Numbering.values .i128 written) = .ok t ∧
    Table.Holds text (Numbering.values .i128 written) t := by
  have hlen := length_values writes
  have hn : ∀ b ∈ (Segment.bodies text).take (Numbering.values .i128 written).length,
      ¬ Table.Nameless b := by
    rw [hlen]
    exact Table.named_iff.1 named
  obtain ⟨t, ht, htext⟩ := Table.ofText_of_named hn hlen
  exact ⟨t, ht, Table.holds_of_texts ht htext⟩

theorem exists_misfit (h : ¬ ∀ v ∈ Numbering.countUp 0 written, type.Contains v) :
    ∃ i v s name, IsFirst (¬ type.Contains ·) (Numbering.countUp 0 written) i v ∧
      (memberSegments text)[i]? = some s ∧ Name.ofSegment? s.text = some name := by
  simp only [not_forall] at h
  obtain ⟨u, hu, hfit⟩ := h
  obtain ⟨i, v, first⟩ : ∃ i v, IsFirst (¬ type.Contains ·) (Numbering.countUp 0 written) i v :=
    IsFirst.exists_of_mem hu hfit
  have hi : i < (memberSegments text).length := by
    have hlt := (List.getElem?_eq_some_iff.1 first.getElem).1
    have hlen := congrArg List.length writes
    simp only [List.length_map, Numbering.length_countUp] at hlt hlen
    omega
  obtain ⟨name, hname⟩ := Table.exists_name (named _ (List.getElem_mem hi))
  exact ⟨i, v, _, name, first, List.getElem?_eq_getElem hi, hname⟩

variable (htype : type ∈ Command.offeredTypes)
include htype

theorem table_of_misfit {i : Nat} {v : Int} {s : Segment} {name : Text}
    (first : IsFirst (¬ type.Contains ·) (Numbering.countUp 0 written) i v)
    (hs : (memberSegments text)[i]? = some s) (hname : Name.ofSegment? s.text = some name) :
    table type text = .error (.misfit name v type) := by
  obtain ⟨t, ht, holds⟩ := exists_table writes named
  have hcount := Numbering.isFirst_count htype first
  have hvalues : t.values = Numbering.values .i128 written := (Table.ofText_ok ht).2.1
  have hmembers : IsFirst (fun v => ¬ type.Contains v) (t.members.map Member.value) i v := by
    rw [← Table.values, hvalues]
    exact hcount
  obtain ⟨m, hm, rfl⟩ : ∃ m, t.members[i]? = some m ∧ m.value = v := by
    have hget := hmembers.getElem
    rw [List.getElem?_map] at hget
    exact Option.map_eq_some_iff.1 hget
  have hfind : t.members.find? (¬ type.Contains ·.value) = some m := by
    apply IsFirst.find?_eq (i := i)
    refine ⟨hm, by simpa using first.holds, ?_⟩
    intro j hj b hb
    have := hmembers.before j hj b.value (by simp [hb])
    simpa using this
  obtain ⟨-, -, s', hs', -, hname'⟩ := holds.member i m hm
  rw [getElem?_segments_of_memberSegments hs] at hs'
  cases hs'
  rw [hname] at hname'
  cases hname'
  rw [table, ofText_of_writes writes]
  simp only
  rw [ht]
  simp only
  rw [hfind]

theorem table_of_fits (fits : ∀ v ∈ Numbering.countUp 0 written, type.Contains v) :
    ∃ t, table type text = .ok t ∧ Table.Holds text (Numbering.countUp 0 written) t := by
  obtain ⟨t, ht, holds⟩ := exists_table writes named
  have hcount : Numbering.values .i128 written = Numbering.countUp 0 written :=
    Numbering.count_eq_countUp htype fits
  have hvalues : t.values = Numbering.values .i128 written := (Table.ofText_ok ht).2.1
  have hfind : t.members.find? (¬ type.Contains ·.value) = none := by
    apply List.find?_eq_none.2
    intro m hm
    have hv : m.value ∈ t.values := List.mem_map_of_mem hm
    rw [hvalues, hcount] at hv
    simpa using fits _ hv
  refine ⟨t, ?_, hcount ▸ holds⟩
  rw [table, ofText_of_writes writes]
  simp only
  rw [ht]
  simp only
  rw [hfind]

theorem exists_table_iff :
    (∃ t, table type text = .ok t) ↔ ∀ v ∈ Numbering.countUp 0 written, type.Contains v := by
  constructor
  · rintro ⟨t, ht⟩
    by_contra hmisfit
    obtain ⟨i, v, s, name, first, hs, hname⟩ := exists_misfit writes named hmisfit
    rw [table_of_misfit writes named htype first hs hname] at ht
    cases ht
  · intro fits
    obtain ⟨t, ht, -⟩ := table_of_fits writes named htype fits
    exact ⟨t, ht⟩

end

theorem table_of_outcome {type : IntType} (htype : type ∈ Command.offeredTypes) {text : Text}
    {r : Except DeclarationError (Table Int)} (h : Outcome type text r) : table type text = r := by
  cases h with
  | initializer first cause_eq => exact table_of_unreadable type first cause_eq
  | nameless writes first => exact table_of_nameless writes first
  | misfit writes named first segment name_eq =>
    exact table_of_misfit writes named htype first segment name_eq
  | table writes named fits holds =>
    obtain ⟨u, hu, hold⟩ := table_of_fits writes named htype fits
    rw [hu, hold.unique holds]

theorem exists_outcome {type : IntType} (htype : type ∈ Command.offeredTypes) (text : Text) :
    ∃ r, Outcome type text r := by
  rcases Initializer.exists_error_or_ok (Segment.memberBodies text) with ⟨b, hb, he⟩ | ⟨written, hw⟩
  · rw [← map_text_memberSegments] at hb
    obtain ⟨s, hs, rfl⟩ := List.mem_map.1 hb
    obtain ⟨i, s', first⟩ : ∃ i s', IsFirst (fun s : Segment => Initializer.Unreadable s.text)
        (memberSegments text) i s' := IsFirst.exists_of_mem hs he
    obtain ⟨cause, hcause⟩ := first.holds
    exact ⟨_, .initializer first hcause⟩
  have writes : Writes text written := (map_ofSegment text).trans hw
  by_cases named : ∀ s ∈ memberSegments text, ¬ Table.Nameless s.text
  · by_cases fits : ∀ v ∈ Numbering.countUp 0 written, type.Contains v
    · obtain ⟨t, -, holds⟩ := table_of_fits writes named htype fits
      exact ⟨_, .table writes named fits holds⟩
    · obtain ⟨i, v, s, name, first, hs, hname⟩ := exists_misfit writes named fits
      exact ⟨_, .misfit writes named first hs hname⟩
  · simp only [not_forall, not_not] at named
    obtain ⟨s, hs, hname⟩ := named
    obtain ⟨i, s', first⟩ : ∃ i s', IsFirst (fun s : Segment => Table.Nameless s.text)
        (memberSegments text) i s' := IsFirst.exists_of_mem hs hname
    exact ⟨_, .nameless writes first⟩

/-- What an accepted declaration writes, names and counts up to. -/
theorem accepted_of_table {type : IntType} (htype : type ∈ Command.offeredTypes) {text : Text}
    {t : Table Int} (h : table type text = .ok t) :
    ∃ written, Writes text written ∧ (∀ s ∈ memberSegments text, ¬ Table.Nameless s.text) ∧
      (∀ v ∈ Numbering.countUp 0 written, type.Contains v) ∧
      Table.Holds text (Numbering.countUp 0 written) t := by
  obtain ⟨r, hr⟩ := exists_outcome htype text
  obtain rfl : r = .ok t := (table_of_outcome htype hr).symm.trans h
  cases hr with
  | table writes named fits holds => exact ⟨_, writes, named, fits, holds⟩

theorem Outcome.tells {type : IntType} {text : Text} {e : DeclarationError}
    (h : Outcome type text (.error e)) : e.Tells e.chain := by
  cases h with
  | initializer first cause_eq => exact .initializer (Initializer.tells_of_ofSegment cause_eq)
  | nameless writes first => exact .malformed .nameless
  | misfit writes named first segment name_eq => exact .misfit

/-- A declaration has exactly the outcome that its member segments give it, and the messages of a
refusal are those written for it. The table builder never finds too few or too many segments. -/
theorem table_outcome {type : IntType} (htype : type ∈ Command.offeredTypes) (text : Text) :
    (∀ r, table type text = r ↔ Outcome type text r) ∧
      (∀ n k rest, table type text ≠ .error (.malformed (.tooFew n k)) ∧
        table type text ≠ .error (.malformed (.tooMany n rest))) ∧
      ∀ e, table type text = .error e → e.Tells e.chain := by
  obtain ⟨r, hr⟩ := exists_outcome htype text
  have htable := table_of_outcome htype hr
  refine ⟨?_, ?_, ?_⟩
  · intro r'
    constructor
    · intro h
      rw [← h, htable]
      exact hr
    · exact table_of_outcome htype
  · intro n k rest
    rw [htable]
    constructor
    · rintro rfl
      cases hr
    · rintro rfl
      cases hr
  · intro e he
    rw [htable] at he
    rw [he] at hr
    exact hr.tells

/-- Eight bits end between two members, of which the second has a comment with a comma. -/
theorem table_outcome_byte :
    IntType.i8 ∈ Command.offeredTypes ∧
      Outcome .i8 "A = 127, B // x,y".toList (.error (.misfit ['B'] 128 .i8)) ∧
      DeclarationError.Tells (.misfit ['B'] 128 .i8)
        ["member B resolves to 128, which does not fit in i8".toList] := by
  have htable : table .i8 "A = 127, B // x,y".toList = .error (.misfit ['B'] 128 .i8) := by
    decide +kernel
  have htype : IntType.i8 ∈ Command.offeredTypes := by decide
  obtain ⟨houtcome, -, htells⟩ := table_outcome htype "A = 127, B // x,y".toList
  exact ⟨htype, (houtcome _).1 htable, htells _ htable⟩

end Declaration

end EnumReflection
