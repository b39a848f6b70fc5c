import EnumReflection.Proofs.Bytes.Literal
import EnumReflection.Proofs.Declaration.Outcome

/-!
# Runs without a fault

The scanners and readers over the bytes of a text give what the definitions on characters give, and
no fault, on every text of less than two to the power of 31 bytes. The nesting of brackets alone
needs a bound on the text.
-/
namespace EnumReflection.Bytes

theorem memberSegments_eq {t : Text} (h : t.byteLength < Nat.pow 2 31) :
    memberSegments t = .ok (Report.memberSegments t) := by
  rw [memberSegments, memberCount_eq h, ok_bind, segments_eq h]
  rfl

theorem writtenValues_eq {t : Text} (h : t.byteLength < Nat.pow 2 31) :
    writtenValues t = .ok (Initializer.ofText t) := by
  rw [writtenValues, memberSegments_eq h, ok_bind, Declaration.map_text_memberSegments,
    writtenFrom_eq]
  rfl

theorem exists_start {index : Nat} {s left t : Text} (hfirst : index = 0 → s = [])
    (hcomma : Table.AtComma index left) (h : Table.afterSegment? index left = some t) :
    ∃ s', s ++ left = s' ++ t ∧ Fresh s' ∧
      (if 0 < index then s.byteLength + 1 else s.byteLength) = s'.byteLength ∧
      ¬ (0 < index ∧ (s ++ left).byteLength ≤ s.byteLength) := by
  cases index with
  | zero =>
    obtain rfl := hfirst rfl
    cases h
    exact ⟨[], rfl, fresh_nil, rfl, fun h => absurd h.1 (Nat.lt_irrefl 0)⟩
  | succ index =>
    rcases hcomma (Nat.succ_pos index) with rfl | ⟨r, rfl⟩
    · cases h
    · cases h
      have hlen : Text.byteLength (',' :: t) = 1 + t.byteLength := rfl
      refine ⟨s ++ [','], by simp, fresh_comma s, ?_, ?_⟩
      · rw [if_pos (Nat.succ_pos index), Text.byteLength_append]
        rfl
      · rw [Text.byteLength_append, hlen]
        omega

section
variable {α : Type}

/-- Members are made of the same segments, one after the other. -/
theorem fill_eq {s left : Text} {expected index : Nat} (vs : List α)
    (hlen : (s ++ left).byteLength < Nat.pow 2 31) (hfirst : index = 0 → s = [])
    (hcomma : Table.AtComma index left) :
    match Table.fill expected index vs left with
    | .error e => fill (s ++ left) expected index s.byteLength vs = .ok (.error e)
    | .ok (ms, last) => ∃ pos,
        fill (s ++ left) expected index s.byteLength vs = .ok (.ok (ms, pos)) ∧
        At (s ++ left) pos last := by
  induction vs generalizing s left index with
  | nil => exact ⟨s.byteLength, rfl, s, rfl, rfl⟩
  | cons v vs ih =>
    rw [fill]
    cases hsegment : Table.afterSegment? index left with
    | none =>
      rw [Table.fill_cons_none hsegment]
      obtain ⟨i, rfl⟩ : ∃ i, index = i + 1 := by
        cases index with
        | zero => cases hsegment
        | succ i => exact ⟨i, rfl⟩
      rcases hcomma (Nat.succ_pos i) with rfl | ⟨r, rfl⟩
      · rw [if_pos ⟨Nat.succ_pos i, Nat.le_of_eq (by rw [List.append_nil])⟩]
        rfl
      · cases hsegment
    | some t =>
      obtain ⟨s', happ, hfresh, hstart, hmore⟩ := exists_start hfirst hcomma hsegment
      rw [happ] at hlen hmore ⊢
      rw [if_neg hmore, hstart]
      dsimp only
      rw [commaFrom_append hfresh hlen, ok_bind, slice_cut, ok_bind, name?_eq, ok_bind]
      have hcut : s' ++ t = s' ++ (Segment.cut none 0 t).1 ++ (Segment.cut none 0 t).2 := by
        rw [List.append_assoc, Segment.cut_append]
      cases hname : Name.ofSegment? (Segment.cut none 0 t).1 with
      | none =>
        rw [Table.fill_cons_nameless hsegment hname]
        rfl
      | some name =>
        have hi := @ih (s' ++ (Segment.cut none 0 t).1) (Segment.cut none 0 t).2 (index + 1)
          (by rwa [← hcut]) (fun h0 => absurd h0 (Nat.succ_ne_zero index))
          (fun _ => Segment.cut_snd none 0 t)
        rw [← hcut] at hi
        rw [Table.fill_cons_named hsegment hname]
        dsimp only
        cases hfill : Table.fill expected (index + 1) vs (Segment.cut none 0 t).2 with
        | error e =>
          rw [hfill] at hi
          rw [hi]
          rfl
        | ok p =>
          rw [hfill] at hi
          obtain ⟨pos, hpos, hat⟩ := hi
          rw [hpos]
          exact ⟨pos, rfl, hat⟩

theorem table_eq {t : Text} (h : t.byteLength < Nat.pow 2 31) (values : List α) :
    table t values = .ok (Table.ofText t values) := by
  have hfill := @fill_eq α [] t values.length 0 values h (fun _ => rfl)
    (fun h0 => absurd h0 (Nat.lt_irrefl 0))
  rw [table, Table.ofText]
  cases hmembers : Table.fill values.length 0 values t with
  | error e =>
    rw [hmembers] at hfill
    rw [show fill t values.length 0 0 values = _ from hfill]
    rfl
  | ok p =>
    rw [hmembers] at hfill
    obtain ⟨pos, hpos, hat⟩ := hfill
    rw [show fill t values.length 0 0 values = _ from hpos, ok_bind]
    dsimp only
    rw [show sliceFrom pos t = _ from hat.sliceFrom_eq, ok_bind, isBlank_eq]
    rfl

end

theorem declaration_eq {t : Text} (h : t.byteLength < Nat.pow 2 31) (type : IntType) :
    declaration type t = .ok (Declaration.table type t) := by
  rw [declaration, writtenValues_eq h, ok_bind, Declaration.table]
  cases Initializer.ofText t with
  | error e => rfl
  | ok written =>
    dsimp only
    rw [table_eq h, ok_bind]
    cases Table.ofText t (Numbering.values .i128 written) <;> rfl

theorem column_of_le {width : Nat} (h : width ≤ maxWidth) : column width = .ok () := if_pos h

theorem length_decimal_le {n : Nat} (h : n < Nat.pow 10 40) : (Text.decimal n).length ≤ 40 :=
  (Nat.length_toDigits_le_iff (by decide) (by decide)).2 h

theorem length_signedDecimal_le {v : Int} (h : v.natAbs < Nat.pow 10 40) :
    (Text.signedDecimal v).length ≤ 41 := by
  cases v with
  | ofNat n => exact Nat.le_trans (length_decimal_le h) (by decide)
  | negSucc n => exact Nat.succ_le_succ (length_decimal_le h)

theorem natAbs_of_contains {ty : IntType} {v : Int} (h : ty.Contains v) : v.natAbs < Nat.pow 10 40 := by
  obtain ⟨hmin, hmax⟩ := h
  have hbounds : ty.min.natAbs < Nat.pow 10 40 ∧ ty.max.natAbs < Nat.pow 10 40 := by
    cases ty <;> decide
  omega

theorem foldl_max_le {n : Nat} {l : List Nat} (h : ∀ x ∈ l, x ≤ n) {a : Nat} (ha : a ≤ n) :
    l.foldl max a ≤ n := by
  induction l generalizing a with
  | nil => exact ha
  | cons x l ih =>
    exact ih (fun y hy => h y (by simp [hy])) (Nat.max_le.2 ⟨ha, h x (by simp)⟩)

theorem length_le_byteLength_join (ts : List Text) :
    ts.length ≤ Text.byteLength (Text.join [','] ts) + 1 := by
  induction ts with
  | nil => exact Nat.zero_le _
  | cons t ts ih =>
    cases ts with
    | nil => exact Nat.le_add_left 1 _
    | cons u us =>
      have hcomma : Text.byteLength [','] = 1 := rfl
      rw [Text.join_cons_cons, Text.byteLength_append, Text.byteLength_append, hcomma,
        List.length_cons]
      omega

theorem memberCount_le_byteLength (t : Text) : Segment.memberCount t ≤ t.byteLength + 1 := by
  have hbodies := length_le_byteLength_join (Segment.bodies t)
  rw [Segment.join_bodies, ← Segment.length_segments] at hbodies
  exact Nat.le_trans (Segment.memberCount_le t) hbodies

theorem size_of_table {type : IntType} {text : Text} {t : Table Int}
    (h : Declaration.table type text = .ok t) : t.size = Segment.memberCount text := by
  obtain ⟨written, hwritten, ht, -⟩ := Declaration.exists_ofText h
  rw [← Initializer.length_ofText hwritten, ← Numbering.length_values .i128 written,
    ← (Table.ofText_ok ht).2.1, Table.values, List.length_map, Table.size]

theorem tableReport_eq {type : IntType} {text : Text} {t : Table Int}
    (hlen : text.byteLength < Nat.pow 2 31) (h : Declaration.table type text = .ok t)
    (format : Format) (shown : IntType) :
    tableReport format shown t = .ok (Report.table format shown t) := by
  have hindex : Report.indexWidth t ≤ maxWidth := by
    have hsize := size_of_table h
    have hcount := memberCount_le_byteLength text
    have hpow : Nat.pow 2 31 < Nat.pow 10 40 := by decide
    exact Nat.le_trans (length_decimal_le (by omega)) (by decide)
  have hvalue : Report.valueWidth t ≤ maxWidth := by
    apply foldl_max_le _ (by decide)
    intro width hwidth
    obtain ⟨v, hv, rfl⟩ := List.mem_map.1 hwidth
    have hv := natAbs_of_contains (Declaration.contains_of_table h hv)
    exact Nat.le_trans (length_signedDecimal_le hv) (by decide)
  rw [tableReport, column_of_le hindex, ok_bind, column_of_le hvalue]
  rfl

theorem named_eq (ss : List Segment) :
    named ss = .ok (ss.map fun s => (s, Name.ofSegment? s.text)) := by
  induction ss with
  | nil => rfl
  | cons s ss ih =>
    rw [named, name?_eq, ok_bind, ih]
    rfl

theorem segmentReport_eq {t : Text} (h : t.byteLength < Nat.pow 2 31) (format : Format) :
    segmentReport format t = .ok (Report.segments format t) := by
  have hoffset : Report.offsetWidth t ≤ maxWidth := by
    have hpow : Nat.pow 2 31 < Nat.pow 10 40 := by decide
    exact Nat.le_trans (length_decimal_le (by omega)) (by decide)
  rw [segmentReport, memberSegments_eq h, ok_bind, named_eq, ok_bind, column_of_le hoffset, ok_bind,
    column_of_le (by decide)]
  rfl

theorem show?_eq {t : Text} (h : t.byteLength < Nat.pow 2 31) (a : Command.Arguments) :
    show? a t = .ok (Command.show? a t) := by
  rw [show?, Command.show?]
  by_cases hsegments : a.segments = true
  · rw [if_pos hsegments, if_pos hsegments, segmentReport_eq h]
    rfl
  rw [if_neg hsegments, if_neg hsegments, declaration_eq h, ok_bind]
  cases htable : Declaration.table a.intType t with
  | error e => rfl
  | ok table =>
    dsimp only
    rw [tableReport_eq h htable]
    cases a.question? <;> rfl

/-- No check fails on any text of less than two to the power of 31 bytes: every scanner and reader
over its bytes gives what the one on characters gives, for all integer types, formats and questions.
In particular a literal is negated right, also the least one. -/
theorem scanned_without_fault {t : Text} (h : t.byteLength < Nat.pow 2 31) :
    segments t = .ok (Segment.segments t) ∧
    memberCount t = .ok (Segment.memberCount t) ∧
    span? t = .ok (Name.span? t) ∧
    name? t = .ok (Name.ofSegment? t) ∧
    writtenValues t = .ok (Initializer.ofText t) ∧
    literal t = .ok (Literal.parse t) ∧
    (∀ type, declaration type t = .ok (Declaration.table type t)) ∧
    (∀ values : List Int, table t values = .ok (Table.ofText t values)) ∧
    (∀ format, segmentReport format t = .ok (Report.segments format t)) ∧
    (∀ type table, Declaration.table type t = .ok table → ∀ format shown,
      tableReport format shown table = .ok (Report.table format shown table)) ∧
    ∀ a, show? a t = .ok (Command.show? a t) :=
  ⟨segments_eq h, memberCount_eq h, span?_eq t, name?_eq t, writtenValues_eq h, literal_eq t,
    declaration_eq h, table_eq h, segmentReport_eq h, fun _ _ htable => tableReport_eq h htable,
    show?_eq h⟩

/-- An escaped character of two bytes, a bracket that stays open and the least value. -/
theorem scanned_without_fault_least :
    let t : Text := "#[doc = \"\\é]\"] A = -0x80000000000000000000000000000000, /* ü */ (B".toList
    t.byteLength < Nat.pow 2 31 ∧
    memberCount t = .ok 2 ∧
    span? t = .ok (some (16, 17)) ∧
    writtenValues t = .ok (.ok [some (-170141183460469231731687303715884105728), none]) := by
  intro t
  have hlen : t.byteLength < Nat.pow 2 31 := by decide +kernel
  obtain ⟨-, hcount, hspan, -, hwritten, -⟩ := scanned_without_fault hlen
  exact ⟨hlen, hcount.trans (congrArg Except.ok (by decide +kernel)),
    hspan.trans (congrArg Except.ok (by decide +kernel)),
    hwritten.trans (congrArg Except.ok (by decide +kernel))⟩

end EnumReflection.Bytes
