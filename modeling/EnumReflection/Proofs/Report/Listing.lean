import EnumReflection.Proofs.Declaration.Outcome
import EnumReflection.Proofs.Json.Reading
import EnumReflection.Proofs.Quoted
import EnumReflection.Proofs.Report.Columns
import EnumReflection.Proofs.Tiling

/-!
# Both forms of a listing tell the same

The segments of any text are read back from their lines, each of which stays one line whatever the
segment holds, and from the JSON document. The mark for a missing name is no name. Where the text has
a table, its members are those that are listed.
-/
namespace EnumReflection.Report
open Text (decimal)

/-- What a listing shows: the segments that declare a member, and the names read from them. -/
def listing (t : Text) : List (Segment × Option Text) :=
  (memberSegments t).map fun s => (s, Name.ofSegment? s.text)

theorem segments_eq (format : Format) (t : Text) : segments format t = segmentRows format t (listing t) :=
  rfl

theorem length_listing (t : Text) : (listing t).length = Segment.memberCount t := by
  rw [listing, List.length_map, memberSegments, List.length_take,
    Nat.min_eq_left (Segment.memberCount_le t)]

theorem ne_noName {name : Text} (h : Name.IsIdentifier name) : name ≠ noName := by
  rintro rfl
  exact h.not_mem (c := '<') (by decide) (by decide)

/-- A name as it stands in its column: none, or one that could be read. -/
def IsName (name : Option Text) : Prop := ∀ n, name = some n → Name.IsIdentifier n

theorem isName_of_mem_listing {t : Text} {p : Segment × Option Text} (hp : p ∈ listing t) :
    IsName p.2 := by
  obtain ⟨s, -, rfl⟩ := List.mem_map.1 hp
  exact fun n hn => Name.isIdentifier_of_ofSegment? hn

theorem IsName.nameIn?_eq {name : Option Text} (h : IsName name) :
    nameIn? (name.getD noName) = name := by
  cases name with
  | none => rfl
  | some n => exact if_neg (ne_noName (h n rfl))

theorem IsName.not_mem {name : Option Text} (h : IsName name) {c : Char}
    (hc : Name.isWordChar c = false) (hmark : c ∉ noName) : c ∉ name.getD noName := by
  cases name with
  | none => exact hmark
  | some n => exact (h n rfl).not_mem hc

theorem IsName.exists_cons {name : Option Text} (h : IsName name) :
    ∃ c r, name.getD noName = c :: r ∧ c ≠ ' ' := by
  have hspace := h.not_mem (c := ' ') (by decide) (by decide)
  have hne : name.getD noName ≠ [] := by
    cases name with
    | none => decide
    | some n => exact (h n rfl).ne_nil
  obtain ⟨c, r, hcr⟩ := List.exists_cons_of_ne_nil hne
  refine ⟨c, r, hcr, ?_⟩
  rintro rfl
  exact hspace (by simp [hcr])

theorem dropWhile_spaces (n : Nat) {c : Char} (hc : c ≠ ' ') (t : Text) :
    (List.replicate n ' ' ++ c :: t).dropWhile (· == ' ') = c :: t := by
  refine (Text.span_append (p := (· == ' ')) ?_ ?_).2
  · intro d hd
    rw [List.eq_of_mem_replicate hd]
    rfl
  · rintro d ⟨⟩
    simpa using hc

theorem span_decimal (n : Nat) {c : Char} (hc : c.isDigit = false) (t : Text) :
    (decimal n ++ c :: t).takeWhile Char.isDigit = decimal n ∧
      (decimal n ++ c :: t).dropWhile Char.isDigit = c :: t := by
  apply Text.span_append
  · exact fun d hd => Text.isDigit_of_mem_decimal hd
  · rintro d ⟨⟩
    exact hc

theorem span_word {w : Text} (hw : ' ' ∉ w) (t : Text) :
    (w ++ ' ' :: t).takeWhile (· != ' ') = w ∧ (w ++ ' ' :: t).dropWhile (· != ' ') = ' ' :: t := by
  apply Text.span_append
  · intro d hd
    simp only [bne_iff_ne, ne_eq]
    rintro rfl
    exact hw hd
  · rintro d ⟨⟩
    rfl

theorem padRight_append (width : Nat) (w t : Text) : Text.padRight width w ++ ([' ', ' '] ++ t) =
    w ++ ' ' :: (List.replicate (width - w.length + 1) ' ' ++ t) := by
  have hspaces : List.replicate (width - w.length) ' ' ++ ([' ', ' '] ++ t) =
      ' ' :: (List.replicate (width - w.length + 1) ' ' ++ t) := by
    rw [← List.cons_append, ← List.replicate_succ, ← List.append_assoc]
    congr 1
    exact (List.replicate_add (width - w.length) 2 ' ').symm
  rw [Text.padRight, List.append_assoc, hspaces]

theorem segmentLine_eq (width : Nat) (s : Segment) (name : Option Text) :
    segmentLine width s name = List.replicate (2 + (width - (decimal s.start).length)) ' ' ++
      (decimal s.start ++ '.' :: '.' :: (decimal s.stop ++
        ' ' :: (List.replicate (width - (decimal s.stop).length + 1) ' ' ++ (name.getD noName ++
          ' ' :: (List.replicate (nameWidth - (name.getD noName).length + 1) ' ' ++
            Text.Quoted.encode s.text))))) := by
  rw [← padRight_append, ← padRight_append, List.replicate_add]
  simp [segmentLine, Text.padLeft]

theorem segmentRow?_segmentLine (width : Nat) (s : Segment) {name : Option Text} (h : IsName name) :
    segmentRow? (segmentLine width s name) = some (s, name) := by
  have hspace := h.not_mem (c := ' ') (by decide) (by decide)
  have hname := h.nameIn?_eq
  obtain ⟨c, r, hcr, hc⟩ := h.exists_cons
  obtain ⟨d, ds, hds⟩ := List.exists_cons_of_ne_nil (Text.decimal_ne_nil s.start)
  have hd : d ≠ ' ' := by
    rintro rfl
    exact Text.not_mem_decimal (d := ' ') (by decide) s.start (by simp [hds])
  have hquoted := Text.Quoted.decode?_encode s.text []
  rw [List.append_nil] at hquoted
  have hoffsets (n : Nat) (t : Text) : (List.replicate n ' ' ++ (decimal s.start ++ t)).dropWhile
      (· == ' ') = decimal s.start ++ t := by
    rw [hds, List.cons_append]
    exact dropWhile_spaces n hd _
  have hcolumns (n : Nat) (t : Text) : (' ' :: (List.replicate n ' ' ++ (name.getD noName ++ t))).dropWhile
      (· == ' ') = name.getD noName ++ t := by
    rw [hcr, List.cons_append, ← List.cons_append, ← List.replicate_succ]
    exact dropWhile_spaces (n + 1) hc _
  have htext (n : Nat) : (' ' :: (List.replicate n ' ' ++ Text.Quoted.encode s.text)).dropWhile
      (· == ' ') = Text.Quoted.encode s.text := by
    rw [← List.cons_append, ← List.replicate_succ]
    exact dropWhile_spaces (n + 1) (by decide) _
  rw [segmentLine_eq, segmentRow?]
  simp only [hoffsets, (span_decimal s.start (c := '.') (by decide) _).1,
    (span_decimal s.start (c := '.') (by decide) _).2, (span_decimal s.stop (c := ' ') (by decide) _).1,
    (span_decimal s.stop (c := ' ') (by decide) _).2, hcolumns, (span_word hspace _).1,
    (span_word hspace _).2, htext, hquoted, hname, Text.natural?_decimal]
  rfl

theorem not_mem_segmentLine (width : Nat) (s : Segment) {name : Option Text} (h : IsName name) :
    '\n' ∉ segmentLine width s name := by
  have hname := Text.not_mem_padRight (d := '\n') (by decide)
    (h.not_mem (by decide) (by decide)) nameWidth
  have hstart := Text.not_mem_padLeft (d := '\n') (by decide)
    (Text.not_mem_decimal (by decide) s.start) width
  have hstop := Text.not_mem_padRight (d := '\n') (by decide)
    (Text.not_mem_decimal (by decide) s.stop) width
  simp [segmentLine, hname, hstart, hstop, Text.Quoted.not_mem_encode]

def dotsColumn (t : Text) : Nat := 2 + offsetWidth t

def listingColumn (t : Text) : Nat := dotsColumn t + (2 + (offsetWidth t + 2))

/-- What a line of a listing gives back of its segment, and where its columns stand. -/
structure IsSegmentLine (t line : Text) (p : Segment × Option Text) : Prop where
  row_eq : segmentRow? line = some p
  slice_eq : t.slice? p.1.start p.1.stop = some p.1.text
  start_le : (decimal p.1.start).length ≤ offsetWidth t
  stop_le : (decimal p.1.stop).length ≤ offsetWidth t
  stop_eq : ∃ rest, line.drop (dotsColumn t) = '.' :: '.' :: (decimal p.1.stop ++ ' ' :: rest)
  name_eq : ∃ rest, line.drop (listingColumn t) = p.2.getD noName ++ ' ' :: rest

theorem length_offset_le {t : Text} {n : Nat} (h : n ≤ t.byteLength) :
    (decimal n).length ≤ offsetWidth t := Text.length_decimal_mono h

section
variable {t : Text} {s : Segment} (name : Option Text)
  (hstart : (decimal s.start).length ≤ offsetWidth t)
include hstart

theorem drop_dotsColumn : (segmentLine (offsetWidth t) s name).drop (dotsColumn t) =
    '.' :: '.' :: (Text.padRight (offsetWidth t) (decimal s.stop) ++ ([' ', ' '] ++
      (Text.padRight nameWidth (name.getD noName) ++ ([' ', ' '] ++ Text.Quoted.encode s.text)))) := by
  simp only [segmentLine, List.append_assoc]
  rw [← List.append_assoc [' ', ' '] (Text.padLeft _ _)]
  apply List.drop_left'
  simp only [List.length_append, Text.length_padLeft_of_le hstart, dotsColumn, List.length_cons,
    List.length_nil]

theorem drop_listingColumn (hstop : (decimal s.stop).length ≤ offsetWidth t) :
    (segmentLine (offsetWidth t) s name).drop (listingColumn t) =
      Text.padRight nameWidth (name.getD noName) ++ ([' ', ' '] ++ Text.Quoted.encode s.text) := by
  have hlen : (Text.padRight (offsetWidth t) (decimal s.stop) ++ [' ', ' ']).length =
      offsetWidth t + 2 := by
    rw [List.length_append, Text.length_padRight_of_le hstop]
    rfl
  rw [listingColumn, ← List.drop_drop, drop_dotsColumn name hstart, ← List.drop_drop,
    ← List.append_assoc (Text.padRight _ _)]
  exact List.drop_left' hlen

end

theorem isSegmentLine_segmentLine {t : Text} {p : Segment × Option Text} (hp : p ∈ listing t) :
    IsSegmentLine t (segmentLine (offsetWidth t) p.1 p.2) p := by
  have hname := isName_of_mem_listing hp
  obtain ⟨s, hs, rfl⟩ := List.mem_map.1 hp
  have hs := List.mem_of_mem_take hs
  obtain ⟨before, after, ht, hstart, hstop⟩ := (Segment.tiles_segments t).between s hs
  have hlen := congrArg Text.byteLength ht
  simp only [Text.byteLength_append] at hlen hstop
  have hstart_le := length_offset_le (t := t) (n := s.start) (by omega)
  have hstop_le := length_offset_le (t := t) (n := s.stop) (by omega)
  exact {
    row_eq := segmentRow?_segmentLine _ _ hname
    slice_eq := Segment.slice?_of_mem_segments hs
    start_le := hstart_le
    stop_le := hstop_le
    stop_eq := ⟨_, by rw [drop_dotsColumn _ hstart_le, padRight_append]⟩
    name_eq := ⟨_, by rw [drop_listingColumn _ hstart_le hstop_le, padRight_append]⟩ }

theorem lines_segments (t : Text) : lines (segments .text t) =
    (decimal (listing t).length ++ " segments".toList) ::
      (listing t).map (fun p => segmentLine (offsetWidth t) p.1 p.2) := by
  apply lines_unlines
  intro line hline
  rcases List.mem_cons.1 hline with rfl | hline
  · simp [Text.not_mem_decimal (d := '\n') (by decide)]
  · obtain ⟨p, hp, rfl⟩ := List.mem_map.1 hline
    exact not_mem_segmentLine _ _ (isName_of_mem_listing hp)

theorem segmentEntries?_json (rows : List (Segment × Option Text)) :
    segmentEntries? (.array (rows.map fun p => segmentJson p.1 p.2)) = some rows := by
  have hrow (p : Segment × Option Text) : segmentEntry? (segmentJson p.1 p.2) = some p := by
    obtain ⟨s, _ | name⟩ := p <;> rfl
  exact mapM_map_eq_self fun p _ => hrow p

theorem listing_of_table {type : IntType} {text : Text} {t : Table Int}
    (h : Declaration.table type text = .ok t) :
    (listing text).map (fun p => (p.2, p.1.text)) = t.members.map fun m => (some m.name, m.text) := by
  obtain ⟨written, hwritten, ht, -⟩ := Declaration.exists_ofText h
  have holds := Table.holds_of_ofText ht
  have htexts := holds.texts_eq
    (by rw [Numbering.length_values, Initializer.length_ofText hwritten])
  have hlisted : (listing text).map (fun p => (p.2, p.1.text)) =
      ((memberSegments text).map Segment.text).map fun b => (Name.ofSegment? b, b) := by
    simp [listing]
  rw [hlisted, Declaration.map_text_memberSegments, ← htexts, List.map_map]
  apply List.map_congr_left
  intro m hm
  rw [Function.comp_apply, holds.name_eq hm]

/-- The listing of any text is read back from either form. In columns it is a header and one line for
each member segment, which gives back its offsets, its name and its text, and all names start at one
place. The mark for a missing name is no name. Every reader of JSON finds the same segments, and a
table of the text has their names and texts. -/
theorem listing_reads_back (text : Text) :
    (∃ rows, lines (segments .text text) =
        (decimal (Segment.memberCount text) ++ " segments".toList) :: rows ∧
      rows.length = Segment.memberCount text ∧
      List.Forall₂ (IsSegmentLine text) rows (listing text)) ∧
    (∀ segment name, Name.ofSegment? segment = some name → name ≠ noName) ∧
    segmentRows? (segments .text text) = some (listing text) ∧
    (∀ read, Json.IsReader read →
      (read (segments .json text)).bind segmentEntries? = some (listing text)) ∧
    ∀ type t, Declaration.table type text = .ok t →
      (listing text).map (fun p => (p.2, p.1.text)) = t.members.map fun m => (some m.name, m.text) := by
  have hlines := lines_segments text
  refine ⟨⟨_, length_listing text ▸ hlines, by rw [List.length_map, length_listing], ?_⟩,
    fun _ _ h => ne_noName (Name.isIdentifier_of_ofSegment? h), ?_, fun read hread => ?_,
    fun _ _ => listing_of_table⟩
  · rw [List.forall₂_map_left_iff, List.forall₂_same]
    exact fun p hp => isSegmentLine_segmentLine hp
  · rw [segmentRows?, hlines, List.tail_cons]
    exact mapM_map_eq_self fun p hp =>
      segmentRow?_segmentLine (offsetWidth text) p.1 (isName_of_mem_listing hp)
  · have hvalue := hread _ _ (isDocument_unlines
      (.array ((listing text).map fun p => segmentJson p.1 p.2)))
    rw [segments_eq, segmentRows, hvalue, Option.bind_some, segmentEntries?_json]

/-- A segment with a line feed and quotes, of a text that has a table. -/
theorem listing_reads_back_line_feed :
    let text : Text := "A = 3, #[doc = \"\\\"\"]\n\tB".toList
    let rows : List (Segment × Option Text) := [(⟨0, 5, "A = 3".toList⟩, some ['A']),
      (⟨6, 23, " #[doc = \"\\\"\"]\n\tB".toList⟩, some ['B'])]
    segmentRows? (segments .text text) = some rows ∧
      (Json.read? (segments .json text)).bind segmentEntries? = some rows ∧
      ∃ t, Declaration.table .i8 text = .ok t ∧
        rows.map (fun p => (p.2, p.1.text)) = t.members.map fun m => (some m.name, m.text) := by
  intro text rows
  have hrows : listing text = rows := by decide +kernel
  let t : Table Int := ⟨text, [⟨3, ['A'], "A = 3".toList, 0⟩,
    ⟨4, ['B'], " #[doc = \"\\\"\"]\n\tB".toList, 1⟩]⟩
  have htable : Declaration.table .i8 text = .ok t := by decide +kernel
  obtain ⟨-, -, hcolumns, hjson, hmembers⟩ := listing_reads_back text
  rw [hrows] at hcolumns hjson hmembers
  exact ⟨hcolumns, hjson Json.read? Json.isReader_read?, t, htable, hmembers .i8 t htable⟩

end EnumReflection.Report
