import EnumReflection.Declaration
import EnumReflection.Proofs.Json.Reading
import EnumReflection.Proofs.Report.Columns

/-!
# Both forms of a table tell the same

The lines of a table in columns and the JSON document give back its members, however many there are
and whatever the declaration holds. The columns are as wide as what stands in them, so that all names
start at one place.
-/
namespace EnumReflection.Report
open Text (decimal signedDecimal)

theorem le_foldl_max (l : List Nat) (a : Nat) : a ≤ l.foldl max a ∧ ∀ x ∈ l, x ≤ l.foldl max a := by
  induction l generalizing a with
  | nil => simp
  | cons x l ih =>
    obtain ⟨hstart, hall⟩ := ih (max a x)
    rw [List.foldl_cons]
    refine ⟨by omega, fun y hy => ?_⟩
    rcases List.mem_cons.1 hy with rfl | hy
    · omega
    · exact hall y hy

theorem length_value_le {t : Table Int} {m : Member Int} (hm : m ∈ t.members) :
    (signedDecimal m.value).length ≤ valueWidth t := by
  apply (le_foldl_max _ 0).2
  exact List.mem_map_of_mem (List.mem_map_of_mem hm)

theorem length_index_le {t : Table Int} {m : Member Int} (h : m.index < t.size) :
    (decimal m.index).length ≤ indexWidth t := Text.length_decimal_mono (by omega)

def nameColumn (t : Table Int) : Nat := 2 + (indexWidth t + (2 + (valueWidth t + 2)))

/-- What a line of a table gives back of its member. -/
structure IsTableLine (t : Table Int) (line : Text) (m : Member Int) : Prop where
  words_eq : words line = [decimal m.index, signedDecimal m.value, m.name]
  row_eq : row? line = some (Row.ofMember m)
  index_le : (decimal m.index).length ≤ indexWidth t
  value_le : (signedDecimal m.value).length ≤ valueWidth t
  name_eq : line.drop (nameColumn t) = m.name

section

variable {m : Member Int} (hname : Name.IsIdentifier m.name)
include hname

theorem words_memberLine (w v : Nat) :
    words (memberLine w v m) = [decimal m.index, signedDecimal m.value, m.name] := by
  have hline : memberLine w v m = ' ' :: ' ' :: (Text.padLeft w (decimal m.index) ++
      ' ' :: ' ' :: (Text.padLeft v (signedDecimal m.value) ++ ' ' :: ' ' :: m.name)) := by
    simp [memberLine]
  rw [hline, words_space, words_space, words_padLeft,
    words_cons (Text.decimal_ne_nil _) (Text.not_mem_decimal (by decide) _), words_space,
    words_padLeft, words_cons (Text.signedDecimal_ne_nil _)
      (Text.not_mem_signedDecimal (by decide) (by decide) _), words_space,
    words_singleton hname.ne_nil (hname.not_mem (by decide))]

theorem row?_memberLine (w v : Nat) : row? (memberLine w v m) = some (Row.ofMember m) := by
  rw [row?, words_memberLine hname]
  simp only [Text.natural?_decimal, Text.integer?_signedDecimal]
  rfl

theorem not_mem_memberLine (w v : Nat) : '\n' ∉ memberLine w v m := by
  have hindex := Text.not_mem_padLeft (d := '\n') (by decide)
    (Text.not_mem_decimal (by decide) m.index) w
  have hvalue := Text.not_mem_padLeft (d := '\n') (by decide)
    (Text.not_mem_signedDecimal (by decide) (by decide) m.value) v
  simp [memberLine, hindex, hvalue, hname.not_mem (c := '\n') (by decide)]

theorem isTableLine_memberLine {t : Table Int} (hm : m ∈ t.members) (hindex : m.index < t.size) :
    IsTableLine t (memberLine (indexWidth t) (valueWidth t) m) m where
  words_eq := words_memberLine hname _ _
  row_eq := row?_memberLine hname _ _
  index_le := length_index_le hindex
  value_le := length_value_le hm
  name_eq := by
    apply List.drop_left'
    simp only [List.length_append, Text.length_padLeft_of_le (length_index_le hindex),
      Text.length_padLeft_of_le (length_value_le hm), nameColumn, List.length_cons, List.length_nil]
    omega

end

theorem tableDocument?_json (type : Text) (t : Table Int) :
    tableDocument? (.object (field "repr" (.string type) :: field "size" (.number t.size) ::
      tableFields t)) = some ⟨type, t.size, t⟩ := by
  have hmembers : (t.members.map memberJson).mapM member? = some t.members :=
    mapM_map_eq_self fun _ _ => rfl
  have hdocument : tableDocument? (.object (field "repr" (.string type) ::
      field "size" (.number t.size) :: tableFields t)) =
      ((t.members.map memberJson).mapM member?).bind fun ms => some ⟨type, t.size, ⟨t.text, ms⟩⟩ := rfl
  rw [hdocument, hmembers]
  rfl

theorem isIdentifier_of_ofText {text : Text} {vs : List Int} {t : Table Int}
    (h : Table.ofText text vs = .ok t) {m : Member Int} (hm : m ∈ t.members) :
    Name.IsIdentifier m.name := Name.isIdentifier_of_ofSegment? ((Table.ofText_ok h).2.2.2 m hm)

theorem index_lt_of_ofText {text : Text} {vs : List Int} {t : Table Int}
    (h : Table.ofText text vs = .ok t) {m : Member Int} (hm : m ∈ t.members) :
    m.index < t.size := by
  have hindex := List.mem_map_of_mem (f := Member.index) hm
  rw [(Table.ofText_ok h).2.2.1] at hindex
  exact List.mem_range.1 hindex

theorem lines_table {text : Text} {vs : List Int} {t : Table Int} (h : Table.ofText text vs = .ok t)
    (type : IntType) : lines (table .text type t) =
      tableHeader type t :: t.members.map (memberLine (indexWidth t) (valueWidth t)) := by
  apply lines_unlines
  intro line hline
  rcases List.mem_cons.1 hline with rfl | hline
  · have htype : '\n' ∉ type.name := by cases type <;> decide
    simp [tableHeader, Text.not_mem_decimal (d := '\n') (by decide), htype]
  · obtain ⟨m, hm, rfl⟩ := List.mem_map.1 hline
    exact not_mem_memberLine (isIdentifier_of_ofText h hm) _ _

/-- A table of a declaration is read back from either form. In columns it is a header and one line
for each member, whose words are its index, value and name, and all names start at one place. Every
reader of JSON finds the type, the size, the declaration and the members. The rows are the same. -/
theorem table_reads_back {type : IntType} {text : Text} {t : Table Int}
    (h : Declaration.table type text = .ok t) :
    (∃ rows, lines (table .text type t) = tableHeader type t :: rows ∧ rows.length = t.size ∧
      List.Forall₂ (IsTableLine t) rows t.members) ∧
    ∀ read, Json.IsReader read →
      (read (table .json type t)).bind tableDocument? =
          some ⟨type.name, t.size, ⟨text, t.members⟩⟩ ∧
        ((read (table .json type t)).bind tableDocument?).map TableDocument.rows =
          rows? (table .text type t) := by
  obtain ⟨written, -, ht, -⟩ := Declaration.exists_ofText h
  have hlines := lines_table ht type
  refine ⟨⟨_, hlines, List.length_map _, ?_⟩, ?_⟩
  · rw [List.forall₂_map_left_iff, List.forall₂_same]
    intro m hm
    exact isTableLine_memberLine (isIdentifier_of_ofText ht hm) hm (index_lt_of_ofText ht hm)
  · intro read hread
    have hjson : (read (table .json type t)).bind tableDocument? =
        some ⟨type.name, t.size, ⟨text, t.members⟩⟩ := by
      have htext := (Table.ofText_ok ht).1
      have hvalue := hread _ _ (isDocument_unlines (.object (field "repr" (.string type.name) ::
        field "size" (.number t.size) :: tableFields t)))
      rw [table, hvalue, Option.bind_some, tableDocument?_json, ← htext]
    refine ⟨hjson, ?_⟩
    have hrows : rows? (table .text type t) = some (t.members.map Row.ofMember) := by
      rw [rows?, hlines, List.tail_cons]
      exact mapM_map_eq_some fun m hm => row?_memberLine (isIdentifier_of_ofText ht hm) _ _
    rw [hjson, hrows]
    rfl

/-- The least value of 64 bits, and a declaration with quotes, a backslash and a line feed. -/
theorem table_reads_back_escapes :
    let text : Text := "A = -9223372036854775808, #[doc = \"C:\\\\\"]\n\tB".toList
    ∃ t, Declaration.table .i64 text = .ok t ∧
      (Json.read? (table .json .i64 t)).bind tableDocument? =
        some ⟨"i64".toList, 2, ⟨text, t.members⟩⟩ ∧
      rows? (table .text .i64 t) =
        some [⟨0, -9223372036854775808, ['A']⟩, ⟨1, -9223372036854775807, ['B']⟩] := by
  intro text
  let t : Table Int := ⟨text, [⟨-9223372036854775808, ['A'], "A = -9223372036854775808".toList, 0⟩,
    ⟨-9223372036854775807, ['B'], " #[doc = \"C:\\\\\"]\n\tB".toList, 1⟩]⟩
  have htable : Declaration.table .i64 text = .ok t := by decide +kernel
  obtain ⟨hjson, hrows⟩ := (table_reads_back htable).2 Json.read? Json.isReader_read?
  refine ⟨t, htable, hjson, ?_⟩
  rw [← hrows, hjson]
  rfl

end EnumReflection.Report
