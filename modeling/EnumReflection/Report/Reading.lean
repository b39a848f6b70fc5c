import EnumReflection.Report

/-!
# Reading reports

A report is read back from its lines, or from the JSON value that its text stands for. A reader
knows the order of the columns and the names of the fields; it knows neither the widths of the
columns nor the declaration.
-/
namespace EnumReflection

namespace Json

def get? (key : String) : Json → Option Json
  | .object fields => fields.lookup key.toList
  | _ => none

def integer? : Json → Option Int
  | .number n => some n
  | _ => none

def natural? : Json → Option Nat
  | .number (.ofNat n) => some n
  | _ => none

def text? : Json → Option Text
  | .string t => some t
  | _ => none

def items? : Json → Option (List Json)
  | .array items => some items
  | _ => none

end Json

namespace Report

/-- The lines of a text, the last of which need not be ended. -/
def lines (t : Text) : List Text :=
  let pieces := t.splitOn '\n'
  if pieces.getLast? = some [] then pieces.dropLast else pieces

def words (t : Text) : List Text := (t.splitOn ' ').filter (· ≠ [])

/-- What both forms of a table tell of a member. -/
structure Row where
  index : Nat
  value : Int
  name : Text
  deriving DecidableEq, Repr

def Row.ofMember (m : Member Int) : Row := ⟨m.index, m.value, m.name⟩

def row? (line : Text) : Option Row :=
  match words line with
  | [index, value, name] => do return ⟨← Text.natural? index, ← Text.integer? value, name⟩
  | _ => none

def rows? (report : Text) : Option (List Row) := (lines report).tail.mapM row?

/-- A table with the name of its integer type and its size. -/
structure TableDocument where
  type : Text
  size : Nat
  table : Table Int
  deriving DecidableEq, Repr

def TableDocument.rows (d : TableDocument) : List Row := d.table.members.map Row.ofMember

def member? (v : Json) : Option (Member Int) := do
  let value ← (← v.get? "value").integer?
  let name ← (← v.get? "name").text?
  let text ← (← v.get? "string").text?
  let index ← (← v.get? "index").natural?
  return ⟨value, name, text, index⟩

def tableDocument? (v : Json) : Option TableDocument := do
  let type ← (← v.get? "repr").text?
  let size ← (← v.get? "size").natural?
  let text ← (← v.get? "string").text?
  let members ← (← (← v.get? "members").items?).mapM member?
  return ⟨type, size, ⟨text, members⟩⟩

/-- The name in a column, which may be the mark for none. -/
def nameIn? (column : Text) : Option Text := if column = noName then none else some column

/-- The segment and the name in a line: two offsets around two dots, the name up to the next space
and the quoted text. -/
def segmentRow? (line : Text) : Option (Segment × Option Text) :=
  let offsets := line.dropWhile (· == ' ')
  match offsets.dropWhile Char.isDigit with
  | '.' :: '.' :: rest => do
    let start ← Text.natural? (offsets.takeWhile Char.isDigit)
    let stop ← Text.natural? (rest.takeWhile Char.isDigit)
    let columns := (rest.dropWhile Char.isDigit).dropWhile (· == ' ')
    let quoted := (columns.dropWhile (· != ' ')).dropWhile (· == ' ')
    match Text.Quoted.decode? quoted with
    | some (text, []) => return (⟨start, stop, text⟩, nameIn? (columns.takeWhile (· != ' ')))
    | _ => none
  | _ => none

def segmentRows? (report : Text) : Option (List (Segment × Option Text)) :=
  (lines report).tail.mapM segmentRow?

def name? : Json → Option (Option Text)
  | .null => some none
  | .string name => some (some name)
  | _ => none

def segmentEntry? (v : Json) : Option (Segment × Option Text) := do
  let start ← (← v.get? "start").natural?
  let stop ← (← v.get? "end").natural?
  let text ← (← v.get? "text").text?
  let name ← name? (← v.get? "name")
  return (⟨start, stop, text⟩, name)

def segmentEntries? (v : Json) : Option (List (Segment × Option Text)) := do
  (← v.items?).mapM segmentEntry?

end Report

end EnumReflection
