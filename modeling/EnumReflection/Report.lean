import EnumReflection.IntType
import EnumReflection.Json
import EnumReflection.Name
import EnumReflection.Segment
import EnumReflection.Table.Basic

/-!
# Reports

A table, the answer to one question about it and the segments of a declaration are written as
text in aligned columns or as JSON. Every report ends its last line.
-/
namespace EnumReflection

inductive Format
  | text
  | json
  deriving DecidableEq, Repr

inductive Question
  | nameOf (value : Int)
  | valueOf (name : Text)
  | indexOf (value : Int)
  deriving DecidableEq, Repr

namespace Report

open Text (decimal signedDecimal padLeft padRight)

def unlines (lines : List Text) : Text := lines.flatMap (· ++ ['\n'])

def field (key : String) (v : Json) : Text × Json := (key.toList, v)

def memberJson (m : Member Int) : Json :=
  .object [field "value" (.number m.value), field "name" (.string m.name),
    field "string" (.string m.text), field "index" (.number m.index)]

def tableFields (t : Table Int) : List (Text × Json) :=
  [field "string" (.string t.text), field "members" (.array (t.members.map memberJson))]

def tableJson (t : Table Int) : Json := .object (tableFields t)

def indexWidth (t : Table Int) : Nat := (decimal (t.size - 1)).length

def valueWidth (t : Table Int) : Nat := (t.values.map (signedDecimal · |>.length)).foldl max 0

def memberLine (indexWidth valueWidth : Nat) (m : Member Int) : Text :=
  [' ', ' '] ++ padLeft indexWidth (decimal m.index) ++ [' ', ' '] ++
    padLeft valueWidth (signedDecimal m.value) ++ [' ', ' '] ++ m.name

def tableHeader (type : IntType) (t : Table Int) : Text :=
  decimal t.size ++ " members, repr ".toList ++ type.name

def table (format : Format) (type : IntType) (t : Table Int) : Text :=
  match format with
  | .text =>
    unlines (tableHeader type t :: t.members.map (memberLine (indexWidth t) (valueWidth t)))
  | .json =>
    unlines [Json.pretty (.object (field "repr" (.string type.name) ::
      field "size" (.number t.size) :: tableFields t))]

def questionKind : Question → Text
  | .nameOf _ => "name_of".toList
  | .valueOf _ => "value_of".toList
  | .indexOf _ => "index_of".toList

def questionKey : Question → Json
  | .nameOf v | .indexOf v => .number v
  | .valueOf name => .string name

def answerText (t : Table Int) : Question → Text
  | .nameOf v => t.nameOf v
  | .valueOf name => ((t.valueOf? name).map signedDecimal).getD "none".toList
  | .indexOf v => decimal (t.indexOf v)

def answerJson (t : Table Int) : Question → Json
  | .nameOf v => .string (t.nameOf v)
  | .valueOf name => ((t.valueOf? name).map Json.number).getD .null
  | .indexOf v => .number (t.indexOf v)

def answer (format : Format) (t : Table Int) (q : Question) : Text :=
  match format with
  | .text => unlines [answerText t q]
  | .json =>
    unlines [Json.compact (.object [field "query" (.string (questionKind q)),
      field "key" (questionKey q), field "result" (answerJson t q)])]

/-- What stands for the name of a segment that has none. -/
def noName : Text := "<none>".toList

def nameWidth : Nat := 12

def segmentLine (width : Nat) (s : Segment) (name : Option Text) : Text :=
  [' ', ' '] ++ padLeft width (decimal s.start) ++ ['.', '.'] ++
    padRight width (decimal s.stop) ++ [' ', ' '] ++
    padRight nameWidth (name.getD noName) ++ [' ', ' '] ++ Text.Quoted.encode s.text

def segmentJson (s : Segment) (name : Option Text) : Json :=
  .object [field "start" (.number s.start), field "end" (.number s.stop),
    field "text" (.string s.text), field "name" ((name.map Json.string).getD .null)]

def offsetWidth (t : Text) : Nat := (decimal t.byteLength).length

def segmentRows (format : Format) (t : Text) (rows : List (Segment × Option Text)) : Text :=
  match format with
  | .text =>
    unlines ((decimal rows.length ++ " segments".toList) ::
      rows.map fun (s, name) => segmentLine (offsetWidth t) s name)
  | .json => unlines [Json.pretty (.array (rows.map fun (s, name) => segmentJson s name))]

/-- The segments of a declaration that declare a member. -/
def memberSegments (t : Text) : List Segment :=
  (Segment.segments t).take (Segment.memberCount t)

def segments (format : Format) (t : Text) : Text :=
  segmentRows format t ((memberSegments t).map fun s => (s, Name.ofSegment? s.text))

end Report

end EnumReflection
