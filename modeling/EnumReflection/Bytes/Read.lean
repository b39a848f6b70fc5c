import EnumReflection.Bytes.Scan
import EnumReflection.Command.Run

/-!
# Readers over bytes

Literals, written values, tables and reports are made of the pieces that the scanners cut out. A
reader may refuse what it reads, which is no fault: the error is its result.
-/
namespace EnumReflection.Bytes

def afterTrivia (t : Text) : Checked Text := do
  let pos ← triviaEnd t 0
  sliceFrom pos t

def radix (t : Text) : Checked (Nat × Text) :=
  match t.take? 2 with
  | some ['0', 'x'] | some ['0', 'X'] => (16, ·) <$> sliceFrom 2 t
  | some ['0', 'o'] | some ['0', 'O'] => (8, ·) <$> sliceFrom 2 t
  | some ['0', 'b'] | some ['0', 'B'] => (2, ·) <$> sliceFrom 2 t
  | _ => return (10, t)

/-- The number of bytes before the first one that is no digit and no underscore, or of all. -/
def runLength (base : Nat) (t : Text) : Nat :=
  (ofText t).findIdx fun b => !Literal.inRun base (character b)

def magnitude (whole rest : Text) : Checked (Except LiteralError Nat) := do
  let (base, t) ← radix rest
  let run ← slice 0 (runLength base t) t
  let tail ← sliceFrom (runLength base t) t
  let tail := (List.isPrefixOf? ['_'] tail).getD tail
  let blank ← isBlank (Literal.afterSuffix tail)
  let digits := run.filter (· ≠ '_')
  return if !blank ∨ digits = [] then .error (.notInteger whole)
    else (Literal.accumulate base 0 digits).mapError (.badDigits whole base)

/-- A magnitude with its sign. It is negated as a number of 128 bits, which leaves the least one as
it is. -/
def withSign (negative : Bool) (whole : Text) (m : Nat) : Except LiteralError Int :=
  let limit := if negative then IntType.i128.max + 1 else IntType.i128.max
  if limit < m then .error (.outOfRange whole)
  else
    let v := IntType.i128.wrap m
    .ok (if negative then IntType.i128.wrap (-v) else v)

def literal (text : Text) : Checked (Except LiteralError Int) := do
  let rest ← afterTrivia text
  let sign := byte? rest 0
  if sign = some '-'.toUInt8 ∨ sign = some '+'.toUInt8 then do
    let rest ← sliceFrom 1 rest
    let rest ← afterTrivia rest
    let m ← magnitude text rest
    return m.bind (withSign (sign == some '-'.toUInt8) text)
  else do
    let m ← magnitude text rest
    return m.bind (withSign false text)

def afterName (tail : Text) : Checked (Except InitializerError (Option Int)) := do
  let rest ← afterTrivia tail
  match rest with
  | '=' :: r => do
    let v ← literal r
    return (v.map some).mapError .literal
  | _ => do
    let blank ← isBlank rest
    return if blank then .ok none else .error (.unexpected rest)

def writtenValue (segment : Text) : Checked (Except InitializerError (Option Int)) := do
  match ← span? segment with
  | none => return .ok none
  | some (_, stop) => do
    let tail ← sliceFrom stop segment
    afterName tail

def writtenFrom (index : Nat) :
    List Text → Checked (Except UnsupportedInitializer (List (Option Int)))
  | [] => return .ok []
  | s :: ss => do
    match ← writtenValue s with
    | .error e => return .error ⟨index, s, e⟩
    | .ok v => do
      let vs ← writtenFrom (index + 1) ss
      return vs.map (v :: ·)

def memberSegments (t : Text) : Checked (List Segment) := do
  let count ← memberCount t
  let ss ← segments t
  return ss.take count

def writtenValues (t : Text) :
    Checked (Except UnsupportedInitializer (List (Option Int))) := do
  let ss ← memberSegments t
  writtenFrom 0 (ss.map Segment.text)

/-- The members that values and a text make up from an index on, and the position after the last of
them. After the first member the position is the one of the comma before the next. -/
def fill {α : Type} (text : Text) (expected index pos : Nat) :
    List α → Checked (Except TableError (List (Member α) × Nat))
  | [] => return .ok ([], pos)
  | v :: vs =>
    if 0 < index ∧ text.byteLength ≤ pos then return .error (.tooFew expected index)
    else do
      let start := if 0 < index then pos + 1 else pos
      let stop ← commaFrom text start
      let body ← slice start stop text
      match ← name? body with
      | none => return .error (.nameless index body)
      | some name => do
        let filled ← fill text expected (index + 1) stop vs
        return filled.map fun (ms, last) => (⟨v, name, body, index⟩ :: ms, last)

def table {α : Type} (text : Text) (values : List α) :
    Checked (Except TableError (Table α)) := do
  match ← fill text values.length 0 0 values with
  | .error e => return .error e
  | .ok (members, pos) => do
    let left ← sliceFrom pos text
    let rest := Table.afterMembers values.length left
    let blank ← isBlank rest
    return if blank then .ok ⟨text, members⟩ else .error (.tooMany values.length rest)

def declaration (type : IntType) (text : Text) :
    Checked (Except DeclarationError (Table Int)) := do
  match ← writtenValues text with
  | .error e => return .error (.initializer e)
  | .ok written => do
    match ← table text (Numbering.values .i128 written) with
    | .error e => return .error (.malformed e)
    | .ok t =>
      return match t.members.find? (¬ type.Contains ·.value) with
        | some m => .error (.misfit m.name m.value type)
        | none => .ok t

/-- The largest width of a column. -/
def maxWidth : Nat := 65535

def column (width : Nat) : Checked Unit :=
  if width ≤ maxWidth then return () else .error .tooWide

def tableReport (format : Format) (type : IntType) (t : Table Int) : Checked Text := do
  column (Report.indexWidth t)
  column (Report.valueWidth t)
  return Report.table format type t

def named : List Segment → Checked (List (Segment × Option Text))
  | [] => return []
  | s :: ss => do
    let name ← name? s.text
    let rows ← named ss
    return (s, name) :: rows

def segmentReport (format : Format) (t : Text) : Checked Text := do
  let ss ← memberSegments t
  let rows ← named ss
  column (Report.offsetWidth t)
  column Report.nameWidth
  return Report.segmentRows format t rows

def show? (a : Command.Arguments) (text : Text) :
    Checked (Except DeclarationError Command.Output) := do
  if a.segments then do
    let shown ← segmentReport a.outputFormat text
    return .ok ⟨shown, []⟩
  else
    match ← declaration a.intType text with
    | .error e => return .error e
    | .ok t => do
      let shown ←
        match a.question? with
        | some q => pure (Report.answer a.outputFormat t q)
        | none => tableReport a.outputFormat a.intType t
      return .ok ⟨shown, t.duplicates⟩

end EnumReflection.Bytes
