import EnumReflection.Bytes.Basic
import EnumReflection.Name
import EnumReflection.Segment

/-!
# Scanners over bytes

Comments, literals, top-level commas and names are found by moving a position over bytes, which
may stop inside a character on the way. Only ASCII characters have a meaning for the scanners. A
scanner that goes on where another one stopped has to be further than before.
-/
namespace EnumReflection.Bytes

/-- The position after the bytes whose characters are of a class. -/
def skipWhile (p : Char → Bool) (t : Text) (pos : Nat) : Checked Nat :=
  if pos < t.byteLength then do
    let b ← byteAt t pos
    if p (character b) then skipWhile p t (pos + 1) else return pos
  else return pos
termination_by t.byteLength - pos

/-- The position after the end mark of a block comment, or the end of the text. -/
def blockEnd (t : Text) (pos : Nat) : Checked Nat :=
  if pos + 1 < t.byteLength then do
    let b ← byteAt t pos
    let closes ← if b = '*'.toUInt8 then (· == '/'.toUInt8) <$> byteAt t (pos + 1) else pure false
    if closes then return pos + 2 else blockEnd t (pos + 1)
  else return t.byteLength
termination_by t.byteLength - pos

def commentEnd? (t : Text) (pos : Nat) : Checked (Option Nat) :=
  if byte? t pos ≠ some '/'.toUInt8 then return none
  else if byte? t (pos + 1) = some '/'.toUInt8 then
    some <$> skipWhile (!Trivia.endsLine ·) t (pos + 2)
  else if byte? t (pos + 1) = some '*'.toUInt8 then some <$> blockEnd t (pos + 2)
  else return none

def triviaEnd (t : Text) (pos : Nat) : Checked Nat :=
  if _ : pos < t.byteLength then do
    let b ← byteAt t pos
    if Trivia.isSpace (character b) then triviaEnd t (pos + 1)
    else
      match ← commentEnd? t pos with
      | some stop => if _ : pos < stop then triviaEnd t stop else .error .endless
      | none => return pos
  else return pos
termination_by t.byteLength - pos

def isBlank (t : Text) : Checked Bool := do
  let stop ← triviaEnd t 0
  return stop == t.byteLength

/-- The position after the quote that closes a string, from a position inside the string on. -/
def closingQuote (t : Text) (pos : Nat) : Checked Nat :=
  if pos < t.byteLength then do
    let b ← byteAt t pos
    if b = '\\'.toUInt8 then closingQuote t (pos + 2)
    else if b = '"'.toUInt8 then return pos + 1
    else closingQuote t (pos + 1)
  else return t.byteLength
termination_by t.byteLength - pos

def stringEnd (t : Text) (pos : Nat) : Checked Nat := closingQuote t (pos + 1)

/-- The position after the first apostrophe before a limit. -/
def apostrophe? (t : Text) (limit pos : Nat) : Checked (Option Nat) :=
  if pos < limit then do
    let b ← byteAt t pos
    if b = '\''.toUInt8 then return some (pos + 1) else apostrophe? t limit (pos + 1)
  else return none
termination_by limit - pos

/-- The end of the character literal that starts at a position. An apostrophe that starts none is
passed over alone. -/
def characterEnd (t : Text) (pos : Nat) : Checked Nat :=
  if byte? t (pos + 1) = some '\\'.toUInt8 then do
    let found ← apostrophe? t (min (pos + 12) t.byteLength) (pos + 3)
    return found.getD (pos + 1)
  else
    match t.drop? (pos + 1) with
    | some (c :: _) =>
      let stop := pos + 1 + c.utf8Size
      return if byte? t stop = some '\''.toUInt8 then stop + 1 else pos + 1
    | _ => return pos + 1

def follows (t : Text) (pos : Nat) (b : UInt8) : Checked Bool :=
  if 0 < pos then (· == b) <$> byteAt t (pos - 1) else return false

/-- Whether the byte before or after a position is a given one. -/
def touches (t : Text) (pos : Nat) (b : UInt8) : Checked Bool := do
  let before ← follows t pos b
  return before || byte? t (pos + 1) == some b

/-- The end of the literal or comment that the byte at a position starts. -/
def literalEnd? (t : Text) (pos : Nat) (b : UInt8) : Checked (Option Nat) :=
  if b = '"'.toUInt8 then some <$> stringEnd t pos
  else if b = '\''.toUInt8 then some <$> characterEnd t pos
  else if b = '/'.toUInt8 then commentEnd? t pos
  else return none

def turn (t : Text) (pos : Nat) (b : UInt8) : Checked Int :=
  if b = '('.toUInt8 ∨ b = '['.toUInt8 ∨ b = '{'.toUInt8 then return 1
  else if b = ')'.toUInt8 ∨ b = ']'.toUInt8 ∨ b = '}'.toUInt8 then return -1
  else if b = '<'.toUInt8 then do
    return if ← touches t pos b then 0 else 1
  else if b = '>'.toUInt8 then do
    return if ← touches t pos b then 0 else -1
  else return 0

/-- The position of the first top-level comma inside a number of brackets, or the end of the
text. -/
def comma (t : Text) (nesting : Int) (pos : Nat) : Checked Nat :=
  if _ : pos < t.byteLength then do
    let b ← byteAt t pos
    if b = ','.toUInt8 ∧ nesting ≤ 0 then return pos
    else
      match ← literalEnd? t pos b with
      | some stop => if _ : pos < stop then comma t nesting stop else .error .endless
      | none => do
        let change ← turn t pos b
        let nesting ← fit .i32 (nesting + change)
        comma t nesting (pos + 1)
  else return t.byteLength
termination_by t.byteLength - pos

def commaFrom (t : Text) (start : Nat) : Checked Nat := comma t 0 (min start t.byteLength)

def segmentsFrom (t : Text) (start : Nat) : Checked (List Segment) := do
  let stop ← commaFrom t start
  let piece ← slice start stop t
  if _ : stop < t.byteLength then
    if _ : start ≤ stop then (⟨start, stop, piece⟩ :: ·) <$> segmentsFrom t (stop + 1)
    else .error .endless
  else return [⟨start, stop, piece⟩]
termination_by t.byteLength - start

def segments (t : Text) : Checked (List Segment) := segmentsFrom t 0

/-- The number of some texts and whether the last of them is blank, after other texts. -/
def countFrom (count : Nat) (lastBlank : Bool) : List Text → Checked (Nat × Bool)
  | [] => return (count, lastBlank)
  | t :: ts => do
    let blank ← isBlank t
    countFrom (count + 1) blank ts

def memberCount (t : Text) : Checked Nat := do
  let ss ← segments t
  let (count, lastBlank) ← countFrom 0 false (ss.map Segment.text)
  if lastBlank then decrement count else return count

/-- The position after the bracket that closes the last of a number of groups, or the end of the
text. -/
def groupEnd (t : Text) (depth pos : Nat) : Checked Nat :=
  if _ : pos < t.byteLength then do
    let b ← byteAt t pos
    if b = '"'.toUInt8 then do
      let stop ← stringEnd t pos
      if _ : pos < stop then groupEnd t depth stop else .error .endless
    else if b = '['.toUInt8 then groupEnd t (depth + 1) (pos + 1)
    else if b = ']'.toUInt8 then do
      let depth ← decrement depth
      if depth = 0 then return pos + 1 else groupEnd t depth (pos + 1)
    else groupEnd t depth (pos + 1)
  else return t.byteLength
termination_by t.byteLength - pos

def markEnd (t : Text) (pos : Nat) : Checked Nat :=
  if byte? t pos = some '!'.toUInt8 then triviaEnd t (pos + 1) else return pos

/-- The end of the attribute whose hash stands before a position. -/
def attributeEnd? (t : Text) (pos : Nat) : Checked (Option Nat) := do
  let mark ← triviaEnd t pos
  let bracket ← markEnd t mark
  if byte? t bracket = some '['.toUInt8 then some <$> groupEnd t 0 bracket else return none

def attributesEnd (t : Text) (pos : Nat) : Checked Nat :=
  if _ : byte? t pos = some '#'.toUInt8 then do
    match ← attributeEnd? t (pos + 1) with
    | some stop => do
      let next ← triviaEnd t stop
      if _ : pos < next then attributesEnd t next else .error .endless
    | none => return pos
  else return pos
termination_by t.byteLength - pos
decreasing_by
  have hlt := lt_of_byte? ‹byte? t pos = _›
  omega

def preludeEnd (t : Text) : Checked Nat := do
  let pos ← triviaEnd t 0
  attributesEnd t pos

def wordEnd (t : Text) (pos : Nat) : Checked Nat :=
  skipWhile Name.isWordChar t pos

/-- The ends of the identifier at a position, without the mark of a raw one. -/
def identifierAt (t : Text) (start : Nat) : Checked (Nat × Nat) := do
  let stop ← wordEnd t start
  let word ← bytesIn start stop t
  if word = ['r'.toUInt8] ∧ byte? t stop = some '#'.toUInt8 ∧
      (byte? t (stop + 1)).any (fun b => Name.isWordStart (character b)) = true then do
    let last ← wordEnd t (stop + 1)
    return (stop + 1, last)
  else return (start, stop)

def span? (segment : Text) : Checked (Option (Nat × Nat)) := do
  let pos ← preludeEnd segment
  let start ← skipWhile (!Name.isWordStart ·) segment pos
  if start = segment.byteLength then return none else some <$> identifierAt segment start

def name? (segment : Text) : Checked (Option Text) := do
  match ← span? segment with
  | none => return none
  | some (start, stop) => some <$> slice start stop segment

end EnumReflection.Bytes
