import EnumReflection.IntType
import EnumReflection.Report
import EnumReflection.Text.Decimal

/-!
# Arguments of the command

The command takes one declaration, inline or from a file, an integer type, a format and at most
one thing to show instead of the whole table. Every option but `--verbose` is given at most once.
-/
namespace EnumReflection.Command

/-- What a value can be given for. -/
inductive Slot
  | input | text | type | format | nameOf | valueOf | indexOf
  deriving DecidableEq, Repr

inductive Flag
  | verbose | segments | help | version
  deriving DecidableEq, Repr

/-- Why no run follows from the arguments. The first two are requests and no mistakes. -/
inductive UsageError
  | help (long : Bool)
  | version
  | unknownArgument (argument : Text)
  | missingValue (slot : Slot)
  | unexpectedValue (flag : Flag)
  | emptyInput
  | notOffered (slot : Slot) (value : Text)
  | notInteger (slot : Slot) (value : Text)
  | repeatedOption (slot : Slot)
  | repeatedFlag (flag : Flag)
  | conflict
  deriving DecidableEq, Repr

structure Arguments where
  input : Option Text
  text : Option Text
  type : Option IntType
  format : Option Format
  verbose : Nat
  segments : Bool
  nameOf : Option Int
  valueOf : Option Text
  indexOf : Option Int
  deriving DecidableEq, Repr

/-- The integer types on offer, those of at most 64 bits that have a fixed width. -/
def offeredTypes : List IntType := [.i8, .i16, .i32, .i64, .u8, .u16, .u32, .u64]

def offeredFormats : List (Text × Format) := [("text".toList, .text), ("json".toList, .json)]

/-- The largest number of times that `--verbose` counts. -/
def maxVerbose : Nat := 255

namespace Arguments

def empty : Arguments := ⟨none, none, none, none, 0, false, none, none, none⟩

def intType (a : Arguments) : IntType := a.type.getD .i32

def outputFormat (a : Arguments) : Format := a.format.getD .text

def question? (a : Arguments) : Option Question :=
  match a.nameOf, a.valueOf, a.indexOf with
  | some v, _, _ => some (.nameOf v)
  | none, some name, _ => some (.valueOf name)
  | none, none, some v => some (.indexOf v)
  | none, none, none => none

/-- A value for a slot that has none yet. A second use counts before a bad value. -/
def once {α : Type} (slot : Slot) (current : Option α) (value : Except UsageError α) :
    Except UsageError (Option α) :=
  if current.isSome then .error (.repeatedOption slot) else value.map some

def readInteger (slot : Slot) (value : Text) : Except UsageError Int :=
  match Text.integer? value with
  | some v => if IntType.i128.Contains v then .ok v else .error (.notInteger slot value)
  | none => .error (.notInteger slot value)

def readType (value : Text) : Except UsageError IntType :=
  match offeredTypes.find? (·.name == value) with
  | some type => .ok type
  | none => .error (.notOffered .type value)

def readFormat (value : Text) : Except UsageError Format :=
  match offeredFormats.lookup value with
  | some format => .ok format
  | none => .error (.notOffered .format value)

def readInput (value : Text) : Except UsageError Text :=
  if value = [] then .error .emptyInput else .ok value

def set (a : Arguments) (slot : Slot) (value : Text) : Except UsageError Arguments :=
  match slot with
  | .input => (once slot a.input (readInput value)).map fun v => { a with input := v }
  | .text => (once slot a.text (.ok value)).map fun v => { a with text := v }
  | .type => (once slot a.type (readType value)).map fun v => { a with type := v }
  | .format => (once slot a.format (readFormat value)).map fun v => { a with format := v }
  | .nameOf => (once slot a.nameOf (readInteger slot value)).map fun v => { a with nameOf := v }
  | .valueOf => (once slot a.valueOf (.ok value)).map fun v => { a with valueOf := v }
  | .indexOf => (once slot a.indexOf (readInteger slot value)).map fun v => { a with indexOf := v }

def raise (a : Arguments) (long : Bool) : Flag → Except UsageError Arguments
  | .verbose => .ok { a with verbose := min maxVerbose (a.verbose + 1) }
  | .segments =>
    if a.segments then .error (.repeatedFlag .segments) else .ok { a with segments := true }
  | .help => .error (.help long)
  | .version => .error .version

/-- The number of things to show instead of the whole table. -/
def choices (a : Arguments) : Nat :=
  [a.segments, a.nameOf.isSome, a.valueOf.isSome, a.indexOf.isSome].count true

/-- The arguments, if they go together. -/
def check (a : Arguments) : Except UsageError Arguments :=
  if 1 < a.choices ∨ (a.text.isSome ∧ a.input.isSome) then .error .conflict else .ok a

end Arguments

end EnumReflection.Command
