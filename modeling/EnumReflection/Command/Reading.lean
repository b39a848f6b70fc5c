import EnumReflection.Command.Arguments

/-!
# Reading of arguments

Arguments are read from left to right up to the first mistake. A value that is an argument of
its own is looked at only when the next argument that can be told turns up, or at the end, so
that an argument that cannot be told comes first. Two options take any argument as their value;
for the others a value may be a lone dash, but not start with one. After `--` come inputs only.
-/
namespace EnumReflection.Command

def Slot.options : List (Text × Slot) :=
  [("text".toList, .text), ("repr".toList, .type), ("format".toList, .format),
    ("name-of".toList, .nameOf), ("value-of".toList, .valueOf), ("index-of".toList, .indexOf)]

def Flag.names : List (Text × Flag) :=
  [("verbose".toList, .verbose), ("segments".toList, .segments), ("help".toList, .help),
    ("version".toList, .version)]

def Flag.letters : List (Char × Flag) := [('v', .verbose), ('h', .help), ('V', .version)]

/-- Whether any argument that follows is the value. -/
def Slot.takesAll : Slot → Bool
  | .nameOf | .indexOf => true
  | _ => false

inductive Token
  | separator
  | long (name : Text) (value : Option Text)
  | short (letters : Text)
  | plain (t : Text)
  deriving DecidableEq, Repr

/-- The name before an equals sign and the value after it. -/
def Token.ofLong (t : Text) : Token :=
  match t.dropWhile (· ≠ '=') with
  | [] => .long t none
  | _ :: value => .long (t.takeWhile (· ≠ '=')) (some value)

def Token.ofText : Text → Token
  | ['-', '-'] => .separator
  | '-' :: '-' :: t => .ofLong t
  | ['-'] => .plain ['-']
  | '-' :: letters => .short letters
  | t => .plain t

/-- What is left to do from the arguments read so far. -/
inductive Pending
  | nothing
  | awaiting (slot : Slot)
  | value (slot : Slot) (t : Text)
  deriving DecidableEq, Repr

/-- The arguments with what was left to do. -/
def settle (a : Arguments) : Pending → Except UsageError Arguments
  | .nothing => .ok a
  | .awaiting slot => .error (.missingValue slot)
  | .value slot t => a.set slot t

def hasInput (a : Arguments) (p : Pending) : Bool :=
  a.input.isSome || match p with
    | .value .input _ => true
    | _ => false

def readPlain (a : Arguments) (p : Pending) (t : Text) :
    Except UsageError (Arguments × Pending) :=
  if hasInput a p then .error (.unknownArgument t)
  else (settle a p).map fun a => (a, .value .input t)

def readLong (a : Arguments) (p : Pending) (name : Text) (value : Option Text) :
    Except UsageError (Arguments × Pending) :=
  match Slot.options.lookup name, Flag.names.lookup name, value with
  | some slot, _, none => (settle a p).map fun a => (a, .awaiting slot)
  | some slot, _, some v => (settle a p).bind fun a => (a.set slot v).map fun a => (a, .nothing)
  | none, some flag, none =>
    (settle a p).bind fun a => (a.raise true flag).map fun a => (a, .nothing)
  | none, some flag, some _ => .error (.unexpectedValue flag)
  | none, none, _ => .error (.unknownArgument ('-' :: '-' :: name))

def readShort (a : Arguments) (p : Pending) : Text → Except UsageError (Arguments × Pending)
  | [] => .ok (a, p)
  | c :: cs =>
    match Flag.letters.lookup c with
    | none => .error (.unknownArgument ['-', c])
    | some flag =>
      (settle a p).bind fun a => (a.raise false flag).bind fun a => readShort a .nothing cs

def readInputs (a : Arguments) (p : Pending) : List Text → Except UsageError Arguments
  | [] => settle a p
  | t :: ts => (readPlain a p t).bind fun (a, p) => readInputs a p ts

/-- The slot that an argument is the value of. -/
def awaited? (p : Pending) (t : Text) : Option Slot :=
  match p, Token.ofText t with
  | .awaiting slot, .plain _ => some slot
  | .awaiting slot, _ => if slot.takesAll then some slot else none
  | _, _ => none

def readFrom (a : Arguments) (p : Pending) : List Text → Except UsageError Arguments
  | [] => settle a p
  | t :: ts =>
    match awaited? p t with
    | some slot => readFrom a (.value slot t) ts
    | none =>
      match Token.ofText t with
      | .separator => readInputs a p ts
      | .long name value => (readLong a p name value).bind fun (a, p) => readFrom a p ts
      | .short letters => (readShort a p letters).bind fun (a, p) => readFrom a p ts
      | .plain t => (readPlain a p t).bind fun (a, p) => readFrom a p ts

def Arguments.ofList (ts : List Text) : Except UsageError Arguments :=
  (readFrom .empty .nothing ts).bind Arguments.check

end EnumReflection.Command
