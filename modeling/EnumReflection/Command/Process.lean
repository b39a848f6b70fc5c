import EnumReflection.Command.Help
import EnumReflection.Command.Log
import EnumReflection.Command.Reading
import EnumReflection.Command.Run

/-!
# The command as a process

What the command prints and how it exits. Reports go to the standard output, warnings and
errors to the standard error. A mistaken argument exits with 2 and any other failure with 1.
-/
namespace EnumReflection.Command

structure Outcome where
  code : Nat
  stdout : Text
  stderr : Text
  deriving DecidableEq, Repr

def UsageError.message : UsageError → Text
  | .help long => helpText long
  | .version => versionText
  | .unknownArgument argument => "unexpected argument ".toList ++ Text.Quoted.encode argument
  | .missingValue _ => "an option lacks its value".toList
  | .unexpectedValue _ => "a flag takes no value".toList
  | .emptyInput => "the input has no name".toList
  | .notOffered _ value => "no such choice: ".toList ++ Text.Quoted.encode value
  | .notInteger _ value => "no integer of 128 bits: ".toList ++ Text.Quoted.encode value
  | .repeatedOption _ => "an option is given twice".toList
  | .repeatedFlag _ => "a flag is given twice".toList
  | .conflict => "the arguments exclude each other".toList

def Outcome.ofUsage (e : UsageError) : Outcome :=
  match e with
  | .help _ | .version => ⟨0, e.message, []⟩
  | _ => ⟨2, [], "error: ".toList ++ e.message ++ "\n".toList⟩

def numbered (causes : List Text) : List Text :=
  causes.mapIdx fun i cause => Text.padLeft 5 (Text.decimal i) ++ [':', ' '] ++ cause

/-- The lines under the outermost message of an error. -/
def causeLines : List Text → List Text
  | [] => []
  | [cause] => [[], "Caused by:".toList, "    ".toList ++ cause]
  | causes => [] :: "Caused by:".toList :: numbered causes

/-- The report of an error whose messages are given with the cause last. -/
def errorReport : List Text → Text
  | [] => []
  | message :: causes => Report.unlines (("Error: ".toList ++ message) :: causeLines causes)

/-- Whether warnings are coloured. A variable that forces colours wins over one that forbids
them, and without either the terminal decides. -/
def isColoured (env : Environment) (toTerminal : Bool) : Bool :=
  let isOn (value : Option Text) (unset : Bool) : Bool := (value.map (· != ['0'])).getD unset
  if isOn (env "CLICOLOR_FORCE".toList) false then true
  else if (env "NO_COLOR".toList).isSome then false
  else isOn (env "CLICOLOR".toList) true && toTerminal

def warningLabel (coloured : Bool) : Text :=
  if coloured then "\x1b[1;33mwarning\x1b[0m".toList else "warning".toList

def warningLine (coloured : Bool) (d : Duplicate) : Text :=
  warningLabel coloured ++ ": ".toList ++ d.message

/-- How the command ends with these arguments. -/
def process (coloured : Bool) (read : Input → Except ReadFailure Text) (argv : List Text) :
    Outcome :=
  match Arguments.ofList argv with
  | .error e => .ofUsage e
  | .ok a =>
    match run a read with
    | .error e => ⟨1, [], errorReport e.chain⟩
    | .ok out => ⟨0, out.shown, Report.unlines (out.warnings.map (warningLine coloured))⟩

end EnumReflection.Command
