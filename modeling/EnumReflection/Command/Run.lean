import EnumReflection.Command.Arguments
import EnumReflection.Declaration
import EnumReflection.Table.Duplicates

/-!
# Runs of the command

A run reads one declaration and shows its segments, its table or the answer to one question
about it. It warns of repeated names and values, unless it shows segments.
-/
namespace EnumReflection.Command

inductive Input
  | inline (t : Text)
  | standard
  | file (path : Text)
  deriving DecidableEq, Repr

/-- Why a file or the standard input gives no text. -/
inductive ReadFailure
  | notUnicode
  | system (message : Text)
  deriving DecidableEq, Repr

def ReadFailure.message : ReadFailure → Text
  | .notUnicode => "stream did not contain valid UTF-8".toList
  | .system message => message

inductive RunError
  | noInput
  | unreadable (source : Text) (cause : ReadFailure)
  | declaration (cause : DeclarationError)
  deriving DecidableEq, Repr

def RunError.chain : RunError → List Text
  | .noInput => ["no member list given; pass a file, `-` for standard input, or --text".toList]
  | .unreadable source cause => ["failed to read ".toList ++ source, cause.message]
  | .declaration cause => cause.chain

structure Output where
  shown : Text
  warnings : List Duplicate
  deriving DecidableEq, Repr

/-- Whether a path goes nowhere from a file: slashes with at most a dot after each. -/
def staysPut : Text → Bool
  | [] => true
  | '/' :: '.' :: r => staysPut r
  | '/' :: r => staysPut r
  | _ => false

/-- What a path stands for. A dash stands for the standard input. -/
def Input.ofPath : Text → Input
  | '-' :: r => if staysPut r then .standard else .file ('-' :: r)
  | path => .file path

def Arguments.source? (a : Arguments) : Option Input :=
  (a.text.map Input.inline).or (a.input.map Input.ofPath)

/-- The text of an input, where `read` gives the contents of files and of the standard input. -/
def Input.contents (read : Input → Except ReadFailure Text) :
    Input → Except RunError Text
  | .inline t => .ok t
  | .standard => (read .standard).mapError (.unreadable "standard input".toList)
  | .file path => (read (.file path)).mapError (.unreadable path)

def show? (a : Arguments) (text : Text) : Except DeclarationError Output :=
  if a.segments then .ok ⟨Report.segments a.outputFormat text, []⟩
  else
    (Declaration.table a.intType text).map fun t =>
      ⟨match a.question? with
        | some q => Report.answer a.outputFormat t q
        | none => Report.table a.outputFormat a.intType t,
      t.duplicates⟩

def run (a : Arguments) (read : Input → Except ReadFailure Text) : Except RunError Output :=
  match a.source? with
  | none => .error .noInput
  | some source =>
    (source.contents read).bind fun text => (show? a text).mapError .declaration

end EnumReflection.Command
