import EnumReflection.Text.Basic
import EnumReflection.Text.Blank

/-!
# What is logged

Logging is off unless the environment or `--verbose` asks for it. A variable holds directives
or a bare level, and a bare level is meant for the parts of the command alone.
-/
namespace EnumReflection.Command

inductive LogStyle
  | text
  | tree
  | json
  deriving DecidableEq, Repr

abbrev Environment := Text → Option Text

/-- Directives that say what is logged, and the form of the log. -/
structure LogSetup where
  directives : Text
  format : LogStyle
  deriving DecidableEq, Repr

namespace LogSetup

/-- A word in lower case. It is compared with words of ASCII letters other than k, and these
are the lower case of no letter outside ASCII. -/
def lower (t : Text) : Text := t.map Char.toLower

/-- The format that a value names, or text. -/
def formatOf (value : Text) : LogStyle :=
  if lower value = "tree".toList then .tree
  else if lower value = "json".toList then .json
  else .text

def levels : List Text := ["trace", "debug", "info", "warn", "error"].map String.toList

def targets : List Text := ["metaenum", "metaenum_scanner", "metaenum_cli"].map String.toList

def ofLevel (level : Text) : Text :=
  Text.join [','] (targets.map fun target => target ++ '=' :: level)

def ofVariable (value : Text) : Text :=
  if levels.contains (lower value.trim) then ofLevel value.trim else value.trim

def ofVerbose : Nat → Option Text
  | 0 => none
  | 1 => some (ofLevel "debug".toList)
  | _ => some (ofLevel "trace".toList)

/-- The log that the environment and the flags ask for. The variables count before the flags. -/
def of? (env : Environment) (verbose : Nat) : Option LogSetup :=
  let value := (env "METAENUM_LOG".toList).or (env "RUST_LOG".toList)
  ((value.map ofVariable).or (ofVerbose verbose)).map fun directives =>
    ⟨directives, formatOf ((env "METAENUM_LOG_FORMAT".toList).getD [])⟩

end LogSetup

end EnumReflection.Command
