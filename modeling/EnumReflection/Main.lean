import EnumReflection.Command.Process

/-!
# The command

Arguments, environment and input come from the system; the rest is `Command.process`.
-/
namespace EnumReflection.Command

partial def readAll (stream : IO.FS.Stream) (read : ByteArray) : IO ByteArray := do
  let more ← stream.read 65536
  if more.isEmpty then return read else readAll stream (read ++ more)

def decode (bytes : ByteArray) : Except ReadFailure Text :=
  match String.fromUTF8? bytes with
  | some s => .ok s.toList
  | none => .error .notUnicode

def failure : IO.Error → ReadFailure
  | .noFileOrDirectory .. => .system "No such file or directory (os error 2)".toList
  | .permissionDenied .. => .system "Permission denied (os error 13)".toList
  | .inappropriateType _ 20 _ => .system "Not a directory (os error 20)".toList
  | .inappropriateType .. => .system "Is a directory (os error 21)".toList
  | e => .system (toString e).toList

def fetch (source : Input) : IO (Except ReadFailure Text) := do
  try
    match source with
    | .inline t => return .ok t
    | .standard => return decode (← readAll (← IO.getStdin) .empty)
    | .file path => return decode (← IO.FS.readBinFile (String.ofList path))
  catch e => return .error (failure e)

def colours : IO Bool := do
  let names := ["CLICOLOR_FORCE", "NO_COLOR", "CLICOLOR"]
  let found ← names.filterMapM fun name => do
    return (← IO.getEnv name).map fun value => (name.toList, value.toList)
  return isColoured (fun name => found.lookup name) (← (← IO.getStdout).isTty)

end EnumReflection.Command

open EnumReflection.Command

def main (arguments : List String) : IO UInt32 := do
  let argv := arguments.map String.toList
  let source := (Arguments.ofList argv).toOption.bind Arguments.source?
  let contents ← fetch (source.getD (.inline []))
  let outcome := process (← colours) (fun _ => contents) argv
  (← IO.getStderr).putStr (String.ofList outcome.stderr)
  (← IO.getStdout).putStr (String.ofList outcome.stdout)
  return outcome.code.toUInt32
