import EnumReflection.Report

/-!
# Help

The help of the command, in full and as a summary with one line for each option.
-/
namespace EnumReflection.Command

def helpLines : List String :=
  ["Build and query the reflection table of an enumeration member list",
   "",
   "Usage: metaenum [OPTIONS] [INPUT]",
   "",
   "Arguments:",
   "  [INPUT]",
   "          File holding the member list, or `-` to read standard input",
   "",
   "Options:",
   "      --text <TEXT>",
   "          Member list given inline, e.g. \"A, B = 5, C\"",
   "",
   "      --repr <REPR>",
   "          Underlying integer type every resolved value must fit",
   "          ",
   "          [default: i32]",
   "          [possible values: i8, i16, i32, i64, u8, u16, u32, u64]",
   "",
   "      --format <FORMAT>",
   "          Output format",
   "",
   "          Possible values:",
   "          - text: Aligned, human-readable table",
   "          - json: JSON object with the declaration and every member",
   "          ",
   "          [default: text]",
   "",
   "  -v, --verbose...",
   "          Raise the log level of the metaenum crates (`-v` debug, `-vv` trace)." ++
      " `METAENUM_LOG` and `RUST_LOG` take precedence",
   "",
   "      --segments",
   "          Print the top-level segments and the name read from each, without resolving values",
   "",
   "      --name-of <NAME_OF>",
   "          Print the name of the first member with this value",
   "",
   "      --value-of <VALUE_OF>",
   "          Print the value of the member with this exact name",
   "",
   "      --index-of <INDEX_OF>",
   "          Print the ordinal of the first member with this value",
   "",
   "  -h, --help",
   "          Print help (see a summary with '-h')",
   "",
   "  -V, --version",
   "          Print version"]

def summaryLines : List String :=
  ["Build and query the reflection table of an enumeration member list",
   "",
   "Usage: metaenum [OPTIONS] [INPUT]",
   "",
   "Arguments:",
   "  [INPUT]  File holding the member list, or `-` to read standard input",
   "",
   "Options:",
   "      --text <TEXT>          Member list given inline, e.g. \"A, B = 5, C\"",
   "      --repr <REPR>          Underlying integer type every resolved value must" ++
      " fit [default: i32] [possible values: i8, i16, i32, i64, u8, u16, u32, u64]",
   "      --format <FORMAT>      Output format [default: text] [possible values: text, json]",
   "  -v, --verbose...           Raise the log level of the metaenum crates (`-v`" ++
      " debug, `-vv` trace). `METAENUM_LOG` and `RUST_LOG` take precedence",
   "      --segments             Print the top-level segments and the name read" ++
      " from each, without resolving values",
   "      --name-of <NAME_OF>    Print the name of the first member with this value",
   "      --value-of <VALUE_OF>  Print the value of the member with this exact name",
   "      --index-of <INDEX_OF>  Print the ordinal of the first member with this value",
   "  -h, --help                 Print help (see more with '--help')",
   "  -V, --version              Print version"]

def helpText (long : Bool) : Text :=
  Report.unlines ((if long then helpLines else summaryLines).map String.toList)

def versionText : Text := "metaenum 0.1.0\n".toList

end EnumReflection.Command
