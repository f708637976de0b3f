import Reckon.CommandLine.Request

/-! # What the program says about itself -/

namespace Reckon.CommandLine

def programName : String := "descent-calc"

def versionText : String := programName ++ " 0.1.0\n"

def helpText : String :=
  "Standard and ternary integer expression evaluators built on descent\n" ++
  "\n" ++
  "Usage: " ++ programName ++ " [OPTIONS]\n" ++
  "\n" ++
  "Options:\n" ++
  "  -g, --grammar <GRAMMAR>      Grammar: `standard` (`**` exponents) or `ternary`" ++
    " (single `*`) [default: " ++ Dialect.usual.name ++ "]\n" ++
  "  -d, --max-depth <MAX_DEPTH>  Maximum nesting depth of parentheses and exponents" ++
    " [default: " ++ Decimal.ofNat defaultLimit ++ "]\n" ++
  "  -i, --input <INPUT>          Input file with one expression per line" ++
    " (stdin when omitted)\n" ++
  "  -h, --help                   Print help\n" ++
  "  -V, --version                Print version\n"

def Flag.answer : Flag → String
  | .help => helpText
  | .version => versionText

/-- The report on arguments that make no sense, with no controls in it. The first line names the
error. -/
def UsageError.report (e : UsageError) : ByteArray :=
  let text := "error: " ++ e.text ++ "\n\nFor more information, try '--help'.\n"
  (Control.plain text.toUTF8.toList).toByteArray

end Reckon.CommandLine
