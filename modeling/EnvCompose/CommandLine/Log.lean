import EnvCompose.Machine

/-!
# The log on the error stream

Lines above a threshold are left out. A variable may set the threshold, and beats the options.
-/
namespace EnvCompose

namespace LogLevel

def rank : LogLevel → Nat
  | .error => 1
  | .warn => 2
  | .info => 3
  | .debug => 4
  | .trace => 5

def label : LogLevel → String
  | .error => "ERROR"
  | .warn => " WARN"
  | .info => " INFO"
  | .debug => "DEBUG"
  | .trace => "TRACE"

end LogLevel

namespace CommandLine

/-- The highest rank that is logged, by the variable's value if it is set. Without a text it admits
errors only, and a text that names no level admits nothing. -/
def threshold (setting : Option String) (level : LogLevel) : Nat :=
  match setting with
  | none => level.rank
  | some text =>
    match text.toLower with
    | "" | "error" | "1" => 1
    | "warn" | "2" => 2
    | "info" | "3" => 3
    | "debug" | "4" => 4
    | "trace" | "5" => 5
    | _ => 0

def thresholdVariable : String := "SPACK_STACK_LOG"

/-- A character of a message as it is written. Those that can steer a terminal are shown by their
code. -/
def shownCharacter (c : Char) : String :=
  match c with
  | '\x07' => "\\x07"
  | '\x08' => "\\x08"
  | '\x0c' => "\\x0c"
  | '\x1b' => "\\x1b"
  | '\x7f' => "\\x7f"
  | _ =>
    if 0x80 ≤ c.toNat && c.toNat ≤ 0x9f then
      "\\u\x7b" ++ String.ofList (Nat.toDigits 16 c.toNat) ++ "\x7d"
    else c.toString

def shownMessage (message : String) : String := String.join (message.toList.map shownCharacter)

end CommandLine

/-- A line as it is written. The fields stay as they are. -/
def LogLine.text (l : LogLine) : String :=
  l.level.label ++ " " ++ CommandLine.shownMessage l.message ++
    String.join (l.fields.map fun f => " " ++ f.1 ++ "=" ++ f.2)

end EnvCompose
