/-!
# Arguments of a command

A command takes options by name, operands by place, and may hand what follows to a subcommand. An
option is given once at most. After two hyphens all arguments are operands.
-/
namespace EnvCompose.CommandLine

inductive OptionKind where
  /-- Nothing: it is there or not. -/
  | switch
  | text
  /-- A text that is not empty. -/
  | path
  deriving DecidableEq, Repr

structure OptionSpec where
  name : String
  kind : OptionKind
  letter : Option Char := none
  deriving Repr

structure CommandSpec where
  options : List OptionSpec
  /-- How many operands it takes. -/
  operands : Nat := 0
  subcommands : List String := []
  /-- The rows of subcommands that help can be asked for, after the word for it. -/
  helpTopics : List (List String) := []
  deriving Repr

inductive UsageError where
  /-- An option that asks for help, which is given instead. -/
  | help
  | unknown (argument : String)
  | repeated (option : String)
  | missingValue (option : String)
  | emptyValue (option : String)
  | unexpectedValue (option : String)
  | missing (what : String)
  deriving DecidableEq, Repr

def UsageError.message : UsageError → String
  | .help => "help requested"
  | .unknown argument => s!"unexpected argument '{argument}' found"
  | .repeated option => s!"the argument '--{option}' cannot be used multiple times"
  | .missingValue option => s!"a value is required for '--{option}' but none was supplied"
  | .emptyValue option => s!"a value is required for '--{option}' but it is empty"
  | .unexpectedValue option => s!"no value is taken by '--{option}'"
  | .missing what => s!"'{what}' was not provided"

/-- The rows of subcommands that help can be asked for, from those of each subcommand. Help is a
subcommand itself. -/
def topicsOf (subcommands : List (String × List (List String))) : List (List String) :=
  [] :: ["help"] :: subcommands.flatMap fun s => s.2.map (s.1 :: ·)

structure Given where
  /-- The options with their values, which are empty for switches. -/
  options : List (String × String) := []
  operands : List String := []
  deriving Repr, Inhabited

namespace Given

def has (g : Given) (option : String) : Bool := (g.options.lookup option).isSome

def value? (g : Given) (option : String) : Option String := g.options.lookup option

def add (g : Given) (o : OptionSpec) (value : String) : Except UsageError Given :=
  if g.has o.name then .error (.repeated o.name)
  else if o.kind == .path && value.isEmpty then .error (.emptyValue o.name)
  else .ok { g with options := g.options ++ [(o.name, value)] }

def addOperand (g : Given) (spec : CommandSpec) (argument : String) : Except UsageError Given :=
  if g.operands.length < spec.operands then .ok { g with operands := g.operands ++ [argument] }
  else .error (.unknown argument)

end Given

/-- Whether an argument is taken for an option and never for a value. A lone hyphen is a value. -/
def isOptionLike (argument : String) : Bool :=
  match argument.toList with
  | '-' :: _ :: _ => true
  | _ => false

/-- The name and the value of an option with its value attached. -/
def splitAttached (cs : List Char) : String × Option String :=
  let name := cs.takeWhile (· != '=')
  match cs.drop name.length with
  | _ :: value => (String.ofList name, some (String.ofList value))
  | [] => (String.ofList name, none)

/-- Adds the switches that letters after one hyphen stand for. -/
def readLetters (spec : CommandSpec) (argument : String) : Given → List Char → Except UsageError Given
  | g, [] => .ok g
  | g, c :: cs =>
    match spec.options.find? fun o => o.letter == some c && o.kind == .switch with
    | some o => do readLetters spec argument (← g.add o "") cs
    | none => .error (if c == 'h' then .help else .unknown argument)

def readCommand (spec : CommandSpec) (g : Given) :
    List String → Except UsageError (Given × Option (String × List String))
  | [] => .ok (g, none)
  | argument :: rest =>
    match argument.toList with
    | ['-', '-'] => do return (← rest.foldlM (·.addOperand spec ·) g, none)
    | '-' :: '-' :: body =>
      let (name, attached) := splitAttached body
      match spec.options.find? (·.name == name), attached with
      | none, _ => .error (if body == "help".toList then .help else .unknown argument)
      | some o, some value =>
        if o.kind == .switch then .error (.unexpectedValue name)
        else do readCommand spec (← g.add o value) rest
      | some o, none =>
        if o.kind == .switch then do readCommand spec (← g.add o "") rest
        else match rest with
          | value :: rest =>
            if isOptionLike value then .error (.missingValue name)
            else do readCommand spec (← g.add o value) rest
          | [] => .error (.missingValue name)
    | '-' :: c :: letters => do readCommand spec (← readLetters spec argument g (c :: letters)) rest
    | _ =>
      if spec.subcommands.contains argument then .ok (g, some (argument, rest))
      else if argument == "help" && !spec.subcommands.isEmpty then
        .error (if spec.helpTopics.contains rest then .help else .unknown (" ".intercalate rest))
      else do readCommand spec (← g.addOperand spec argument) rest

end EnvCompose.CommandLine
