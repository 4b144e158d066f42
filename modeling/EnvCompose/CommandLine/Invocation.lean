import EnvCompose.CommandLine.Arguments
import EnvCompose.Environment.Options
import EnvCompose.Machine

/-!
# Invocations

An invocation is what the arguments of the program ask for: a command and what holds for all
commands, namely the root of the checkout and how much is logged. The latter options may stand with
every command on the way; the last one counts.
-/
namespace EnvCompose.CommandLine

inductive Command where
  /-- Make an environment by options, some of them from a file. -/
  | createEnvironment (options : EnvironmentOptions) (file : Option Path)
  | createContainer (definition template : String) (name : Option String) (dir packages : Option Path)
  | templates
  | sites
  deriving Repr

structure Invocation where
  root : Option Path
  /-- What is logged if no variable says otherwise. -/
  level : LogLevel
  command : Command
  deriving Repr

def commonOptions : List OptionSpec :=
  [⟨"root", .path, none⟩, ⟨"verbose", .switch, some 'v'⟩, ⟨"trace", .switch, none⟩]

def createSpec : CommandSpec where
  options := commonOptions
  subcommands := ["env", "ctr"]
  helpTopics := topicsOf [("env", [[]]), ("ctr", [[]])]

def programSpec : CommandSpec where
  options := commonOptions
  subcommands := ["create", "templates", "sites"]
  helpTopics := topicsOf [("create", createSpec.helpTopics), ("templates", [[]]), ("sites", [[]])]

def environmentSpec : CommandSpec where
  options := commonOptions ++
    [⟨"template", .text, none⟩, ⟨"site", .text, none⟩, ⟨"name", .text, none⟩, ⟨"dir", .path, none⟩,
      ⟨"compiler", .text, none⟩, ⟨"mpi", .text, none⟩, ⟨"prefix", .path, none⟩,
      ⟨"packages", .path, none⟩, ⟨"no-common", .switch, none⟩, ⟨"from-file", .path, none⟩]

def containerSpec : CommandSpec where
  options := commonOptions ++
    [⟨"template", .text, none⟩, ⟨"name", .text, none⟩,
     ⟨"dir", .path, none⟩, ⟨"packages", .path, none⟩]
  operands := 1

def listingSpec : CommandSpec where
  options := commonOptions

def Given.path? (g : Given) (option : String) : Option Path := (g.value? option).map Path.mk

def environmentCommand (g : Given) : Command :=
  .createEnvironment {
    name := g.value? "name"
    dir := g.path? "dir"
    template := g.value? "template"
    site := g.value? "site"
    compiler := g.value? "compiler"
    mpi := g.value? "mpi"
    installPrefix := g.path? "prefix"
    basePackages := g.path? "packages"
    noCommon := g.has "no-common"
  } (g.path? "from-file")

def containerCommand (g : Given) : Except UsageError Command :=
  match g.operands, g.value? "template" with
  | definition :: _, some template =>
    .ok (.createContainer definition template (g.value? "name") (g.path? "dir") (g.path? "packages"))
  | [], _ => .error (.missing "<CONTAINER>")
  | _, none => .error (.missing "--template <TEMPLATE>")

def readLast (spec : CommandSpec) (args : List String) : Except UsageError Given := do
  return (← readCommand spec {} args).1

/-- What is asked for in all, the options of the commands on the way given outermost first. -/
def Invocation.of (levels : List Given) (command : Command) : Invocation where
  root := levels.foldl (fun found g => g.path? "root" <|> found) none
  level :=
    if levels.any (·.has "trace") then .trace
    else if levels.any (·.has "verbose") then .debug
    else .warn
  command := command

def usage : String :=
  "Compose Spack environments from templates, sites and common configs\n\n" ++
  "Usage: spack-stack [OPTIONS] <COMMAND>\n\n" ++
  "Commands:\n" ++
  "  create env [OPTIONS]                             Create a Spack environment\n" ++
  "  create ctr --template <TEMPLATE> <CONTAINER>     Create a container manifest\n" ++
  "  templates                                        List available templates\n" ++
  "  sites                                            List available site configurations\n\n" ++
  "Options:\n" ++
  "  --root <ROOT>    The root of the checkout\n" ++
  "  -v, --verbose    Enable debug logging\n" ++
  "  --trace          Enable trace logging\n"

/-- What the arguments of the program ask for. -/
def Invocation.ofArguments (args : List String) : Except UsageError Invocation := do
  let (top, next) ← readCommand programSpec {} args
  match next with
  | some ("create", args) =>
    let (middle, next) ← readCommand createSpec {} args
    match next with
    | some ("env", args) =>
      let last ← readLast environmentSpec args
      return .of [top, middle, last] (environmentCommand last)
    | some (_, args) =>
      let last ← readLast containerSpec args
      return .of [top, middle, last] (← containerCommand last)
    | none => throw (.missing "<COMMAND>")
  | some ("templates", args) => return .of [top, ← readLast listingSpec args] .templates
  | some (_, args) => return .of [top, ← readLast listingSpec args] .sites
  | none => throw (.missing "<COMMAND>")

end EnvCompose.CommandLine
