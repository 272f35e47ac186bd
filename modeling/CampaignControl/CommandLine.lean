import CampaignControl.Dispatch

/-!
# The command line

A worker calls this program with the paths of the base configuration and of the batches, with
its index, and with paths for what is written. Each of them is an option or, where the option is
not given, a variable of the environment; the index has a second variable.

`Invocation.ofArguments` decides what is asked for, and `Invocation.perform` does it on a
`Host`, which is what the program needs of its surroundings. The exit status is 2 for what would
fail again in the same way and 1 for files that cannot be read or written. Asked for its version
or for help, the program prints that and looks at nothing else.
-/

namespace CampaignControl
namespace CommandLine

/-- The options that take a value. -/
inductive Flag where
  | baseConfig
  | batches
  | index
  | output
  | batchOutput
  deriving DecidableEq, Repr, Inhabited

namespace Flag

def all : List Flag := [baseConfig, batches, index, output, batchOutput]

/-- The name of the option. -/
def option : Flag → String
  | baseConfig => "--base-config"
  | batches => "--batches"
  | index => "--index"
  | output => "--output"
  | batchOutput => "--batch-output"

/-- The variable that is read where the option is not given. -/
def variableName : Flag → String
  | baseConfig => "SHOAL_BASE_CONFIG"
  | batches => "SHOAL_BATCHES"
  | index => Dispatch.indexVariable
  | output => "SHOAL_MERGED_CONFIG"
  | batchOutput => "SHOAL_BATCH_CONFIG"

/-- What the value of the option is called. -/
def placeholder : Flag → String
  | baseConfig => "<BASE_CONFIG>"
  | batches => "<BATCHES>"
  | index => "<INDEX>"
  | output => "<OUTPUT>"
  | batchOutput => "<BATCH_OUTPUT>"

/-- What the option is for. -/
def description : Flag → String
  | baseConfig => "Base configuration document (JSON object)"
  | batches => "Batch list document: an array, or an object with a `batches` array"
  | index => "Worker index; falls back to JOB_COMPLETION_INDEX"
  | output => "Where to write the merged configuration; stdout when omitted"
  | batchOutput => "Where to write the selected batch document"

end Flag

/-- The variable for the index that is read when there is no other index. -/
def completionVariable : String := "JOB_COMPLETION_INDEX"

/-- The index that a text denotes: digits, perhaps behind a plus sign, and below `2 ^ 64`. -/
def readIndex? (text : List Char) : Option Nat :=
  let digits := match text with
    | '+' :: cs => cs
    | cs => cs
  if digits.isEmpty || !digits.all Char.isDigit then none
  else
    let n := digits.foldl (fun n c => 10 * n + (c.toNat - '0'.toNat)) 0
    if n < 0x10000000000000000 then some n else none

/-- Whether an option may have this value: an index, or a path that is not empty. -/
def Flag.accepts (flag : Flag) (value : String) : Bool :=
  match flag with
  | index => (readIndex? value.toList).isSome
  | _ => !value.isEmpty

/-- The values of options. -/
abbrev Values := List (Flag × String)

/-- What the arguments say. -/
inductive Arguments where
  /-- Nothing that can be understood. -/
  | misuse
  /-- The version is asked for. -/
  | version
  /-- An explanation of the options is asked for. -/
  | help
  | given (values : Values)
  deriving DecidableEq, Repr, Inhabited

/-- Whether an argument cannot be the value of the option before it. -/
def isOption (argument : String) : Bool :=
  argument.toList.head? == some '-' && argument != "-"

/-- The option that an argument gives, and its value where the argument has that too. -/
def splitOption? (argument : String) : Option (Flag × Option String) :=
  let name := argument.toList.takeWhile (· ≠ '=')
  (Flag.all.find? (·.option.toList == name)).map fun flag =>
    match argument.toList.drop name.length with
    | [] => (flag, none)
    | _ :: value => (flag, some (String.ofList value))

/-- The values with one more, unless it has been given before or is not accepted. -/
def addValue? (values : Values) (flag : Flag) (value : String) : Option Values :=
  if Keyed.contains flag values || !flag.accepts value then none
  else some (values ++ [(flag, value)])

/-- Reads the arguments from left to right, up to the first that decides the matter. -/
def readArguments (values : Values) : List String → Arguments
  | [] => .given values
  | argument :: rest =>
    if argument = "--" then if rest.isEmpty then .given values else .misuse
    else if argument = "--version" ∨ argument.toList.take 2 = ['-', 'V'] then .version
    else if argument = "--help" ∨ argument.toList.take 2 = ['-', 'h'] then .help
    else
      match splitOption? argument with
      | none => .misuse
      | some (flag, some value) =>
        match addValue? values flag value with
        | none => .misuse
        | some values => readArguments values rest
      | some (flag, none) =>
        match rest with
        | [] => .misuse
        | value :: rest =>
          if isOption value then .misuse
          else
            match addValue? values flag value with
            | none => .misuse
            | some values => readArguments values rest

/-- The variables of the environment that are set. -/
abbrev Environment := List (String × String)

/-- The value of a flag: that of its option, else that of its variable, which has to be
accepted. -/
def valueOf? (values : Values) (env : Environment) (flag : Flag) : Except Unit (Option String) :=
  match Keyed.find? flag values, Keyed.find? flag.variableName env with
  | some value, _ => .ok (some value)
  | none, some value => if flag.accepts value then .ok (some value) else .error ()
  | none, none => .ok none

/-- What a worker asks for. -/
structure Options where
  baseConfig : String
  batches : String
  index : Nat
  output : Option String
  batchOutput : Option String
  deriving DecidableEq, Repr, Inhabited

inductive Invocation where
  | misuse
  | version
  /-- The options are to be explained, each with the value that its variable has. -/
  | help (env : Environment)
  | dispatch (options : Options)
  deriving DecidableEq, Repr, Inhabited

/-- The worker index: that of the flag, else that of the second variable if it is one. -/
def workerIndex? (value : Option String) (env : Environment) : Option Nat :=
  match value with
  | some text => readIndex? text.toList
  | none => (Keyed.find? completionVariable env).bind fun text => readIndex? (trim text.toList)

/-- What values and variables together ask for. -/
def resolve (values : Values) (env : Environment) : Except Unit Options := do
  let baseConfig ← valueOf? values env .baseConfig
  let batches ← valueOf? values env .batches
  let index ← valueOf? values env .index
  let output ← valueOf? values env .output
  let batchOutput ← valueOf? values env .batchOutput
  match baseConfig, batches, workerIndex? index env with
  | some baseConfig, some batches, some index =>
    .ok { baseConfig, batches, index, output, batchOutput }
  | _, _, _ => .error ()

/-- What is asked for. -/
def Invocation.ofArguments (arguments : List String) (env : Environment) : Invocation :=
  match readArguments [] arguments with
  | .misuse => .misuse
  | .version => .version
  | .help => .help env
  | .given values =>
    match resolve values env with
    | .ok options => .dispatch options
    | .error _ => .misuse

/-- How the program ends. -/
inductive Exit where
  | success
  /-- A file could not be read or written. -/
  | failure
  /-- Nothing that is worth another try. -/
  | refusal
  deriving DecidableEq, Repr, Inhabited

/-- The exit status. -/
def Exit.status : Exit → UInt8
  | success => 0
  | failure => 1
  | refusal => 2

/-- What the program needs of its surroundings. -/
structure Host (m : Type → Type) where
  /-- The text of a file, unless it cannot be read as a text. -/
  readFile : String → m (Option String)
  /-- Sets the text of a file, and says whether that has been possible. -/
  writeFile : String → String → m Bool
  /-- Writes to the standard output. -/
  print : String → m Unit

/-- The name and the version of the program. -/
def versionText : String := "shoal-dispatch 0.1.0\n"

/-- What is said about an option: its name and value, and below what it is for, with its variable
and the value of that. -/
def Flag.helpText (env : Environment) (flag : Flag) : String :=
  "      " ++ flag.option ++ " " ++ flag.placeholder ++ "\n          " ++ flag.description ++
    " [env: " ++ flag.variableName ++ "=" ++ (Keyed.find? flag.variableName env).getD "" ++ "]\n"

/-- The explanation of the options. -/
def helpText (env : Environment) : String :=
  "Merge this worker's batch into the base configuration\n\n" ++
    "Usage: shoal-dispatch [OPTIONS] --base-config <BASE_CONFIG> --batches <BATCHES>\n\n" ++
    "Options:\n" ++ String.join (Flag.all.map (·.helpText env)) ++
    "  -h, --help\n          Print help\n  -V, --version\n          Print version\n"

section
variable {m : Type → Type} [Monad m]

/-- Writes the merged configuration to its file, or to the standard output where it has none. Says
whether that has been possible. -/
def putMerged (host : Host m) (options : Options) (output : Dispatch.Output) : m Bool :=
  match options.output with
  | some path => host.writeFile path (Dispatch.render output.merged)
  | none => do
    host.print (Dispatch.render output.merged)
    return true

/-- Writes the batch to its file if it is to have one. Says whether that has been possible. -/
def putBatch (host : Host m) (options : Options) (output : Dispatch.Output) : m Bool :=
  match options.batchOutput with
  | some path => host.writeFile path (Dispatch.render output.batch)
  | none => return true

/-- Writes the merged configuration and then the batch. -/
def write (host : Host m) (options : Options) (output : Dispatch.Output) : m Exit := do
  if !(← putMerged host options output) then return .failure
  if !(← putBatch host options output) then return .failure
  return .success

/-- Reads both documents, merges the batch at the index and writes the outcome. -/
def dispatch (host : Host m) (options : Options) : m Exit := do
  match ← host.readFile options.baseConfig with
  | none => return .failure
  | some base =>
    match ← host.readFile options.batches with
    | none => return .failure
    | some batches =>
      match Dispatch.mergeTexts base batches options.index with
      | .error _ => return .refusal
      | .ok output => write host options output

/-- Does what is asked for. -/
def Invocation.perform (host : Host m) : Invocation → m Exit
  | .misuse => pure .refusal
  | .version => do host.print versionText; pure .success
  | .help env => do host.print (helpText env); pure .success
  | .dispatch options => CommandLine.dispatch host options

end

end CommandLine
end CampaignControl
