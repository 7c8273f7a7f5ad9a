import WasmLowering.Log.Header

/-!
# The command line

A run of the compiler is asked for by options. An option is written as two dashes and its name,
followed by its value or by an equals sign and its value; some options also have a letter, written
after one dash. An argument that is no option names the input file. A configuration file holds one
name, an equals sign and a value per line. The command line wins over the configuration file.
-/

namespace WasmLowering

/-! ## Options -/

/-- An option of the compiler. -/
inductive CliOption where
  | help
  | version
  | logLevel
  | fileLogLevel
  | logPath
  | configFile
  | input
  | output
  | info
  | moduleName
  | noVerify
  deriving Repr, DecidableEq

namespace CliOption

/-- All options, in the order in which the usage lists them. -/
def all : List CliOption :=
  [help, version, logLevel, fileLogLevel, logPath, configFile, input, output, info, moduleName,
    noVerify]

/-- The name of an option. -/
def name : CliOption → String
  | help => "help"
  | version => "version"
  | logLevel => "log_level"
  | fileLogLevel => "file_log_level"
  | logPath => "log_path"
  | configFile => "config_file"
  | input => "input"
  | output => "output"
  | info => "info"
  | moduleName => "module_name"
  | noVerify => "no_verify"

/-- The letter of an option. -/
def letter? : CliOption → Option Char
  | help => some 'h'
  | version => some 'v'
  | output => some 'o'
  | _ => none

/-- Whether an option has a value. -/
def takesValue : CliOption → Bool
  | help | version | noVerify => false
  | _ => true

/-- The value of an option that is not given. -/
def default? : CliOption → Option String
  | logPath => some "logs"
  | configFile => some "wasmir-cli.cfg"
  | moduleName => some "wasm"
  | _ => none

/-- What an option is for. -/
def description : CliOption → String
  | help => "list all available options"
  | version => "print project version"
  | logLevel => "set log level [error|warning|info(default)|debug|verbose]"
  | fileLogLevel =>
    "set file log level [error|warning|info|debug|verbose], file log is disabled if absent"
  | logPath => "directory for the log files"
  | configFile => "path to the config file"
  | input => "wasm module to compile"
  | output => "file for the textual IR, stdout if absent"
  | info => "file for the module metadata (json)"
  | moduleName => "name of the produced IR module"
  | noVerify => "don't run the IR verifier on the compiled functions"

/-- The option with a given name. -/
def ofName? (name : String) : Option CliOption :=
  all.find? (·.name == name)

/-- The option with a given letter. -/
def ofLetter? (letter : Char) : Option CliOption :=
  all.find? (·.letter? == some letter)

/-- How an option is written on the command line. -/
def usage (o : CliOption) : String :=
  let short := match o.letter? with
    | some letter => "-" ++ letter.toString ++ " [ --" ++ o.name ++ " ]"
    | none => "--" ++ o.name
  short ++ (if o.takesValue then " arg" else "")

end CliOption

/-- The list of all options. -/
def usageText : String :=
  let lines := CliOption.all.map fun o => "  " ++ o.usage ++ ": " ++ o.description ++ "\n"
  "Usage: wasmir-cli [options] <file.wasm>\nAllowed options:\n" ++ String.join lines

/-! ## Errors -/

/-- Why the options of a run are refused. -/
inductive CliError where
  | unknownOption (text : String)
  | missingValue (o : CliOption)
  | unexpectedValue (o : CliOption)
  | repeated (o : CliOption)
  | tooManyInputs
  | invalidLine (line : String)
  deriving Repr, DecidableEq

/-- The wording of an error. -/
def CliError.message : CliError → String
  | unknownOption text => "unrecognised option '" ++ text ++ "'"
  | missingValue o => "the required argument for option '--" ++ o.name ++ "' is missing"
  | unexpectedValue o => "option '--" ++ o.name ++ "' does not take any arguments"
  | repeated o => "option '--" ++ o.name ++ "' cannot be specified more than once"
  | tooManyInputs => "too many positional options have been specified on the command line"
  | invalidLine line =>
    "the options configuration file contains an invalid line '" ++ line ++ "'"

/-! ## Arguments -/

/-- The text before the first equals sign, and the text after it if there is one. -/
def splitAtEquals (cs : List Char) : String × Option String :=
  let name := String.ofList (cs.takeWhile (· != '='))
  match cs.dropWhile (· != '=') with
  | [] => (name, none)
  | _ :: value => (name, some (String.ofList value))

/-- One argument of the command line. -/
inductive Argument where
  /-- An argument that is no option. -/
  | plain (text : String)
  /-- An option, and its value if the argument holds one. -/
  | option (o : CliOption) (value : Option String)
  deriving Repr, DecidableEq

/-- Reads an argument. -/
def Argument.ofText (text : String) : Except CliError Argument :=
  match text.toList with
  | '-' :: '-' :: rest =>
    let (name, value) := splitAtEquals rest
    match CliOption.ofName? name with
    | none => .error (.unknownOption text)
    | some o => .ok (.option o value)
  | '-' :: letter :: rest =>
    match CliOption.ofLetter? letter with
    | none => .error (.unknownOption text)
    | some o => .ok (.option o (if rest.isEmpty then none else some (String.ofList rest)))
  | _ => .ok (.plain text)

/-! ## Settings -/

/-- The options that are given, with their values; the value of a switch is empty. -/
abbrev Settings := List (CliOption × String)

namespace Settings

/-- Whether an option is given. -/
def has (s : Settings) (o : CliOption) : Bool :=
  (s.lookup o).isSome

/-- The value of an option, which may be its default. -/
def value? (s : Settings) (o : CliOption) : Option String :=
  (s.lookup o).or o.default?

/-- The settings in the arguments of a command line, in order. -/
def read : List String → Except CliError Settings
  | [] => .ok []
  | arg :: rest => do
    match ← Argument.ofText arg with
    | .plain text => return (.input, text) :: (← read rest)
    | .option o value =>
      if o.takesValue then
        match value, rest with
        | some value, rest => return (o, value) :: (← read rest)
        | none, value :: rest => return (o, value) :: (← read rest)
        | none, [] => .error (.missingValue o)
      else
        match value with
        | some _ => .error (.unexpectedValue o)
        | none => return (o, "") :: (← read rest)

/-- Refuses settings that give an option twice. -/
def unique : Settings → Except CliError Settings
  | [] => .ok []
  | (o, value) :: rest => do
    if has rest o then .error (if o = .input then .tooManyInputs else .repeated o)
    else return (o, value) :: (← unique rest)

/-- The settings on a command line. -/
def ofArguments (args : List String) : Except CliError Settings := do
  unique (← read args)

/-- The setting in a line of a configuration file. Comments start at a hash sign. -/
def ofLine (line : String) : Except CliError Settings :=
  let text := (String.ofList (line.toList.takeWhile (· != '#'))).trimAscii.toString
  if text.isEmpty then .ok []
  else
    match splitAtEquals text.toList with
    | (_, none) => .error (.invalidLine text)
    | (name, some value) =>
      match CliOption.ofName? name.trimAscii.toString with
      | none => .error (.unknownOption name)
      | some o => .ok [(o, value.trimAscii.toString)]

/-- The settings in a configuration file. -/
def ofConfig (content : String) : Except CliError Settings := do
  let settings ← (content.splitOn "\n").mapM ofLine
  unique settings.flatten

/-- The level that an option names, or another one if it names none. -/
def level (s : Settings) (o : CliOption) (otherwise : Log.Level) : Log.Level :=
  let levels : List (String × Log.Level) :=
    [("error", .error), ("warning", .warning), ("info", .info), ("debug", .debug),
      ("verbose", .verbose)]
  ((s.lookup o).bind fun name => levels.lookup name).getD otherwise

/-- The level of the console. The result goes there unless an output file is given, so it is kept
    for errors then. -/
def consoleLevel (s : Settings) : Log.Level :=
  s.level .logLevel (if s.has .output then .info else .error)

end Settings

end WasmLowering
