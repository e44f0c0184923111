import SelectorLint.Report.Choice

/-!
# Arguments of the command line

Arguments are read from left to right (`Invocation.parse`), first those of the program and then, after the name of
a command, those of the command. A switch with a value is taken in only when the next argument that is not its
value comes, or at the end: until then it is pending (`Reading.settle`). So of two things that are wrong, that with
an unknown argument can win over that with the value before it.
-/

namespace SelectorLint

/-- What a command line asks for. -/
inductive Command where
  | check (paths : List String) (format : Option Report.Format) (config : String) (verbose : Bool)
  | init (force : Bool)
  | list (format : Report.Format) (config : String)
  deriving DecidableEq, Repr

/-- A command line that has been read. -/
structure Invocation where
  coloring : Option Report.Coloring
  command : Command
  deriving DecidableEq, Repr

/-- Why a command line asks for nothing that can be done. The first two ask for a text on the program. -/
inductive Usage where
  | help
  | version
  /-- There is nothing at all. -/
  | nothing
  | missingCommand
  | unknownCommand
  | unknownArgument
  /-- A value is missing, empty or not one of those there are. -/
  | invalidValue
  /-- A switch is given twice. -/
  | repeated
  /-- A switch without values has one. -/
  | unexpectedValue
  deriving DecidableEq, Repr

/-- The exit code of the program. -/
def Usage.exitCode : Usage → Nat
  | help | version => 0
  | _ => 2

/-! ## Switches -/

/-- All switches. -/
inductive Switch where
  | color
  | format
  | config
  | verbose
  | force
  | help
  | version
  deriving DecidableEq, Repr

namespace Switch

/-- The name after two hyphens. -/
def long : Switch → String
  | color => "color"
  | format => "format"
  | config => "config"
  | verbose => "verbose"
  | force => "force"
  | help => "help"
  | version => "version"

/-- The letter after one hyphen. -/
def short? : Switch → Option Char
  | format => some 'f'
  | config => some 'c'
  | verbose => some 'v'
  | help => some 'h'
  | version => some 'V'
  | color | force => none

/-- The switch has a value. -/
def takesValue : Switch → Bool
  | color | format | config => true
  | verbose | force | help | version => false

/-- The switch can have the value. -/
def allows : Switch → String → Bool
  | color, value => (Report.Coloring.ofLabel? value).isSome
  | format, value => (Report.Format.ofLabel? value).isSome
  | config, value => !value.isEmpty
  | _, _ => true

end Switch

/-- The names of the commands. -/
inductive CommandName where
  | check
  | init
  | list
  deriving DecidableEq, Repr

namespace CommandName

/-- How a name is written. -/
def label : CommandName → String
  | check => "check"
  | init => "init"
  | list => "list"

/-- The name that is written so. -/
def ofLabel? (text : String) : Option CommandName :=
  [check, init, list].find? fun name => name.label = text

end CommandName

/-- The switches of a command, or of the program itself. -/
def switchesOf : Option CommandName → List Switch
  | none => [.color, .help, .version]
  | some .check => [.format, .config, .verbose, .color, .help]
  | some .init => [.force, .color, .help]
  | some .list => [.format, .config, .color, .help]

/-- The word that asks for a text on a command. -/
def helpWord : String := "help"

/-- The word stands where a command can stand. -/
def isCommandWord (word : String) : Bool := word = helpWord || (CommandName.ofLabel? word).isSome

/-! ## Reading arguments one by one -/

/-- The arguments read so far of a command or of the program itself. -/
structure Reading where
  given : List (Switch × String)
  paths : List String
  /-- A switch that has not been taken in, and its value if that was read. -/
  pending : Option (Switch × Option String)
  /-- After two hyphens alone there are no switches any more. -/
  switchesOver : Bool
  deriving DecidableEq, Repr

namespace Reading

/-- Before the first argument. -/
def start : Reading := ⟨[], [], none, false⟩

/-- The value of a switch. -/
def value? (reading : Reading) (switch : Switch) : Option String :=
  (reading.given.find? fun entry => entry.1 = switch).map Prod.snd

/-- The switch is given. -/
def has (reading : Reading) (switch : Switch) : Bool := (reading.value? switch).isSome

/-- The next argument is the value of a switch, if it does not look like a switch. -/
def awaitsValue (reading : Reading) : Bool :=
  match reading.pending with
  | some (_, none) => true
  | _ => false

/-- Takes in a switch. -/
def record (reading : Reading) (switch : Switch) (value : String) : Except Usage Reading :=
  if reading.has switch then .error .repeated
  else if switch.allows value then .ok { reading with given := reading.given ++ [(switch, value)] }
  else .error .invalidValue

/-- Takes in the pending switch. -/
def settle (reading : Reading) : Except Usage Reading :=
  match reading.pending with
  | none => .ok reading
  | some (_, none) => .error .invalidValue
  | some (switch, some value) => { reading with pending := none }.record switch value

/-- A switch that stands alone. -/
def raise (reading : Reading) (switch : Switch) : Except Usage Reading := do
  let reading ← reading.settle
  match switch with
  | .help => .error .help
  | .version => .error .version
  | _ => reading.record switch ""

/-- A switch whose value follows as the next argument. -/
def await (reading : Reading) (switch : Switch) : Except Usage Reading := do
  let reading ← reading.settle
  return { reading with pending := some (switch, none) }

/-- A switch with its value in the same argument. -/
def attach (reading : Reading) (switch : Switch) (value : List Char) : Except Usage Reading := do
  let reading ← reading.settle
  reading.record switch (String.ofList value)

/-- An argument after two hyphens. -/
def takeLong (switches : List Switch) (reading : Reading) (argument : List Char) :
    Except Usage Reading :=
  let name := String.ofList (argument.takeWhile (· ≠ '='))
  match switches.find? fun switch => switch.long = name with
  | none => .error .unknownArgument
  | some switch =>
    match switch.takesValue, argument.dropWhile (· ≠ '=') with
    | true, _ :: value => reading.attach switch value
    | true, [] => reading.await switch
    | false, _ :: _ => .error .unexpectedValue
    | false, [] => reading.raise switch

/-- The letters after one hyphen. What follows a switch with a value is its value. -/
def takeShort (switches : List Switch) : List Char → Reading → Except Usage Reading
  | [], reading => .ok reading
  | letter :: rest, reading =>
    match switches.find? fun switch => switch.short? = some letter with
    | none => .error .unknownArgument
    | some switch =>
      if switch.takesValue then
        match rest with
        | [] => reading.await switch
        | '=' :: value => reading.attach switch value
        | value => reading.attach switch value
      else do
        let reading ← reading.raise switch
        takeShort switches rest reading

/-- An argument that is no switch and no value of one. -/
def takePlain (name : Option CommandName) (reading : Reading) (argument : String) :
    Except Usage Reading :=
  match name with
  | some .check => do
    let reading ← reading.settle
    return { reading with paths := reading.paths ++ [argument] }
  | some _ => .error .unknownArgument
  | none =>
    if reading.switchesOver && isCommandWord argument then .error .unknownArgument
    else .error .unknownCommand

/-- Reads one argument of a command, or of the program itself. -/
def take (name : Option CommandName) (reading : Reading) (argument : String) :
    Except Usage Reading :=
  if reading.switchesOver then reading.takePlain name argument
  else
    match argument.toList with
    | ['-', '-'] => .ok { reading with switchesOver := true }
    | '-' :: '-' :: rest => reading.takeLong (switchesOf name) rest
    | '-' :: letter :: rest => takeShort (switchesOf name) (letter :: rest) reading
    | _ =>
      match reading.pending with
      | some (switch, none) => .ok { reading with pending := some (switch, some argument) }
      | _ => reading.takePlain name argument

end Reading

/-! ## Whole command lines -/

/-- What asking for help leads to, with the words after it. -/
def helpAbout : List String → Usage
  | [] => .help
  | [word] => if isCommandWord word then .help else .unknownCommand
  | _ => .unknownCommand

/-- Reads the arguments of the program up to the name of a command, and gives the rest. -/
def readOuter (reading : Reading) :
    List String → Except Usage (Reading × Option (CommandName × List String))
  | [] => .ok (reading, none)
  | argument :: rest =>
    if !reading.switchesOver && !reading.awaitsValue && isCommandWord argument then
      match CommandName.ofLabel? argument with
      | some name => .ok (reading, some (name, rest))
      | none => .error (helpAbout rest)
    else do
      let reading ← reading.take none argument
      readOuter reading rest

/-- The command that a reading of its arguments stands for. -/
def CommandName.command (configFile : String) (reading : Reading) : CommandName → Command
  | check =>
    .check (if reading.paths.isEmpty then ["."] else reading.paths)
      ((reading.value? .format).bind Report.Format.ofLabel?)
      ((reading.value? .config).getD configFile) (reading.has .verbose)
  | init => .init (reading.has .force)
  | list =>
    .list (((reading.value? .format).bind Report.Format.ofLabel?).getD .human)
      ((reading.value? .config).getD configFile)

/-- Reads a command line. The name of the configuration file is the one to use if none is given. -/
def Invocation.parse (configFile : String) (arguments : List String) : Except Usage Invocation := do
  let (outer, chosen) ← readOuter .start arguments
  match chosen with
  | none =>
    let outer ← outer.settle
    .error (if outer.given.isEmpty then .nothing else .missingCommand)
  | some (name, rest) =>
    let inner ← rest.foldlM (Reading.take (some name)) .start
    let inner ← inner.settle
    let outer ← outer.settle
    let coloring := (inner.value? .color <|> outer.value? .color).bind Report.Coloring.ofLabel?
    return ⟨coloring, name.command configFile inner⟩

end SelectorLint
