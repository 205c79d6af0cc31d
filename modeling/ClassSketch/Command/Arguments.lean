import ClassSketch.Text.Blank
import ClassSketch.Text.Lines

/-!
# Command lines

A command line names a command, gives its options and says what it applies to. An option is given by
its name after two hyphens or by its letter after one; its value follows directly, after an equals
sign, or as the next argument. Letters may stand together behind one hyphen, and after two hyphens
alone all arguments are values.

## Main definitions

* `Invocation`: what a command line asks for
* `UsageError`: why a command line asks for nothing
* `Draft`: the arguments read so far
* `Invocation.ofArguments`: what a command line asks for

## Implementation notes

The value of an option is checked when the next option starts or the arguments end, so that an
unknown argument directly after it is reported first.
-/

namespace ClassSketch

/-- Why a command line asks for nothing that can be done. -/
inductive UsageError where
  | helpRequested
  | versionRequested
  /-- There are no arguments. -/
  | nothingGiven
  /-- There are options, but no command. -/
  | noCommand
  | unknownCommand
  | unknownArgument
  /-- The command applies to nothing. -/
  | missingArgument
  | missingValue
  | emptyPath
  | malformedTemplate
  /-- A flag has a value. -/
  | unwantedValue
  /-- An option that may be given once is given again. -/
  | repeated
  deriving Repr, DecidableEq, BEq

/-- The wording of the error. -/
def UsageError.message : UsageError → String
  | helpRequested | nothingGiven =>
    "usage: stubgen [-v] reconstruct [OPTIONS] TYPE...\n" ++
    "       stubgen [-v] scan [OPTIONS] CLASSES\n" ++
    "options: -c, --classpath PATHS   --config FILE   -o, --out DIRECTORY   --template KEY=VALUE"
  | versionRequested => "stubgen 0.1.0"
  | noCommand => "error: a command is required"
  | unknownCommand => "error: unknown command"
  | unknownArgument => "error: unexpected argument"
  | missingArgument => "error: a required argument is missing"
  | missingValue => "error: an option lacks its value"
  | emptyPath => "error: a path is empty"
  | malformedTemplate => "error: a template value lacks its key"
  | unwantedValue => "error: a flag takes no value"
  | repeated => "error: an option is given more than once"

/-- The key and the value of a template value, written with an equals sign between them. The key is
trimmed and must not be empty. -/
def templateValue? (text : String) : Option (String × String) :=
  match Text.cutFirst (· == '=') text.toList with
  | some (key, value) =>
    let key := Text.trim key
    if key.isEmpty then none else some (String.ofList key, String.ofList value)
  | none => none

/-- The wording when a template value is refused. -/
def templateRefusal (text : String) : String := "expected KEY=VALUE, got `" ++ text ++ "`"

/-! ### What a command line asks for -/

/-- The options that all commands share. -/
structure Options where
  /-- Texts of search paths. -/
  classpath : List String
  /-- The file of settings. -/
  config : Option String
  /-- The directory to write to. -/
  out : Option String
  templates : List (String × String)
  deriving Repr, DecidableEq, BEq

/-- What a command applies to. -/
inductive Target where
  /-- The types of these names. -/
  | types (names : List String)
  /-- All types below a directory. -/
  | classes (directory : String)
  deriving Repr, DecidableEq, BEq

/-- What a command line asks for. -/
structure Invocation where
  verbose : Bool
  target : Target
  options : Options
  deriving Repr, DecidableEq, BEq

/-- The commands. -/
inductive Command where
  | reconstruct
  | scan
  deriving Repr, DecidableEq, BEq

/-- The command of a name. -/
def Command.ofName? (name : String) : Option Command :=
  if name = "reconstruct" then some .reconstruct
  else if name = "scan" then some .scan
  else none

/-! ### Options -/

/-- What a value on a command line is for. -/
inductive Field where
  | classpath
  | config
  | out
  | template
  | types
  | classes
  deriving Repr, DecidableEq, BEq

namespace Field

/-- Whether there may be several values. -/
def isRepeatable : Field → Bool
  | classpath | template | types => true
  | config | out | classes => false

/-- Refuses a value that is not allowed: a path is not empty, and a template value has a key. -/
def check (field : Field) (value : String) : Except UsageError Unit :=
  match field with
  | config | out | classes => if value.isEmpty then .error .emptyPath else .ok ()
  | template => if (templateValue? value).isSome then .ok () else .error .malformedTemplate
  | classpath | types => .ok ()

end Field

/-- What an option means: a flag, or that a value follows. -/
inductive Switch where
  | verbose
  | help
  | version
  | value (field : Field)
  deriving Repr, DecidableEq, BEq

namespace Switch

/-- The options before the command or those of a command, with their names and letters. -/
def table : Option Command → List (Switch × String × Option Char)
  | none => [(verbose, "verbose", some 'v'), (help, "help", some 'h'),
      (version, "version", some 'V')]
  | some _ => [(verbose, "verbose", some 'v'), (help, "help", some 'h'),
      (value .classpath, "classpath", some 'c'), (value .config, "config", none),
      (value .out, "out", some 'o'), (value .template, "template", none)]

/-- The option of a name. -/
def ofName? (command : Option Command) (name : String) : Option Switch :=
  ((table command).find? fun row => row.2.1 == name).map Prod.fst

/-- The option of a letter. -/
def ofLetter? (command : Option Command) (letter : Char) : Option Switch :=
  ((table command).find? fun row => row.2.2 == some letter).map Prod.fst

end Switch

/-- What an argument looks like. -/
inductive Shape where
  /-- Two hyphens alone. -/
  | escape
  /-- A name, and perhaps a value, after two hyphens. -/
  | named (text : List Char)
  /-- Letters, and perhaps a value, after one hyphen. -/
  | lettered (text : List Char)
  | plain
  deriving Repr, DecidableEq, BEq

/-- What an argument looks like. A hyphen alone is a value. -/
def Shape.of (argument : String) : Shape :=
  match argument.toList with
  | ['-', '-'] => escape
  | '-' :: '-' :: text => named text
  | '-' :: c :: text => lettered (c :: text)
  | _ => plain

/-! ### Reading arguments -/

/-- A value that is not yet checked. -/
inductive Pending where
  | nothing
  /-- An option whose value has not come. -/
  | awaited (field : Field)
  | held (field : Field) (value : String)
  deriving Repr, DecidableEq, BEq

/-- The arguments read so far. -/
structure Draft where
  verbose : Bool := false
  /-- The checked values, in order. -/
  given : List (Field × String) := []
  pending : Pending := .nothing
  /-- Whether all arguments from here on are values. -/
  onlyValues : Bool := false
  deriving Repr, DecidableEq, BEq

namespace Draft

/-- The checked values of a field. -/
def values (d : Draft) (field : Field) : List String :=
  (d.given.filter fun entry => entry.1 == field).map Prod.snd

/-- Adds a value after checking it. -/
def add (d : Draft) (field : Field) (value : String) : Except UsageError Draft := do
  if !field.isRepeatable && !(d.values field).isEmpty then throw .repeated
  field.check value
  return { d with given := d.given ++ [(field, value)] }

/-- Checks the pending value. -/
def settle (d : Draft) : Except UsageError Draft :=
  match d.pending with
  | .nothing => .ok d
  | .awaited _ => .error .missingValue
  | .held field value => ({ d with pending := .nothing }).add field value

/-- Puts something into the place of the pending value. -/
def suspend (d : Draft) (pending : Pending) : Except UsageError Draft :=
  d.settle.map fun d => { d with pending := pending }

/-- Reads an option without a value of its own. -/
def raise (d : Draft) : Switch → Except UsageError Draft
  | .verbose => do
    let d ← d.settle
    if d.verbose then throw .repeated else return { d with verbose := true }
  | .help => do
    let _ ← d.settle
    throw .helpRequested
  | .version => do
    let _ ← d.settle
    throw .versionRequested
  | .value field => d.suspend (.awaited field)

/-- Reads a value that is attached to its option. -/
def attach (d : Draft) (field : Field) (value : List Char) : Except UsageError Draft := do
  (← d.settle).add field (String.ofList value)

/-- Reads an option given by its name. -/
def readNamed (command : Option Command) (d : Draft) (text : List Char) :
    Except UsageError Draft :=
  let (name, value) : List Char × Option (List Char) :=
    match Text.cutFirst (· == '=') text with
    | some (name, value) => (name, some value)
    | none => (text, none)
  match Switch.ofName? command (String.ofList name), value with
  | none, _ => .error .unknownArgument
  | some (.value field), some value => d.attach field value
  | some _, some _ => .error .unwantedValue
  | some switch, none => d.raise switch

/-- Reads options given by their letters. -/
def readLetters (command : Option Command) : List Char → Draft → Except UsageError Draft
  | [], d => .ok d
  | letter :: text, d =>
    match Switch.ofLetter? command letter, text with
    | none, _ => .error .unknownArgument
    | some (.value field), '=' :: value => d.attach field value
    | some (.value field), c :: value => d.attach field (c :: value)
    | some switch, _ => do readLetters command text (← d.raise switch)

/-- Whether a value stands where it belongs to a field, checked or not. -/
def mentions (d : Draft) (field : Field) : Bool :=
  !(d.values field).isEmpty ||
    match d.pending with
    | .held other _ => other == field
    | _ => false

/-- Reads what the command applies to: any number of types, or one directory. -/
def readTarget (command : Command) (d : Draft) (value : String) : Except UsageError Draft :=
  match command with
  | .reconstruct => d.suspend (.held .types value)
  | .scan =>
    if d.mentions .classes then .error .unknownArgument else d.suspend (.held .classes value)

/-- Reads an argument of a command. -/
def read (command : Command) (d : Draft) (argument : String) : Except UsageError Draft :=
  if d.onlyValues then d.readTarget command argument
  else
    match Shape.of argument, d.pending with
    | .escape, _ => .ok { d with onlyValues := true }
    | .named text, _ => d.readNamed (some command) text
    | .lettered text, _ => d.readLetters (some command) text
    | .plain, .awaited field => .ok { d with pending := .held field argument }
    | .plain, _ => d.readTarget command argument

/-- The options that the values stand for. -/
def options (d : Draft) : Options where
  classpath := d.values .classpath
  config := (d.values .config).head?
  out := (d.values .out).head?
  templates := (d.values .template).filterMap templateValue?

/-- What a command applies to. -/
def target (command : Command) (d : Draft) : Except UsageError Target :=
  match command with
  | .reconstruct =>
    if (d.values .types).isEmpty then .error .missingArgument else .ok (.types (d.values .types))
  | .scan =>
    match (d.values .classes).head? with
    | some directory => .ok (.classes directory)
    | none => .error .missingArgument

end Draft

namespace Invocation

/-- What a command with its arguments asks for. -/
def ofCommand (command : Command) (verbose : Bool) (arguments : List String) :
    Except UsageError Invocation := do
  let d ← (← arguments.foldlM (Draft.read command) {}).settle
  return { verbose := verbose || d.verbose, target := ← d.target command, options := d.options }

/-- Whether a word stands for a command, the one that shows help included. -/
def isCommandWord (word : String) : Bool := word == "help" || (Command.ofName? word).isSome

/-- The answer to the command that shows help on at most one command. -/
def helpOn : List String → UsageError
  | [] => .helpRequested
  | [word] => if isCommandWord word then .helpRequested else .unknownCommand
  | _ => .unknownCommand

/-- What arguments ask for after the options that come before the command. -/
def ofArgumentsAfter : Draft → List String → Except UsageError Invocation
  | d, [] => .error (if d.verbose then .noCommand else .nothingGiven)
  | d, word :: arguments =>
    if d.onlyValues then
      .error (if isCommandWord word then .unknownArgument else .unknownCommand)
    else if word = "help" then .error (helpOn arguments)
    else
      match Command.ofName? word with
      | some command => ofCommand command d.verbose arguments
      | none =>
        match Shape.of word with
        | .escape => ofArgumentsAfter { d with onlyValues := true } arguments
        | .named text => do ofArgumentsAfter (← d.readNamed none text) arguments
        | .lettered text => do ofArgumentsAfter (← d.readLetters none text) arguments
        | .plain => .error .unknownCommand

/-- What a command line asks for. -/
def ofArguments (arguments : List String) : Except UsageError Invocation :=
  ofArgumentsAfter {} arguments

end Invocation

end ClassSketch
