import SchemaTypes.Config

/-!
# What a command line asks for

A command line names a command, `compile` or `check`, and then a model file
and options.  Options may come before, between and after the rest.

* A long option is written `--name value` or `--name=value`.
* A short one is written `-c value`, `-cvalue` or `-c=value`.
* A value that stands on its own may not start with `-`, unless it is `-`.
* `--` ends the options.  What follows are plain words.
* No option is given twice in one place.  The log level may be given once
  before the command and once after it.
* The word `help` in place of a command asks for help, on one command if its
  name follows.

`Request.parse?` reads the arguments from left to right.  It stops at the first
one that asks for help or for the version, and at the first one that it does
not understand.
-/

namespace SchemaTypes

/-! ## Options -/

/-- An option of the command line. -/
inductive Flag
  | config
  | inlineMode
  | optionalProperties
  | stringNumbers
  | entitiesProxy
  | output
  | logLevel
  | help
  | version
deriving DecidableEq, Repr

namespace Flag

/-- The long name. -/
def name : Flag → String
  | .config => "config"
  | .inlineMode => "inline-declarations"
  | .optionalProperties => "properties-optional"
  | .stringNumbers => "ieee754-compatible"
  | .entitiesProxy => "use-entities-proxy"
  | .output => "output"
  | .logLevel => "log-level"
  | .help => "help"
  | .version => "version"

/-- The short name. -/
def letter? : Flag → Option Char
  | .config => some 'c'
  | .output => some 'o'
  | .help => some 'h'
  | .version => some 'V'
  | _ => none

/-- Whether the option comes with a value. -/
def takesValue : Flag → Bool
  | .stringNumbers | .entitiesProxy | .help | .version => false
  | _ => true

end Flag

/-- Where an option stands: before the command or after it. -/
inductive Level
  | top
  | compile
  | check
deriving DecidableEq, Repr

namespace Level

/-- The options of both commands. -/
def modelFlags : List Flag :=
  [.config, .inlineMode, .optionalProperties, .stringNumbers, .entitiesProxy, .logLevel, .help]

/-- The options that may be given. -/
def flags : Level → List Flag
  | .top => [.logLevel, .help, .version]
  | .compile => .output :: modelFlags
  | .check => modelFlags

/-- The option of a long name. -/
def named? (level : Level) (name : String) : Option Flag := level.flags.find? (·.name == name)

/-- The option of a short name. -/
def lettered? (level : Level) (letter : Char) : Option Flag :=
  level.flags.find? (·.letter? == some letter)

end Level

/-- The values of the options that were given. -/
structure Options where
  /-- The configuration file. -/
  config : Option String := none
  /-- How anonymous structures are declared. -/
  inlineMode : Option InlineMode := none
  /-- Whether properties are optional. -/
  optionalProperties : Option Bool := none
  /-- Whether 64-bit integers and decimals also accept strings. -/
  stringNumbers : Bool := false
  /-- Whether the runtime binds entities through a proxy. -/
  entitiesProxy : Bool := false
  /-- The output directory. -/
  output : Option String := none
  /-- How much is logged. -/
  logLevel : Option String := none
deriving DecidableEq, Repr

namespace Options

/-- A path, which may not be empty. -/
def path? (text : String) : Option String := if text == "" then none else some text

/-- A truth value. -/
def truth? (text : String) : Option Bool :=
  if text == "true" then some true else if text == "false" then some false else none

/-- Fills in a value that was not given before. -/
def once {α : Type} (given : Option α) (value : Option α) : Option (Option α) :=
  match given, value with
  | none, some a => some (some a)
  | _, _ => none

/-- Sets an option that takes a value.  Fails if it was given before or the
value is none of its values. -/
def set? (o : Options) (value : String) : Flag → Option Options
  | .config => (once o.config (path? value)).map fun v => { o with config := v }
  | .inlineMode =>
      (once o.inlineMode (InlineMode.parse? value)).map fun v => { o with inlineMode := v }
  | .optionalProperties =>
      (once o.optionalProperties (truth? value)).map fun v => { o with optionalProperties := v }
  | .output => (once o.output (path? value)).map fun v => { o with output := v }
  | .logLevel => (once o.logLevel (some value)).map fun v => { o with logLevel := v }
  | _ => none

/-- Sets an option without a value.  Fails if it was given before. -/
def raise? (o : Options) : Flag → Option Options
  | .stringNumbers => if o.stringNumbers then none else some { o with stringNumbers := true }
  | .entitiesProxy => if o.entitiesProxy then none else some { o with entitiesProxy := true }
  | _ => none

/-- A configuration with the options given on the command line.  They go before
those of the configuration, and what either of them switches on is on. -/
def override (o : Options) (c : Config) : Config where
  outputDirectory := o.output.getD c.outputDirectory
  inlineMode := o.inlineMode.getD c.inlineMode
  optionalProperties := o.optionalProperties.getD c.optionalProperties
  stringNumbers := c.stringNumbers || o.stringNumbers
  entitiesProxy := c.entitiesProxy || o.entitiesProxy

end Options

/-! ## Arguments -/

/-- What an argument looks like. -/
inductive Argument
  /-- `--`. -/
  | separator
  /-- `--name` or `--name=value`. -/
  | long (name : String) (value : Option String)
  /-- `-` and letters. -/
  | short (letters : List Char)
  /-- Anything else. -/
  | word (text : String)
deriving DecidableEq, Repr

/-- The text before the first `=` and the text after it, if there is one. -/
def Argument.splitValue : List Char → List Char × Option (List Char)
  | [] => ([], none)
  | c :: rest =>
      if c = '=' then ([], some rest)
      else
        let (name, value) := splitValue rest
        (c :: name, value)

/-- What an argument looks like. -/
def Argument.ofText (text : String) : Argument :=
  match text.toList with
  | ['-', '-'] => .separator
  | '-' :: '-' :: rest =>
      let (name, value) := splitValue rest
      .long (String.ofList name) (value.map String.ofList)
  | '-' :: c :: rest => .short (c :: rest)
  | _ => .word text

/-- Why reading ends before the last argument. -/
inductive EarlyEnd
  /-- The version is asked for. -/
  | version
  /-- Help is asked for. -/
  | help
  /-- An argument has no meaning where it stands. -/
  | refused
deriving DecidableEq, Repr

/-- What was read so far. -/
structure Reading where
  /-- The options. -/
  options : Options := {}
  /-- An option whose value is the next argument. -/
  pending : Option Flag := none
  /-- The model file. -/
  model : Option String := none
deriving DecidableEq, Repr

namespace Reading

/-- A reading, or a refusal where there is none. -/
def orRefuse {α : Type} : Option α → Except EarlyEnd α
  | some a => .ok a
  | none => .error .refused

/-- Takes the value of an option. -/
def take (r : Reading) (flag : Flag) (value : String) : Except EarlyEnd Reading :=
  orRefuse ((r.options.set? value flag).map fun o => { r with options := o, pending := none })

/-- Takes an option without a value. -/
def raise (r : Reading) : Flag → Except EarlyEnd Reading
  | .help => .error .help
  | .version => .error .version
  | flag => orRefuse ((r.options.raise? flag).map fun o => { r with options := o })

/-- Takes an option and the value attached to it, if any. -/
def option (r : Reading) (flag : Flag) (attached : Option String) : Except EarlyEnd Reading :=
  if r.pending.isSome then .error .refused
  else
    match flag.takesValue, attached with
    | true, some value => r.take flag value
    | true, none => .ok { r with pending := some flag }
    | false, none => r.raise flag
    | false, some _ => .error .refused

/-- The value attached to a short option: the letters behind it, without an
equals sign at their start. -/
def attached : List Char → Option String
  | [] => none
  | '=' :: value => some (String.ofList value)
  | value => some (String.ofList value)

/-- Takes short options.  The first that comes with a value takes the rest. -/
def letters (level : Level) : Reading → List Char → Except EarlyEnd Reading
  | r, [] => .ok r
  | r, c :: rest => do
      let flag ← orRefuse (level.lettered? c)
      if flag.takesValue then r.option flag (attached rest)
      else letters level (← r.option flag none) rest

/-- Takes the model file. -/
def word (r : Reading) (text : String) : Except EarlyEnd Reading :=
  if r.pending.isSome then .error .refused
  else orRefuse ((Options.once r.model (Options.path? text)).map fun v => { r with model := v })

/-- Takes plain words only. -/
def words : Reading → List String → Except EarlyEnd Reading
  | r, [] => .ok r
  | r, text :: rest => do words (← r.word text) rest

/-- Takes the arguments after a command. -/
def arguments (level : Level) : Reading → List String → Except EarlyEnd Reading
  | r, [] => .ok r
  | r, text :: rest => do
      match Argument.ofText text with
      | .separator => r.words rest
      | .long name value =>
          let flag ← orRefuse (level.named? name)
          arguments level (← r.option flag value) rest
      | .short letters => arguments level (← r.letters level letters) rest
      | .word text =>
          match r.pending with
          | some flag => arguments level (← r.take flag text) rest
          | none => arguments level (← r.word text) rest

end Reading

/-! ## Requests -/

/-- What the command line is asked to do. -/
inductive Request
  /-- Compiles a model and writes the output. -/
  | compile (model : String) (options : Options)
  /-- Compiles a model and writes nothing. -/
  | check (model : String) (options : Options)
  /-- Shows the version. -/
  | version
  /-- Shows help. -/
  | help
deriving DecidableEq, Repr

namespace Request

/-- The model file and the options that the arguments after a command give. -/
def readModel (level : Level) (arguments : List String) : Except EarlyEnd (String × Options) := do
  let r ← Reading.arguments level {} arguments
  if r.pending.isSome then .error .refused
  else
    let model ← Reading.orRefuse r.model
    pure (model, r.options)

/-- Whether there is help on what the arguments name: on everything, or on one
command. -/
def isHelpTopic : List String → Bool
  | [] => true
  | [name] => ["compile", "check", "help"].contains name
  | _ => false

/-- Reads the arguments up to the command and those after it. -/
def read : Reading → List String → Except EarlyEnd Request
  | _, [] => .error .refused
  | r, text :: rest => do
      match Argument.ofText text with
      | .separator => .error .refused
      | .long name value =>
          let flag ← Reading.orRefuse (Level.top.named? name)
          read (← r.option flag value) rest
      | .short letters => read (← r.letters .top letters) rest
      | .word text =>
          match r.pending with
          | some flag => read (← r.take flag text) rest
          | none =>
              if text == "compile" then
                let (model, options) ← readModel .compile rest
                pure (.compile model options)
              else if text == "check" then
                let (model, options) ← readModel .check rest
                pure (.check model options)
              else if text == "help" && isHelpTopic rest then .error .help
              else .error .refused

/-- What a command line asks for, if it is understood. -/
def parse? (arguments : List String) : Option Request :=
  match read {} arguments with
  | .ok request => some request
  | .error .version => some .version
  | .error .help => some .help
  | .error .refused => none

end Request

end SchemaTypes
