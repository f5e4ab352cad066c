import SchemaTypes.Command.Report
import SchemaTypes.Command.Request
import SchemaTypes.Files.Compile

/-!
# Running a command line

A command line is run on a host.  It ends with a status, the lines it prints,
and the failure that stopped it, if one did.  The status is 0 for success, 1
for a cause, 2 for arguments that are not understood and 101 for a fault.

The configuration is read first, and nothing is printed if that fails.
`compile` prints its header before the model is read.
-/

namespace SchemaTypes

/-- How a run of the command line ended. -/
structure Ending where
  /-- The exit status. -/
  status : UInt8
  /-- What was printed. -/
  lines : List String
  /-- What stopped it. -/
  failure : Option Failure := none
deriving DecidableEq, Repr

namespace Ending

/-- The status of a failure. -/
def statusOf : Failure → UInt8
  | .cause _ => 1
  | .fault _ => 101

/-- The ending of a run that was stopped. -/
def stopped (lines : List String) (f : Failure) : Ending := ⟨statusOf f, lines, some f⟩

/-- The lines of a run whose model has no output.  A fault ends it without a
closing line. -/
def failedLines (before : List String) : Failure → List String
  | .cause _ => before ++ Report.failed
  | .fault _ => before

/-- The ending of a run whose model has no output. -/
def failed (before : List String) (f : Failure) : Ending := stopped (failedLines before f) f

end Ending

section OnHost

variable {m : Type → Type} [Monad m] [Host m]

/-- The configuration that the options of the command line lead to. -/
def Options.configuration (o : Options) : ExceptT Failure m Config := do
  match o.config with
  | some path => pure (o.override (← Config.load path))
  | none => pure (o.override {})

/-- Compiles a model under a configuration, writes the output and reports. -/
def runCompile (model : String) (c : Config) : m Ending := do
  let begun ← Host.milliseconds
  match ← (checkFile c model).run with
  | .error f => pure (.failed Report.header f)
  | .ok output =>
      match ← (output.writeTo c.outputDirectory).run with
      | .error f => pure (.stopped Report.header f)
      | .ok () =>
          let done ← Host.milliseconds
          let written := (output.writes c.outputDirectory).length
          pure ⟨0, Report.header ++
            Report.compiled output written c.outputDirectory (done - begun), none⟩

/-- Compiles a model under a configuration and reports. -/
def runCheck (model : String) (c : Config) : m Ending := do
  match ← (checkFile c model).run with
  | .error f => pure (.failed [] f)
  | .ok output => pure ⟨0, Report.checked output, none⟩

/-- Goes on with the configuration of a command line. -/
def Options.andThen (o : Options) (next : Config → m Ending) : m Ending := do
  match ← o.configuration.run with
  | .error f => pure (.stopped [] f)
  | .ok c => next c

/-- Runs a request. -/
def Request.run : Request → m Ending
  | .compile model options => options.andThen (runCompile model)
  | .check model options => options.andThen (runCheck model)
  | .version => pure ⟨0, Report.versionLines, none⟩
  | .help => pure ⟨0, Report.helpLines, none⟩

/-- Runs a command line. -/
def runArguments (arguments : List String) : m Ending :=
  match Request.parse? arguments with
  | some request => request.run
  | none => pure ⟨2, [], none⟩

end OnHost

end SchemaTypes
