import Unnest.Command.Count

/-!
# Command-line options

The arguments of the command. Each argument is first sorted by its form alone (`ArgForm.ofText`);
then the forms are carried out one after the other, where a value that does not stand in the same
argument is the next one. After `--` all arguments are input files.

* `Options.ofArgs`: the options that arguments stand for, and the first error in them;
* `Options.useColor`: whether reports are coloured.
-/

namespace Unnest

/-- The forms of the report on a run. -/
inductive MetricsFormat
  | text
  | json
deriving DecidableEq, Repr

/-- When reports are coloured: when the environment asks for it, always or never. -/
inductive ColorMode
  | auto
  | always
  | never
deriving DecidableEq, Repr

/-- What the command is asked to do. -/
structure Options where
  /-- The source files. -/
  inputs : List Text := []
  /-- The header to write, `-` for the standard output, empty when it follows from the input. -/
  output : Text := []
  /-- The directory for the headers, empty when they go beside their sources. -/
  outDir : Text := []
  /-- How many files may be converted at a time. -/
  jobs : Nat := 1
  keepGoing : Bool := false
  /-- Further types that may be extended without an import. -/
  knownTypes : List Text := []
  help : Bool := false
  metrics : Bool := false
  metricsFormat : MetricsFormat := .text
  /-- Whether the declarations found are printed. -/
  dumpAst : Bool := false
  /-- Whether the tokens found are printed. -/
  logTokens : Bool := false
  color : ColorMode := .auto
deriving DecidableEq, Repr

/-! ### Options with a value -/

/-- The options that have a value. -/
inductive ValueOption
  | output
  | outDir
  | knownType
  | jobs
deriving DecidableEq, Repr

namespace ValueOption

/-- How an option is written. -/
def spelling : ValueOption → Text
  | output => lit "-o"
  | outDir => lit "--out-dir"
  | knownType => lit "--known-type"
  | jobs => lit "-j"

/-- Whether an option is written with two dashes. Its value then follows an equals sign. -/
def isLong : ValueOption → Bool
  | output | jobs => false
  | outDir | knownType => true

def valueName : ValueOption → Text
  | output => lit "filename"
  | outDir => lit "directory"
  | knownType => lit "type name"
  | jobs => lit "job count"

/-- All options with a value, in the order in which an argument is compared with them. -/
def all : List ValueOption := [output, outDir, knownType, jobs]

end ValueOption

/-! ### Errors -/

/-- What can be wrong with the arguments. -/
inductive UsageError
  | missingValue (option : ValueOption)
  | emptyTypeName
  | badJobs (value : Text) (problem : Count.Problem)
  | unknownFormat (value : Text)
  | unknownColor (value : Text)
  | unknownOption (arg : Text)
  | standardInput
  | noInput
  | severalInputs
  | outputAndDir
deriving DecidableEq, Repr

def UsageError.message : UsageError → Text
  | missingValue option =>
    lit "missing " ++ option.valueName ++ lit " after '" ++ option.spelling ++ lit "'"
  | emptyTypeName => lit "empty type name after '--known-type'"
  | badJobs value problem => lit "invalid job count '" ++ value ++ lit "': " ++ problem.message
  | unknownFormat value =>
    lit "unknown metrics format '" ++ value ++ lit "' (expected json or text)"
  | unknownColor value =>
    lit "unknown color mode '" ++ value ++ lit "' (expected auto, always or never)"
  | unknownOption arg => lit "unknown option '" ++ arg ++ lit "'"
  | standardInput => lit "reading source from stdin is not supported"
  | noInput => lit "no input files"
  | severalInputs => lit "cannot specify -o with multiple input files"
  | outputAndDir => lit "-o and --out-dir are mutually exclusive"

/-! ### The form of an argument -/

/-- What an argument is by its form. -/
inductive ArgForm
  | help
  | metrics (format : Option Text)
  | color (mode : Option Text)
  /-- An option with the value that stands in the same argument, if one does. -/
  | value (option : ValueOption) (attached : Option Text)
  | keepGoing
  | dumpAst
  | logTokens
  | endOfOptions
  | unknown
  | standardInput
  | input
  | empty
deriving DecidableEq, Repr

/-- What follows `front` in `s`, if `s` begins with it. -/
def Text.dropFront? (front s : Text) : Option Text :=
  if front.isPrefixOf s then some (s.drop front.length) else none

/-- What an argument says about an option: the argument is the option alone, or the option with the
text behind it. -/
def ValueOption.attached? (option : ValueOption) (arg : Text) : Option (Option Text) :=
  match Text.dropFront? option.spelling arg with
  | none => none
  | some [] => some none
  | some (b :: bs) =>
    if !option.isLong then some (some (b :: bs))
    else if b == chr '=' then some (some bs) else none

/-- The option with a value that an argument stands for. -/
def ArgForm.ofValueOption? (arg : Text) : Option ArgForm :=
  ValueOption.all.findSome? fun option => (option.attached? arg).map (.value option)

/-- An argument that is one of the words without a value, or none of the options at all. -/
def ArgForm.ofWord (arg : Text) : ArgForm :=
  if arg == lit "--keep-going" || arg == lit "-k" then .keepGoing
  else if arg == lit "--dump-ast" then .dumpAst
  else if arg == lit "--log-tokens" then .logTokens
  else if arg == lit "--" then .endOfOptions
  else if arg == lit "-" then .standardInput
  else match arg with
    | [] => .empty
    | b :: _ => if b == chr '-' then .unknown else .input

def ArgForm.ofText (arg : Text) : ArgForm :=
  if arg == lit "-h" || arg == lit "--help" then .help
  else if arg == lit "--metrics" then .metrics none
  else match Text.dropFront? (lit "--metrics=") arg with
    | some format => .metrics (some format)
    | none =>
      if arg == lit "--color" then .color none
      else match Text.dropFront? (lit "--color=") arg with
        | some mode => .color (some mode)
        | none => (ArgForm.ofValueOption? arg).getD (ArgForm.ofWord arg)

/-! ### Carrying out the forms -/

/-- The form of report that a word stands for. -/
def MetricsFormat.ofText? (s : Text) : Option MetricsFormat :=
  if s == lit "json" then some .json else if s == lit "text" then some .text else none

/-- The mode that a word stands for. -/
def ColorMode.ofText? (s : Text) : Option ColorMode :=
  if s == lit "auto" then some .auto
  else if s == lit "always" then some .always
  else if s == lit "never" then some .never
  else none

namespace Options

def setValue (o : Options) (option : ValueOption) (value : Text) : Except UsageError Options :=
  match option with
  | .output => .ok { o with output := value }
  | .outDir => .ok { o with outDir := value }
  | .knownType =>
    if value.isEmpty then .error .emptyTypeName
    else .ok { o with knownTypes := o.knownTypes ++ [value] }
  | .jobs =>
    match Count.ofText value with
    | .ok jobs => .ok { o with jobs }
    | .error problem => .error (.badJobs value problem)

/-- Carries out an argument that stands on its own. -/
def setForm (o : Options) (arg : Text) : ArgForm → Except UsageError Options
  | .help => .ok { o with help := true }
  | .metrics none => .ok { o with metrics := true, metricsFormat := .text }
  | .metrics (some format) =>
    match MetricsFormat.ofText? format with
    | some metricsFormat => .ok { o with metrics := true, metricsFormat }
    | none => .error (.unknownFormat format)
  | .color none => .ok { o with color := .always }
  | .color (some mode) =>
    match ColorMode.ofText? mode with
    | some color => .ok { o with color }
    | none => .error (.unknownColor mode)
  | .value option attached => o.setValue option (attached.getD [])
  | .keepGoing => .ok { o with keepGoing := true }
  | .dumpAst => .ok { o with dumpAst := true }
  | .logTokens => .ok { o with logTokens := true }
  | .unknown => .error (.unknownOption arg)
  | .standardInput => .error .standardInput
  | .input => .ok { o with inputs := o.inputs ++ [arg] }
  | .endOfOptions | .empty => .ok o

/-- Takes all arguments for input files, empty ones apart. -/
def addInputs (o : Options) (args : List Text) : Options :=
  { o with inputs := o.inputs ++ args.filter (!·.isEmpty) }

/-- Carries out arguments in order. With an error come the options set in front of it. -/
def readArgs (o : Options) : List Text → Options × Option UsageError
  | [] => (o, none)
  | arg :: rest =>
    match ArgForm.ofText arg, rest with
    | .endOfOptions, rest => (o.addInputs rest, none)
    | .value option none, [] => (o, some (.missingValue option))
    | .value option none, value :: rest =>
      match o.setValue option value with
      | .ok o => o.readArgs rest
      | .error e => (o, some e)
    | form, rest =>
      match o.setForm arg form with
      | .ok o => o.readArgs rest
      | .error e => (o, some e)

/-- What is wrong with options as a whole. A call for help is never wrong. -/
def problem? (o : Options) : Option UsageError :=
  if o.help then none
  else if o.inputs.isEmpty then some .noInput
  else if !o.output.isEmpty && 1 < o.inputs.length then some .severalInputs
  else if !o.output.isEmpty && !o.outDir.isEmpty then some .outputAndDir
  else none

/-- The options that arguments stand for, and the first error in them. -/
def ofArgs (args : List Text) : Options × Option UsageError :=
  match readArgs {} args with
  | (o, some e) => (o, some e)
  | (o, none) => (o, o.problem?)

end Options

/-! ### Colours -/

/-- Whether two texts differ at most in the case of letters. -/
def Text.sameWord (s t : Text) : Bool := s.map toLower == t.map toLower

/-- Whether the environment asks for colours: by `1`, or by `true` or `yes` in any case. -/
def asksForColor (env : Option Text) : Bool :=
  env.any fun value =>
    value == lit "1" || Text.sameWord value (lit "true") || Text.sameWord value (lit "yes")

/-- Whether reports are coloured. -/
def ColorMode.isOn (mode : ColorMode) (env : Option Text) : Bool :=
  match mode with
  | .always => true
  | .never => false
  | .auto => asksForColor env

end Unnest
