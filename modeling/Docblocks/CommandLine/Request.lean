/-
# Docblocks.CommandLine.Request — what a command line asks for.

Arguments are read from the left.  An option that needs a value is held back until its values are
complete: it is settled when the next option starts, or at the end.  An argument that fits nowhere is
reported at once, before the option that is held back.  Asking for help or for the version ends the
reading as soon as everything before it is settled.
-/
import Docblocks.CommandLine.Flag
import Docblocks.Settings
import Docblocks.Terminal.Style

namespace Docblocks.CommandLine

open Terminal (Style)

/-! ## Faults -/

/-- Why arguments cannot be understood. -/
inductive Fault
  /-- Options that are needed are not there. -/
  | missing (flags : List Flag)
  /-- An option has no value. -/
  | noValue (flag : Flag)
  /-- An option is given twice. -/
  | repeated (flag : Flag)
  /-- An argument fits nowhere. -/
  | unexpected (argument : Text)
  /-- An option that takes nothing has a value. -/
  | valued (flag : Flag) (value : Text)
  deriving DecidableEq, Repr

/-- A fault in words: what is wrong stands out, and so does what would be right. -/
def Fault.message : Fault → Text
  | .missing flags =>
    "the following required arguments were not provided:".toList ++
      flags.flatMap fun f => "\n  ".toList ++ Style.green.apply f.shown
  | .noValue flag =>
    "a value is required for '".toList ++ Style.yellow.apply flag.shown ++
      "' but none was supplied".toList
  | .repeated flag =>
    "the argument '".toList ++ Style.yellow.apply flag.shown ++
      "' cannot be used multiple times".toList
  | .unexpected argument =>
    "unexpected argument '".toList ++ Style.yellow.apply argument ++ "' found".toList
  | .valued flag value =>
    "unexpected value '".toList ++ Style.yellow.apply value ++ "' for '".toList ++
      Style.bold.apply flag.shown ++ "' found; no more were expected".toList

/-! ## What is given -/

/-- The options that are given, with their values. -/
structure Given where
  output? : Option Text := none
  patterns : List Text := []
  opening? : Option Text := none
  closing? : Option Text := none
  line? : Option Text := none
  strip? : Option Text := none
  extension? : Option Text := none
  unslash : Bool := false
  settings? : Option Text := none
  deriving DecidableEq, Repr

namespace Given

/-- Whether an option that may come once is given. -/
def has (g : Given) : Flag → Bool
  | .output => g.output?.isSome
  | .opening => g.opening?.isSome
  | .closing => g.closing?.isSome
  | .line => g.line?.isSome
  | .strip => g.strip?.isSome
  | .extension => g.extension?.isSome
  | .unslash => g.unslash
  | .settings => g.settings?.isSome
  | .pattern | .help | .version => false

/-- Puts in the value of an option. -/
def put (g : Given) (value : Text) : Flag → Given
  | .output => { g with output? := some value }
  | .pattern => { g with patterns := g.patterns ++ [value] }
  | .opening => { g with opening? := some value }
  | .closing => { g with closing? := some value }
  | .line => { g with line? := some value }
  | .strip => { g with strip? := some value }
  | .extension => { g with extension? := some value }
  | .unslash => { g with unslash := true }
  | .settings => { g with settings? := some value }
  | .help | .version => g

/-- Records an option with its values: there has to be one, an option that may come once must not be
there yet, and a path must not be empty. -/
def record (g : Given) (flag : Flag) (values : List Text) : Except Fault Given :=
  if values.isEmpty then .error (.noValue flag)
  else if g.has flag then .error (.repeated flag)
  else if flag.namesPath && values.contains [] then .error (.noValue flag)
  else .ok (values.foldl (fun g value => g.put value flag) g)

/-- The needed options that are not there; a settings file replaces them. -/
def lacking (g : Given) : List Flag :=
  if g.settings?.isSome then []
  else
    (if g.output?.isNone then [.output] else []) ++ if g.patterns.isEmpty then [.pattern] else []

/-- Settings with the given options laid over them.  Patterns replace the whole list, and the switch
can only be turned on. -/
def overlay (g : Given) (s : Settings) : Settings where
  patterns := if g.patterns.isEmpty then s.patterns else g.patterns
  output := g.output?.getD s.output
  markers :=
    { opening := g.opening?.getD s.markers.opening
      closing := g.closing?.getD s.markers.closing
      line := g.line?.getD s.markers.line
      strip := g.strip?.getD s.markers.strip
      unslash := s.markers.unslash || g.unslash }
  extension := g.extension?.getD s.extension

end Given

/-! ## Reading -/

/-- What ends the reading of arguments early. -/
inductive Halt
  | help
  | version
  | fault (fault : Fault)
  deriving DecidableEq, Repr

/-- How far the reading has come. -/
structure State where
  given : Given := {}
  /-- The option that is held back, and its values so far. -/
  held : Option (Flag × List Text) := none
  /-- Whether the option held back takes the next word. -/
  taking : Bool := false
  /-- Whether `--` has been passed, after which no argument fits. -/
  closed : Bool := false
  deriving DecidableEq, Repr

namespace State

/-- Records the option that is held back. -/
def settle (st : State) : Except Halt Given :=
  match st.held with
  | none => .ok st.given
  | some (flag, values) =>
    match st.given.record flag values with
    | .ok given => .ok given
    | .error fault => .error (.fault fault)

/-- Settles, and records an option whose value is attached to it. -/
def attach (st : State) (flag : Flag) (value : Text) : Except Halt State := do
  let given ← st.settle
  match given.record flag [value] with
  | .ok given => return { given }
  | .error fault => throw (.fault fault)

/-- Settles, and holds back an option whose values are to come. -/
def hold (st : State) (flag : Flag) : Except Halt State := do
  return { given := ← st.settle, held := some (flag, []), taking := true }

/-- Settles, and acts on an option that takes nothing. -/
def act (st : State) (flag : Flag) : Except Halt State := do
  let given ← st.settle
  match flag with
  | .help => throw .help
  | .version => throw .version
  | flag =>
    match given.record flag [[]] with
    | .ok given => return { given }
    | .error fault => throw (.fault fault)

/-- A word that is no option: a value of the option that is held back, or out of place. -/
def word (st : State) (argument : Text) : Except Halt State :=
  match st.taking, st.held with
  | true, some (flag, values) =>
    .ok { st with
      held := some (flag, values ++ [argument])
      taking := flag.takes = .values }
  | _, _ => .error (.fault (.unexpected argument))

/-- An option by its long name, with or without `=` and a value. -/
def long (st : State) (s : Text) : Except Halt State :=
  let name := s.takeWhile (· != '=')
  let value? := (s.dropWhile (· != '=')).tail?
  match Flag.ofLong? name with
  | none => .error (.fault (.unexpected ('-' :: '-' :: name)))
  | some flag =>
    match flag.takes, value? with
    | .nothing, none => st.act flag
    | .nothing, some value => .error (.fault (.valued flag value))
    | _, some value => st.attach flag value
    | _, none => st.hold flag

/-- Letters after one hyphen: options that take nothing, and then perhaps one with a value, which is
the rest without one `=`. -/
def short (st : State) : Text → Except Halt State
  | [] => .ok st
  | c :: s =>
    match Flag.ofShort? c with
    | none => .error (.fault (.unexpected ['-', c]))
    | some flag =>
      match flag.takes, s with
      | .nothing, s => do short (← st.act flag) s
      | _, [] => st.hold flag
      | _, '=' :: value => st.attach flag value
      | _, value => st.attach flag value

/-- Whether the option that is held back takes the next argument whatever it looks like. -/
def takesAnything (st : State) : Bool :=
  match st.taking, st.held with
  | true, some (flag, _) => flag.takes = .anything
  | _, _ => false

/-- One argument. -/
def step (st : State) (argument : Text) : Except Halt State :=
  if st.closed then .error (.fault (.unexpected argument))
  else if st.takesAnything then st.word argument
  else
    match argument with
    | ['-', '-'] => .ok { st with closed := true }
    | '-' :: '-' :: s => st.long s
    | ['-'] => st.word ['-']
    | '-' :: s => st.short s
    | argument => st.word argument

end State

/-- What a command line asks for. -/
inductive Request
  | help
  | version
  | extract (given : Given)
  deriving DecidableEq, Repr

/-- Reads the arguments of a command line. -/
def Request.read (arguments : List Text) : Except Fault Request :=
  let finish : Except Halt Given := do
    let st ← arguments.foldlM State.step {}
    st.settle
  match finish with
  | .error .help => .ok .help
  | .error .version => .ok .version
  | .error (.fault fault) => .error fault
  | .ok given =>
    match given.lacking with
    | [] => .ok (.extract given)
    | flags => .error (.missing flags)

end Docblocks.CommandLine
