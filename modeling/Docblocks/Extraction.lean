/-
# Docblocks.Extraction — one run, from settings to documents.

Settings can be loaded from a file.  A run scans its patterns, gathers the blocks of every source in the order of the scan, and writes the
documents.  Nothing is written before all sources have been read.  The outcome tells what was matched,
read, written and skipped, and says so in messages.
-/
import Docblocks.Error

namespace Docblocks

/-- Reads a settings file, which has to be UTF-8 text. -/
def Settings.load (t : Tree) (path : Text) : Except Error Settings :=
  match t.read path with
  | .error cause => .error (.file ⟨path, cause⟩)
  | .ok bytes =>
    match Text.Utf8.decode? bytes with
    | none => .error (.file ⟨path, .notText⟩)
    | some s =>
      match Settings.read s with
      | .error fault => .error (.content fault)
      | .ok settings => .ok settings

/-- How a message is meant. -/
inductive Level
  | info
  | success
  | warning
  | error
  deriving DecidableEq, Repr

/-- Something to tell the user. -/
structure Message where
  level : Level
  text : Text
  deriving DecidableEq, Repr

/-- What a run did. -/
structure Outcome where
  matched : Nat
  processed : List Text
  written : List Text
  skipped : List Text
  messages : List Message
  deriving DecidableEq, Repr

namespace Message

/-- A number in decimal. -/
def count (n : Nat) : Text :=
  Nat.toDigits 10 n

/-- A count is the decimal numeral of its number. -/
theorem count_eq_repr (n : Nat) : count n = (Nat.repr n).toList := by
  rw [count, Nat.toList_repr]

/-- How many paths the patterns matched. -/
def matched (n : Nat) : Message :=
  ⟨.info, count n ++ " paths matched. Processing.".toList⟩

/-- A source was read. -/
def processed (path : Text) : Message :=
  ⟨.info, "Processed: ".toList ++ path⟩

/-- A target was left alone. -/
def skipped (target : Text) : Message :=
  ⟨.warning, target ++ " already exists, not overwriting".toList⟩

/-- A document was written. -/
def written (target : Text) : Message :=
  ⟨.success, "Wrote: ".toList ++ target⟩

/-- How many documents were written and skipped. -/
def summary (written skipped : Nat) : Message :=
  ⟨.info, "Wrote ".toList ++ count written ++ " file(s), skipped ".toList ++ count skipped ++ ['.']⟩

end Message

namespace Extraction

/-- Reads the sources one after the other into a store. -/
def gather (t : Tree) (m : Markers) : Store → List Text → Except Refusal Store
  | s, [] => .ok s
  | s, path :: rest =>
    match t.read path with
    | .error cause => .error ⟨path, cause⟩
    | .ok bytes => gather t m (s.absorb m (Text.Utf8.decodeLossy bytes)) rest

/-- The outcome of a run, with its messages. -/
def outcome (scan : Scan) (report : Report) : Outcome where
  matched := scan.matched
  processed := scan.files
  written := report.written
  skipped := report.skipped
  messages :=
    Message.matched scan.matched :: scan.files.map Message.processed ++
      report.skipped.map Message.skipped ++ report.written.map Message.written ++
      [Message.summary report.written.length report.skipped.length]

/-- Runs with settings that are taken as they are. -/
def run (s : Settings) (t : Tree) : Except Error Outcome × Tree :=
  match Scan.ofTexts t s.patterns with
  | .error fault => (.error (.ofScan fault), t)
  | .ok scan =>
    match gather t s.markers {} scan.files with
    | .error refusal => (.error (.file refusal), t)
    | .ok store =>
      match store.write s.output s.extension t with
      | (.error refusal, t') => (.error (.file refusal), t')
      | (.ok report, t') => (.ok (outcome scan report), t')

/-- Runs with settings that are checked first. -/
def runChecked (s : Settings) (t : Tree) : Except Error Outcome × Tree :=
  match s.lack? with
  | some lack => (.error (.settings lack), t)
  | none => run s t

end Extraction

end Docblocks
