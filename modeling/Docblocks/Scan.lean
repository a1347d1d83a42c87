/-
# Docblocks.Scan — the sources of a run.

Patterns are expanded in turn.  Every match counts; the regular files among the matches are the
sources, and links are not, whatever they lead to.  A file that two patterns match is a source twice.
The first pattern that is faulty, or match that cannot be looked at, is the outcome of the scan.
-/
import Docblocks.Glob.Walk

namespace Docblocks

/-- What the patterns of a run match. -/
structure Scan where
  /-- How many paths were matched. -/
  matched : Nat := 0
  /-- The regular files among them, in order. -/
  files : List Text := []
  deriving DecidableEq, Repr

namespace Scan

/-- Why a scan fails. -/
inductive Fault
  /-- A pattern cannot be read. -/
  | pattern (fault : Glob.Fault)
  /-- A directory on the way cannot be read. -/
  | walk (refusal : Refusal)
  /-- A match cannot be looked at. -/
  | file (refusal : Refusal)
  deriving DecidableEq, Repr

/-- One scan after another. -/
def append (a b : Scan) : Scan :=
  ⟨a.matched + b.matched, a.files ++ b.files⟩

/-- The scan of one match, from its entry. -/
def ofEntry (path : Text) : Entry → Scan
  | .file _ => ⟨1, [path]⟩
  | _ => ⟨1, []⟩

/-- The scan of one result. -/
def ofFind (t : Tree) : Glob.Find → Except Fault Scan
  | .unreadable refusal => .error (.walk refusal)
  | .path path =>
    match t.look .entry path with
    | .error cause => .error (.file ⟨path, cause⟩)
    | .ok e => .ok (ofEntry path e)

/-- Does one scan after the other, up to the first that fails. -/
def inTurn {α : Type} (scan : α → Except Fault Scan) : List α → Except Fault Scan
  | [] => .ok {}
  | a :: rest =>
    match scan a with
    | .error fault => .error fault
    | .ok first =>
      match inTurn scan rest with
      | .error fault => .error fault
      | .ok others => .ok (first.append others)

/-- The scan of one pattern. -/
def ofText (t : Tree) (s : Text) : Except Fault Scan :=
  match Glob.Pattern.parse s with
  | .error fault => .error (.pattern fault)
  | .ok p => inTurn (ofFind t) (p.expand t)

/-- The scan of all patterns of a run. -/
def ofTexts (t : Tree) (patterns : List Text) : Except Fault Scan :=
  inTurn (ofText t) patterns

end Scan

end Docblocks
