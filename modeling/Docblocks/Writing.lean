/-
# Docblocks.Writing — documents become files.

The path of a document is cut at its last slash into a directory and a leaf.  The target puts the output
root in front and the extension behind, by plain concatenation: nothing is normalised, and a path without
a slash gets one.

Documents are written one after the other, in the order of their paths.  A target that leads to a
regular file is skipped and left alone.  For any other target the directory above it is made if
nothing is there, and the text is added to the file the target leads to.  The first refusal ends the
writing; what was done before it stays.
-/
import Docblocks.Store
import Docblocks.Tree.Access

namespace Docblocks

namespace Document

/-- The directory and the leaf of a path; a path without a slash has the empty directory. -/
def split (path : Text) : Text × Text :=
  (Text.cutLast? '/' path).getD ([], path)

/-- The file of a path's document under an output root. -/
def target (root extension path : Text) : Text :=
  root ++ (split path).1 ++ ['/'] ++ (split path).2 ++ extension

end Document

/-- The targets that were written and those that were skipped, each in the order of writing. -/
structure Report where
  written : List Text := []
  skipped : List Text := []
  deriving DecidableEq, Repr

/-- What became of one document. -/
inductive Fate
  | written
  | skipped
  deriving DecidableEq, Repr

/-- The report of one document put before that of the following ones. -/
def Report.cons (fate : Fate) (target : Text) (r : Report) : Report :=
  match fate with
  | .written => { r with written := target :: r.written }
  | .skipped => { r with skipped := target :: r.skipped }

namespace Writing

/-- Makes the directory above a target, unless its path is empty or leads to something. -/
def shelter (t : Tree) (target : Text) : Except Refusal Unit × Tree :=
  match Path.parent? target with
  | none => (.ok (), t)
  | some parent =>
    if parent = [] ∨ t.leads parent then (.ok (), t)
    else
      match t.makeDirs parent with
      | (.ok (), t') => (.ok (), t')
      | (.error cause, t') => (.error ⟨parent, cause⟩, t')

/-- Writes one document, unless its target leads to a file. -/
def place (t : Tree) (target : Text) (bytes : List UInt8) : Except Refusal Fate × Tree :=
  if t.isFile target then (.ok .skipped, t)
  else
    match shelter t target with
    | (.error refusal, t') => (.error refusal, t')
    | (.ok (), t') =>
      match t'.append target bytes with
      | .error cause => (.error ⟨target, cause⟩, t')
      | .ok t'' => (.ok .written, t'')

/-- Writes documents, given as targets and bytes, up to the first refusal. -/
def placeAll : Tree → List (Text × List UInt8) → Except Refusal Report × Tree
  | t, [] => (.ok {}, t)
  | t, (target, bytes) :: rest =>
    match place t target bytes with
    | (.error refusal, t') => (.error refusal, t')
    | (.ok fate, t') =>
      match placeAll t' rest with
      | (.error refusal, t'') => (.error refusal, t'')
      | (.ok report, t'') => (.ok (report.cons fate target), t'')

end Writing

/-- The targets and bytes of all documents of a store, by ascending paths. -/
def Store.outputs (s : Store) (root extension : Text) : List (Text × List UInt8) :=
  s.paths.map fun path => (Document.target root extension path, Text.Utf8.encode (s.text path))

/-- Writes the documents of a store below an output root. -/
def Store.write (s : Store) (root extension : Text) (t : Tree) : Except Refusal Report × Tree :=
  Writing.placeAll t (s.outputs root extension)

end Docblocks
