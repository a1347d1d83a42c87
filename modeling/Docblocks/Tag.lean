/-
# Docblocks.Tag — the tag that opens a documentation block.

A tag is the word `@scratch`, at least one blank, and then a path and an order key with a slash
between them.  The leftmost word that is followed by such a rest counts.  After the blanks, which may
include line feeds, the path reaches up to the last slash of that line; the key reaches up to the next
slash or the end of the text, over line feeds too.
-/
import Docblocks.Text.Basic

namespace Docblocks

/-- Where a block goes: the path of its document, and the key that orders it there. -/
structure Tag where
  path : Text
  order : Text
  deriving DecidableEq, Repr

namespace Tag

/-- The word every tag starts with. -/
def word : Text := ['@', 's', 'c', 'r', 'a', 't', 'c', 'h']

/-- The path and key in what follows the blanks. -/
def body? (s : Text) : Option Tag :=
  (Text.cutLast? '/' (s.takeWhile (· != '\n'))).map fun (path, key) =>
    ⟨path, (key ++ s.dropWhile (· != '\n')).takeWhile (· != '/')⟩

/-- The tag whose word stands at the very start of a text. -/
def here? (s : Text) : Option Tag :=
  match Text.after? word s with
  | none => none
  | some rest =>
    match rest with
    | [] => none
    | c :: _ => if Text.isBlank c then body? (Text.trimStart rest) else none

/-- The leftmost tag of a text. -/
def parse? : Text → Option Tag
  | [] => none
  | c :: s =>
    match here? (c :: s) with
    | some tag => some tag
    | none => parse? s

end Tag

end Docblocks
