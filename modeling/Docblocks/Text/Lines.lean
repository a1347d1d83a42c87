/-
# Docblocks.Text.Lines — how a text falls into lines.

A line ends after a line feed.  The feed is not part of the line, and neither is one carriage return
directly before it.  What follows the last feed is a line only when it is not empty, and then it is
kept as it is, a carriage return at its end included.  The cutting is stated for lists over any
alphabet, so that it reads the same on characters and on bytes.
-/
import Docblocks.Text.Basic

namespace Docblocks.Text

/-- Cuts a list after every `lf`; each piece but perhaps the last ends in one. -/
def cutAfter {α : Type} [DecidableEq α] (lf : α) : List α → List (List α)
  | [] => []
  | a :: s =>
    if a = lf then [a] :: cutAfter lf s
    else
      match cutAfter lf s with
      | [] => [[a]]
      | l :: ls => (a :: l) :: ls

/-- Removes `lf` from the end of a piece, and then one `cr` before it; a piece without `lf` at its
end is kept. -/
def chomp {α : Type} [DecidableEq α] (lf cr : α) (piece : List α) : List α :=
  if piece.getLast? = some lf then
    let line := piece.dropLast
    if line.getLast? = some cr then line.dropLast else line
  else piece

/-- The lines of a text. -/
def lines (s : Text) : List Text :=
  (cutAfter '\n' s).map (chomp '\n' '\r')

/-- Cutting loses nothing. -/
theorem flatten_cutAfter {α : Type} [DecidableEq α] (lf : α) (s : List α) :
    (cutAfter lf s).flatten = s := by
  induction s with
  | nil => rfl
  | cons a s ih =>
    unfold cutAfter
    by_cases h : a = lf
    · simp [h, ih]
    · simp only [h, if_false]
      cases hs : cutAfter lf s with
      | nil =>
        rw [hs] at ih
        simp at ih
        simp [← ih]
      | cons l ls =>
        rw [hs] at ih
        simp at ih
        simp [ih]

end Docblocks.Text
