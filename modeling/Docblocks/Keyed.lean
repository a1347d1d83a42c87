/-
# Docblocks.Keyed — entries under texts, in ascending order.

An association list whose keys ascend in the order of texts.  `alter` is the only way in: it changes
the entry of a key, or puts a new one at its place.
-/
import Docblocks.Text.Order

namespace Docblocks

/-- Entries with texts as keys, kept in ascending order of the keys. -/
abbrev Keyed (α : Type) := List (Text × α)

namespace Keyed

variable {α : Type}

/-- Replaces the entry of `key` by `f` of it; `f none` becomes a new entry when there is none. -/
def alter (key : Text) (f : Option α → α) : Keyed α → Keyed α
  | [] => [(key, f none)]
  | (k, a) :: rest =>
    match Text.order key k with
    | .lt => (key, f none) :: (k, a) :: rest
    | .eq => (k, f (some a)) :: rest
    | .gt => (k, a) :: alter key f rest

/-- The entry of a key. -/
def get? (key : Text) : Keyed α → Option α
  | [] => none
  | (k, a) :: rest => if k = key then some a else get? key rest

/-- The keys, ascending. -/
def keys (m : Keyed α) : List Text :=
  m.map Prod.fst

/-- The entries, in the order of their keys. -/
def values (m : Keyed α) : List α :=
  m.map Prod.snd

end Keyed

end Docblocks
