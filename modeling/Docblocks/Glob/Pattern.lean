/-
# Docblocks.Glob.Pattern — patterns for paths.

In a pattern `?` stands for one character, `*` for any characters, and `[...]` or `[!...]` for one
character in or not in a set; `**` is a component of its own and stands for any directories.  There is
no escape: a set of one is how a special character is written.  The text is first read as a whole, and
then each component between slashes by itself, so a set that holds a slash passes the first reading and
fails the second.
-/
import Docblocks.Tree.Path

namespace Docblocks.Glob

/-! ## Tokens -/

/-- A member of a set: the characters from the first to the last. -/
structure Span where
  first : Char
  last : Char
  deriving DecidableEq, Repr

/-- Whether a span holds a character; a span that runs backwards holds none. -/
def Span.holds (s : Span) (c : Char) : Bool :=
  s.first.toNat ≤ c.toNat && c.toNat ≤ s.last.toNat

/-- A part of a component. -/
inductive Token
  /-- This character. -/
  | char (c : Char)
  /-- Any one character. -/
  | any
  /-- Any characters. -/
  | many
  /-- Any directories. -/
  | directories
  /-- One character in the set. -/
  | oneOf (set : List Span)
  /-- One character not in the set. -/
  | noneOf (set : List Span)
  deriving DecidableEq, Repr

/-- The tokens between two slashes. -/
abbrev Component := List Token

/-! ## Faults -/

/-- What can be wrong in a pattern. -/
inductive Flaw
  /-- Three or more stars in a row. -/
  | stars
  /-- Two stars that are not a component of their own. -/
  | directories
  /-- A bracket that is not closed. -/
  | set
  deriving DecidableEq, Repr

/-- A flaw and the number of characters before it. -/
structure Fault where
  position : Nat
  flaw : Flaw
  deriving DecidableEq, Repr

/-- A flaw in words. -/
def Flaw.message : Flaw → String
  | .stars => "wildcards are either regular `*` or recursive `**`"
  | .directories => "recursive wildcards must form a single path component"
  | .set => "invalid range pattern"

/-- A fault in words. -/
def Fault.message (f : Fault) : Text :=
  "Pattern syntax error near position ".toList ++ Nat.toDigits 10 f.position ++ [':', ' '] ++
    f.flaw.message.toList

/-! ## Reading -/

/-- The members of a set, from the left: a character with a hyphen and another one after it starts a
span, and any other character stands for itself. -/
def spans : Text → List Span
  | [] => []
  | [a] => [⟨a, a⟩]
  | [a, b] => [⟨a, a⟩, ⟨b, b⟩]
  | a :: b :: c :: s => if b = '-' then ⟨a, c⟩ :: spans s else ⟨a, a⟩ :: spans (b :: c :: s)

/-- The text before the first `]` that is not its first character, and the text after that `]`. -/
def members? : Text → Option (Text × Text)
  | [] => none
  | c :: s =>
    if ']' ∈ s then some (c :: s.takeWhile (· != ']'), (s.dropWhile (· != ']')).tail) else none

/-- The token of a set, from what follows its `[`, and the text after the set. -/
def set? : Text → Option (Token × Text)
  | '!' :: s => (members? s).map fun (set, rest) => (.noneOf (spans set), rest)
  | s => (members? s).map fun (set, rest) => (.oneOf (spans set), rest)

/-- Reads tokens.  `before` is the character before the text, `position` the number of characters
before it, and the first number bounds how many tokens are read. -/
def tokensWithin : Nat → Option Char → Nat → Text → Except Fault (List Token)
  | 0, _, _, _ => .ok []
  | _ + 1, _, _, [] => .ok []
  | fuel + 1, before, position, c :: s =>
    if c = '?' then (.any :: ·) <$> tokensWithin fuel (some c) (position + 1) s
    else if c = '*' then
      match s with
      | '*' :: '*' :: _ => .error ⟨position + 2, .stars⟩
      | '*' :: s =>
        if before = none ∨ before = some '/' then
          match s with
          | [] => .ok [.directories]
          | '/' :: s => (.directories :: ·) <$> tokensWithin fuel (some '/') (position + 3) s
          | _ => .error ⟨position + 2, .directories⟩
        else .error ⟨position - 1, .directories⟩
      | s => (.many :: ·) <$> tokensWithin fuel (some c) (position + 1) s
    else if c = '[' then
      match set? s with
      | none => .error ⟨position, .set⟩
      | some (token, rest) =>
        let after := position + 1 + (s.length - rest.length)
        (token :: ·) <$> tokensWithin fuel (some ']') after rest
    else (.char c :: ·) <$> tokensWithin fuel (some c) (position + 1) s

/-- The tokens of a text. -/
def tokens (s : Text) : Except Fault (List Token) :=
  tokensWithin s.length none 0 s

/-- A pattern: its components from the root or the working directory, and whether only directories
count as results. -/
structure Pattern where
  absolute : Bool
  components : List Component
  directoriesOnly : Bool
  deriving DecidableEq, Repr

/-- Whether a component stands for any directories. -/
def Component.isDirectories (c : Component) : Bool :=
  c.contains .directories

/-- Keeps one of several components in a row that stand for any directories. -/
def squeeze : List Component → List Component
  | [] => []
  | [c] => [c]
  | c :: d :: rest =>
    if Component.isDirectories c && Component.isDirectories d then squeeze (d :: rest)
    else c :: squeeze (d :: rest)

/-- The texts of the components: what stands between slashes, where one slash at the end adds
nothing, and an empty text is one empty component. -/
def componentTexts (s : Text) : List Text :=
  if s = [] then [[]]
  else if s.getLast? = some '/' then (Text.pieces '/' s).dropLast
  else Text.pieces '/' s

/-- Reads a pattern. -/
def Pattern.parse (s : Text) : Except Fault Pattern := do
  let _ ← tokens s
  let absolute := Path.isAbsolute s
  let components ← (componentTexts (if absolute then s.tail else s)).mapM tokens
  return ⟨absolute, squeeze components, s.getLast? = some '/'⟩

/-! ## Matching -/

/-- The text of a component without special tokens. -/
def Component.literal? : Component → Option Text
  | [] => some []
  | .char c :: ts => (Component.literal? ts).map (c :: ·)
  | _ :: _ => none

/-- Whether a token stands for any characters, none included. -/
def Token.isOpen : Token → Bool
  | .many | .directories => true
  | _ => false

/-- Whether a token stands for a single character. -/
def Token.accepts : Token → Char → Bool
  | .char c, d => c = d
  | .any, _ => true
  | .oneOf set, d => set.any (·.holds d)
  | .noneOf set, d => !set.any (·.holds d)
  | .many, _ | .directories, _ => false

/-- For the empty text, whether it is matched by the component, by the component without its first
token, and so on down to no token at all. -/
def rowEnd : Component → List Bool
  | [] => [true]
  | token :: ts => (token.isOpen && (rowEnd ts).head?.getD false) :: rowEnd ts

/-- The same for a text that starts with `c`, from the answers for the text after it. -/
def rowBefore (c : Char) : Component → List Bool → List Bool
  | token :: ts, here :: after =>
    let rest := rowBefore c ts after
    let first :=
      if token.isOpen then rest.head?.getD false || here
      else token.accepts c && after.head?.getD false
    first :: rest
  | _, _ => [false]

/-- Whether a component's tokens match a whole name.  The answers for all ends of the component are
carried from the end of the name to its start, so that no end is tried twice. -/
def Component.matches (c : Component) (name : Text) : Bool :=
  (name.foldr (fun d row => rowBefore d c row) (rowEnd c)).head?.getD false

end Docblocks.Glob
