/-!
# Diagnostics

A note about a place in source text, shown with the line it is on and a mark below it:

    --> 1:2
      |
    1 | l.foo
      |  ^--^
      |
      = unknown method .foo

A position is marked by an arrow, a stretch from its first to its last character. A stretch over several
lines shows the first and the last of them. Lines are ended by line feeds; lines and columns count from
one, columns in characters.

## Contents
* `Place`, `placeAt`, `lineAround`;
* `Diagnostic.atPosition`, `Diagnostic.atSpan`;
* `Diagnostic.render`.
-/

namespace ExactScript.Source

/-- A line and a column. -/
structure Place where
  line : Nat
  col : Nat
  deriving DecidableEq

/-! ## Places and lines -/

def Place.next (p : Place) (c : Char) : Place :=
  if c = '\n' then ⟨p.line + 1, 1⟩ else ⟨p.line, p.col + 1⟩

/-- The place of a position of the text. -/
def placeAt (src : List Char) (pos : Nat) : Place := (src.take pos).foldl Place.next ⟨1, 1⟩

/-- The line that a position is on, with the line feed that ends it. -/
def lineAround (src : List Char) (pos : Nat) : List Char :=
  let before := ((src.take pos).reverse.takeWhile (· != '\n')).reverse
  let after := src.drop pos
  before ++ after.takeWhile (· != '\n') ++ (after.dropWhile (· != '\n')).take 1

def isLineEnd (c : Char) : Bool := c == '\n' || c == '\r'

/-- Whether the character at a position is a line end. -/
def lineEndAt (src : List Char) (pos : Nat) : Bool := (src[pos]?).any isLineEnd

/-- A line without its line ends. -/
def stripLineEnds (line : List Char) : List Char := line.filter fun c => !isLineEnd c

/-- A line with symbols for its line ends. -/
def showLineEnds (line : List Char) : List Char :=
  line.map fun c => if c = '\r' then '␍' else if c = '\n' then '␊' else c

/-! ## Diagnostics -/

structure Diagnostic where
  start : Place
  /-- The end of a stretch; a position has none. -/
  stop : Option Place
  /-- The first line, as shown. -/
  firstLine : List Char
  /-- The last line, as shown, when there are several. -/
  lastLine : Option (List Char)
  note : String

namespace Diagnostic

def atPosition (src : List Char) (pos : Nat) (note : String) : Diagnostic where
  start := placeAt src pos
  stop := none
  firstLine :=
    let line := lineAround src pos
    if lineEndAt src pos then showLineEnds line else stripLineEnds line
  lastLine := none
  note := note

/-- A note about the characters from `start` up to `stop`. A stretch that ends with a line feed ends on
the line of the line feed. -/
def atSpan (src : List Char) (start stop : Nat) (note : String) : Diagnostic :=
  let first := placeAt src start
  let last := placeAt src (stop - 1)
  let after := placeAt src stop
  let showEnds := lineEndAt src start || lineEndAt src (stop - 1)
  let line := lineAround src start
  { start := first
    stop := some (if after.col = 1 then ⟨last.line, last.col + 1⟩ else after)
    firstLine := if showEnds then showLineEnds line else stripLineEnds line
    lastLine :=
      if first.line < last.line then
        let line := lineAround src (stop - 1)
        some (if showEnds then line else showLineEnds line)
      else none
    note := note }

/-! ## Text -/

def blanks (n : Nat) : String := String.ofList (List.replicate n ' ')

/-- The number of digits of the largest line number. -/
def width (d : Diagnostic) : Nat :=
  (toString (max d.start.line ((d.stop.map Place.line).getD 0))).length

/-- The mark of the columns from `a` up to `b`. -/
def spanMark (a b : Nat) : String :=
  if a + 1 < b then "^" ++ String.ofList (List.replicate (b - a - 2) '-') ++ "^" else "^"

/-- The mark below the first line. Tabs stay tabs. When the stretch ends left of where it starts, the
mark covers the columns between the two. -/
def mark (d : Diagnostic) : String :=
  let indent (col : Nat) : String :=
    String.ofList ((d.firstLine.take (col - 1)).map fun c => if c = '\t' then '\t' else ' ')
  match d.stop with
  | none => indent d.start.col ++ "^---"
  | some stop =>
    if stop.col < d.start.col then
      indent (stop.col - 1) ++ spanMark (stop.col - 1) (d.start.col + 1)
    else indent d.start.col ++ spanMark d.start.col stop.col

/-- A line number, set flush right in the width of the largest one, and the line. -/
def numbered (d : Diagnostic) (number : Nat) (line : List Char) : String :=
  let digits := toString number
  blanks (d.width - digits.length) ++ digits ++ " | " ++ String.ofList line ++ "\n"

/-- The lines that are shown. -/
def shownLines (d : Diagnostic) : String :=
  match d.lastLine, d.stop with
  | some line, some stop =>
    d.numbered d.start.line d.firstLine ++
      (if d.start.line + 1 < stop.line then blanks d.width ++ " | ...\n" else "") ++
      d.numbered stop.line line
  | _, _ => d.numbered d.start.line d.firstLine

def render (d : Diagnostic) : String :=
  let margin := blanks d.width
  margin ++ "--> " ++ toString d.start.line ++ ":" ++ toString d.start.col ++ "\n" ++
    margin ++ " |\n" ++
    d.shownLines ++
    margin ++ " | " ++ d.mark ++ "\n" ++
    margin ++ " |\n" ++
    margin ++ " = " ++ d.note

end Diagnostic

end ExactScript.Source
