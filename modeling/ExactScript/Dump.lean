/-!
# Dumps

The full structure of a piece of data as indented text, one field a line. Names stand before their
fields, and every field ends with a comma.
-/

namespace ExactScript

inductive Dump where
  | atom (s : String)
  | list (elems : List Dump)
  /-- Fields by position. A plain tuple has an empty name. -/
  | tuple (name : String) (fields : List Dump)
  | record (name : String) (fields : List (String × Dump))

namespace Dump

def indented (line : String) : String := "    " ++ line

/-- Ends the last of some lines with a comma. -/
def withComma : List String → List String
  | [] => []
  | [last] => [last ++ ","]
  | line :: rest => line :: withComma rest

/-- Puts a label before the first of some lines. -/
def labelled (label : String) : List String → List String
  | [] => [label]
  | line :: rest => (label ++ line) :: rest

mutual

/-- The lines of a dump. -/
def lines : Dump → List String
  | atom s => [s]
  | list [] => ["[]"]
  | list elems => "[" :: itemLines elems ++ ["]"]
  | tuple name fields => (name ++ "(") :: itemLines fields ++ [")"]
  | record name fields => (name ++ " \x7b") :: fieldLines fields ++ ["\x7d"]

def itemLines : List Dump → List String
  | [] => []
  | d :: ds => (withComma d.lines).map indented ++ itemLines ds

def fieldLines : List (String × Dump) → List String
  | [] => []
  | (label, d) :: ds => (withComma (labelled (label ++ ": ") d.lines)).map indented ++ fieldLines ds

end

def render (d : Dump) : String := "\n".intercalate d.lines

end Dump

end ExactScript
