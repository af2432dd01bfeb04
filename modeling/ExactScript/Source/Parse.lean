import ExactScript.Source.Diagnostic
import ExactScript.Source.Reading

/-!
# From source text to trees

A text that the grammar does not match is reported at the furthest position at which a rule failed, with
the rules that were expected there. A text that it matches is read; the first fault of the reading is
reported at the place it is at.
-/

namespace ExactScript.Source

open Peg

inductive ParseError where
  /-- The text does not match the grammar. -/
  | unmatched (d : Diagnostic)
  /-- The text matches, but a part of it is at fault. -/
  | faulty (d : Diagnostic)

namespace ParseError

def diagnostic : ParseError → Diagnostic
  | unmatched d => d
  | faulty d => d

def message (e : ParseError) : String := e.diagnostic.render

end ParseError

/-! ## Reports -/

/-- Names in a row: `a`, `a or b`, `a, b, or c`. -/
def enumerate : List String → String
  | [] => ""
  | [a] => a
  | [a, b] => a ++ " or " ++ b
  | names => ", ".intercalate (names.take (names.length - 1)) ++ ", or " ++ names.getLastD ""

/-- The names of some rules, each once. -/
def ruleNames (rules : List Rule) : List String :=
  (Rule.all.filter fun r => rules.contains r).map Rule.name

/-- What the attempts say about the position they were made at. -/
def report (a : Attempts Rule) : String :=
  match ruleNames a.unexpected, ruleNames a.expected with
  | [], [] => "unknown parsing error"
  | [], expected => "expected " ++ enumerate expected
  | unexpected, [] => "unexpected " ++ enumerate unexpected
  | unexpected, expected =>
    "unexpected " ++ enumerate unexpected ++ "; expected " ++ enumerate expected

/-! ## Parsing -/

/-- Fuel for any text: no rule goes deeper than this without reading a character. -/
def fuelFor (src : List Char) : Nat := 256 * (src.length + 2)

/-- The run of the grammar on a whole text. -/
def runFile (src : List Char) : Outcome Rule :=
  grammar.run (fuelFor src) .spaced .plain (.rule .file) ⟨src, 0⟩

/-- The statements of a source text. -/
def parseChars (src : List Char) : Except ParseError (List Surface) :=
  let o := runFile src
  match o.reply with
  | .matched (t :: _) _ =>
    match readFile t with
    | .ok tree => .ok tree
    | .error f => .error (.faulty (.atSpan src f.span.start f.span.stop f.problem.message))
  | _ => .error (.unmatched (.atPosition src o.attempts.pos (report o.attempts)))

/-- The statements of a source text. -/
def parse (src : String) : Except ParseError (List Surface) := parseChars src.toList

end ExactScript.Source
