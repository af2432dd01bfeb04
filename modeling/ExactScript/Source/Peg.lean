/-!
# Parsing expression grammars

Patterns over characters with ordered choice, repetition and lookahead, and rules that name them. A run
of a pattern either matches, giving the trees of the rules it went through, or fails. It also says how far
it got: the *attempts* are the rules that were tried at the furthest position at which any rule failed.

Rules differ in how the elements of their patterns follow each other. In a *spaced* rule layout may stand
between any two elements; in a *compact* rule it may not; an *atomic* rule is a single token, whose parts
are neither recorded nor reported.

## Contents
* `Cursor`, `Pattern`, `Mode`, `Grammar`, `ParseTree`;
* `Attempts`, and `Attempts.recordRule`, which decides what is reported;
* `Grammar.run`, with fuel.
-/

namespace ExactScript.Peg

/-- What is left of the input, and how many characters were read. -/
structure Cursor where
  rest : List Char
  pos : Nat

/-- How the elements of a pattern follow each other. -/
inductive Mode where
  | spaced
  | compact
  | atomic
  deriving DecidableEq

inductive Pattern (ρ : Type) where
  | empty
  | text (s : String)
  | char (accepts : Char → Bool)
  | seq (first second : Pattern ρ)
  /-- The second pattern is tried when the first one fails. -/
  | choice (first second : Pattern ρ)
  /-- As often as it matches. -/
  | many (p : Pattern ρ)
  /-- Matches without reading when `p` matches. -/
  | ahead (p : Pattern ρ)
  /-- Matches without reading when `p` fails. -/
  | notAhead (p : Pattern ρ)
  | rule (r : ρ)

namespace Pattern

variable {ρ : Type}

/-- Patterns one after the other. -/
def all : List (Pattern ρ) → Pattern ρ
  | [] => empty
  | [p] => p
  | p :: ps => seq p (all ps)

/-- The first pattern that matches. -/
def oneOf : List (Pattern ρ) → Pattern ρ
  | [] => notAhead empty
  | [p] => p
  | p :: ps => choice p (oneOf ps)

def optional (p : Pattern ρ) : Pattern ρ := choice p empty

/-- At least once. -/
def some (p : Pattern ρ) : Pattern ρ := seq p (many p)

/-- Elements with `separator` between them. -/
def separated (separator element : Pattern ρ) : Pattern ρ :=
  seq element (many (seq separator element))

end Pattern

structure Grammar (ρ : Type) where
  body : ρ → Pattern ρ
  mode : ρ → Mode
  /-- Reads over layout. -/
  skip : Cursor → Cursor

/-- A stretch of the input, up to but not including `stop`. -/
structure Span where
  start : Nat
  stop : Nat

/-- What a rule matched: the text of an atomic rule, the parts of any other. -/
inductive ParseTree (ρ : Type) where
  | leaf (rule : ρ) (span : Span) (text : List Char)
  | node (rule : ρ) (span : Span) (parts : List (ParseTree ρ))

/-! ## Attempts -/

/-- The rules that were tried at the furthest position of a failure. Those in `unexpected` matched where
they must not. -/
structure Attempts (ρ : Type) where
  pos : Nat := 0
  expected : List ρ := []
  unexpected : List ρ := []

/-- Inside how many, and which, lookaheads a pattern is run. -/
inductive Look where
  | plain
  | ahead
  | notAhead
  deriving DecidableEq

namespace Look

/-- Inside one more `notAhead`. -/
def negate : Look → Look
  | notAhead => ahead
  | _ => notAhead

/-- Inside one more `ahead`. -/
def affirm : Look → Look
  | notAhead => notAhead
  | _ => ahead

end Look

namespace Attempts

variable {ρ : Type}

def none : Attempts ρ := {}

/-- The attempts of two runs, one after the other: the further position wins. -/
def join (a b : Attempts ρ) : Attempts ρ :=
  if a.pos < b.pos then b
  else if a.pos = b.pos then
    { a with expected := a.expected ++ b.expected, unexpected := a.unexpected ++ b.unexpected }
  else a

def count (a : Attempts ρ) : Nat := a.expected.length + a.unexpected.length

/-- The attempts of a rule tried at `pos`, given those of its body. Only progress beyond `pos`, or a
single attempt at it, says more than the rule itself. -/
def recordRule (a : Attempts ρ) (r : ρ) (pos : Nat) (look : Look) : Attempts ρ :=
  if pos < a.pos ∨ (a.pos = pos ∧ a.count = 1) then a
  else if look = .notAhead then { pos, unexpected := [r] }
  else { pos, expected := [r] }

end Attempts

/-! ## Running -/

inductive Reply (ρ : Type) where
  | matched (trees : List (ParseTree ρ)) (next : Cursor)
  | failed
  /-- The fuel was not enough to tell. -/
  | exhausted

structure Outcome (ρ : Type) where
  reply : Reply ρ
  attempts : Attempts ρ := {}

namespace Outcome

variable {ρ : Type}

/-- The outcome after attempts that were made before. -/
def after (o : Outcome ρ) (a : Attempts ρ) : Outcome ρ := { o with attempts := a.join o.attempts }

/-- The outcome with trees that were matched before. -/
def withTrees (o : Outcome ρ) (ts : List (ParseTree ρ)) : Outcome ρ :=
  match o.reply with
  | .matched us next => { o with reply := .matched (ts ++ us) next }
  | _ => o

end Outcome

/-- Reads the given characters. -/
def Cursor.read? (c : Cursor) : List Char → Option Cursor
  | [] => some c
  | x :: xs =>
    match c.rest with
    | y :: rest => if x = y then read? ⟨rest, c.pos + 1⟩ xs else none
    | [] => none

namespace Grammar

variable {ρ : Type} (g : Grammar ρ)

/-- The cursor at the next element of a pattern. -/
def nextElement (mode : Mode) (c : Cursor) : Cursor := if mode = .spaced then g.skip c else c

/-- The tree of a rule that matched the input between two cursors. -/
def treeOf (r : ρ) (start stop : Cursor) (parts : List (ParseTree ρ)) : ParseTree ρ :=
  let span : Span := ⟨start.pos, stop.pos⟩
  if g.mode r = .atomic then .leaf r span (start.rest.take (stop.pos - start.pos))
  else .node r span parts

/-- Runs a pattern inside a rule of the given mode. Every part of the run takes one unit of fuel off. -/
def run (fuel : Nat) (mode : Mode) (look : Look) (p : Pattern ρ) (c : Cursor) : Outcome ρ :=
  match fuel with
  | 0 => { reply := .exhausted }
  | fuel + 1 =>
    match p with
    | .empty => { reply := .matched [] c }
    | .text s =>
      match c.read? s.toList with
      | some next => { reply := .matched [] next }
      | none => { reply := .failed }
    | .char accepts =>
      match c.rest with
      | x :: rest =>
        if accepts x then { reply := .matched [] ⟨rest, c.pos + 1⟩ } else { reply := .failed }
      | [] => { reply := .failed }
    | .seq first second =>
      let o := run fuel mode look first c
      match o.reply with
      | .matched ts next =>
        ((run fuel mode look second (g.nextElement mode next)).withTrees ts).after o.attempts
      | _ => o
    | .choice first second =>
      let o := run fuel mode look first c
      match o.reply with
      | .failed => (run fuel mode look second c).after o.attempts
      | _ => o
    | .many p =>
      let o := run fuel mode look p (g.nextElement mode c)
      match o.reply with
      | .matched ts next => ((run fuel mode look (.many p) next).withTrees ts).after o.attempts
      | .failed => { o with reply := .matched [] c }
      | .exhausted => o
    | .ahead p =>
      let o := run fuel mode look.affirm p c
      match o.reply with
      | .matched _ _ => { o with reply := .matched [] c }
      | _ => o
    | .notAhead p =>
      let o := run fuel mode look.negate p c
      match o.reply with
      | .matched _ _ => { o with reply := .failed }
      | .failed => { o with reply := .matched [] c }
      | .exhausted => o
    | .rule r =>
      let o := run fuel (g.mode r) look (g.body r) c
      let reported := mode ≠ .atomic
      match o.reply with
      | .matched ts next =>
        { reply := .matched (if reported then [g.treeOf r c next ts] else []) next
          attempts :=
            if reported ∧ look = .notAhead then o.attempts.recordRule r c.pos look
            else o.attempts }
      | .failed =>
        { o with
          attempts :=
            if reported ∧ look ≠ .notAhead then o.attempts.recordRule r c.pos look
            else o.attempts }
      | .exhausted => o

end Grammar

end ExactScript.Peg
