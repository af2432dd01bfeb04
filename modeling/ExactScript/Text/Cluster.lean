import ExactScript.Text.Joining

/-!
# Clusters

The pieces of a text that a reader takes for one sign each: a letter with its marks, a syllable, a flag, a
picture made of several. They are the extended grapheme clusters of Unicode 17.

## Contents
* `Context`, what has to be known of a text to tell whether the next character joins it;
* `clusters`, the pieces;
* `flatten_clusters`, no character is lost or moved, and `ne_nil_of_mem_clusters`, no piece is empty.
-/

namespace ExactScript.Text

namespace Joining

/-- Neither the character before nor the one behind joins it. -/
def isApart : Joining → Bool
  | carriageReturn | lineFeed | control => true
  | _ => false

/-- Joins whatever does not stand apart before it. -/
def isAttached : Joining → Bool
  | mark | linker | nonJoiner | joiner | spacing => true
  | _ => false

/-- Joins the part of a Korean syllable before it. -/
def composes : Joining → Joining → Bool
  | hangulInitial, hangulInitial | hangulInitial, hangulVowel => true
  | hangulInitial, hangulOpen | hangulInitial, hangulClosed => true
  | hangulOpen, hangulVowel | hangulOpen, hangulFinal => true
  | hangulVowel, hangulVowel | hangulVowel, hangulFinal => true
  | hangulClosed, hangulFinal | hangulFinal, hangulFinal => true
  | _, _ => false

end Joining

/-! ## What came before -/

/-- What has to be known of a text to tell whether the next character joins it. -/
structure Context where
  /-- The kind of the last character. -/
  last : Joining
  /-- It ends in a picture, marks on it, and perhaps one joiner behind them. -/
  picture : Bool := false
  /-- It ends in an odd number of letters of flags. -/
  halfFlag : Bool := false
  /-- It ends in a consonant and marks on it. -/
  consonant : Bool := false
  /-- A linker is among the marks on that consonant. -/
  linked : Bool := false

namespace Context

/-- Before a text, nothing can be joined. -/
def start : Context := { last := .control }

/-- The context behind one more character. -/
def push (t : Context) : Joining → Context
  | .picture => { last := .picture, picture := true }
  | .consonant => { last := .consonant, consonant := true }
  | .flag => { last := .flag, halfFlag := !t.halfFlag }
  | .mark => { t with last := .mark, picture := t.picture && t.last ≠ .joiner, halfFlag := false }
  | .joiner => { t with last := .joiner, picture := t.picture && t.last ≠ .joiner, halfFlag := false }
  | .linker =>
    { last := .linker, picture := t.picture && t.last ≠ .joiner, consonant := t.consonant,
      linked := t.consonant }
  | .nonJoiner => { last := .nonJoiner, picture := t.picture && t.last ≠ .joiner }
  | j => { last := j }

/-- Whether a character of this kind belongs to the last cluster of the text. -/
def joins (t : Context) (j : Joining) : Bool :=
  if t.last.isApart || j.isApart then t.last = .carriageReturn && j = .lineFeed
  else
    j.isAttached || t.last = .lead || t.last.composes j
      || (j = .consonant && t.linked)
      || (j = .picture && t.picture && t.last = .joiner)
      || (j = .flag && t.halfFlag)

end Context

/-! ## The pieces -/

/-- The characters that join the text before them, and the clusters that follow. -/
def clustersAfter (t : Context) : List Char → List Char × List (List Char)
  | [] => ([], [])
  | c :: rest =>
    let (own, more) := clustersAfter (t.push (.of c)) rest
    if t.joins (.of c) then (c :: own, more) else ([], (c :: own) :: more)

/-- The clusters of a text. -/
def clusters (cs : List Char) : List (List Char) := (clustersAfter .start cs).2

theorem flatten_clustersAfter (t : Context) (cs : List Char) :
    (clustersAfter t cs).1 ++ (clustersAfter t cs).2.flatten = cs := by
  induction cs generalizing t with
  | nil => rfl
  | cons c rest ih =>
    have h := ih (t.push (.of c))
    simp only [clustersAfter]
    split <;> simp [h]

theorem ne_nil_of_mem_clustersAfter {t : Context} {cs piece : List Char}
    (h : piece ∈ (clustersAfter t cs).2) : piece ≠ [] := by
  induction cs generalizing t with
  | nil => simp [clustersAfter] at h
  | cons c rest ih =>
    simp only [clustersAfter] at h
    split at h
    · exact ih h
    · rcases List.mem_cons.1 h with rfl | h
      · simp
      · exact ih h

/-- Nothing joins the start of a text. -/
theorem joins_start (j : Joining) : Context.start.joins j = false := rfl

/-- The clusters of a text make up the text. -/
theorem flatten_clusters (cs : List Char) : (clusters cs).flatten = cs := by
  have h := flatten_clustersAfter .start cs
  cases cs with
  | nil => rfl
  | cons c rest => simpa [clusters, clustersAfter, joins_start] using h

theorem ne_nil_of_mem_clusters {cs piece : List Char} (h : piece ∈ clusters cs) : piece ≠ [] :=
  ne_nil_of_mem_clustersAfter h

end ExactScript.Text
