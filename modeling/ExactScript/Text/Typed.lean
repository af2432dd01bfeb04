import ExactScript.Text.Cluster

/-!
# Typed lines

A typed line holds its corrections: a backspace takes back what was typed before it. `settled` is the
line that is left, and `settled_eq_self` says that a line without backspaces stays as it is.
-/

namespace ExactScript.Text

/-- A line while it is typed. -/
structure Typed where
  /-- Its characters, the latest first. -/
  text : List Char := []
  /-- The sizes of its clusters, the latest first. -/
  sizes : List Nat := []

/-- The character that takes back what was typed last. -/
def backspace : Char := '\x08'

/-- The number of bytes that a cluster takes. Longer clusters are counted round again from 256 on. -/
def clusterSize (cluster : List Char) : Nat := cluster.foldl (fun n c => n + c.utf8Size) 0 % 256

/-- Drops characters that take `n` bytes together. -/
def dropBytes : Nat → List Char → List Char
  | 0, cs => cs
  | _, [] => []
  | n + 1, c :: cs => dropBytes (n + 1 - c.utf8Size) cs

namespace Typed

/-- Takes back the last cluster, as far as its size tells. -/
def erase (t : Typed) : Typed :=
  match t.sizes with
  | [] => t
  | size :: sizes => { text := dropBytes size t.text, sizes }

def append (t : Typed) (cluster : List Char) : Typed :=
  { text := cluster.reverse ++ t.text, sizes := clusterSize cluster :: t.sizes }

/-- Follows the keys of one cluster. -/
def enter (t : Typed) (cluster : List Char) : Typed :=
  if cluster = [backspace] then t.erase else t.append cluster

/-- Clusters without a backspace are kept. -/
theorem text_foldl_enter {pieces : List (List Char)} (h : ∀ piece ∈ pieces, piece ≠ [backspace])
    (t : Typed) : (pieces.foldl enter t).text = pieces.flatten.reverse ++ t.text := by
  induction pieces generalizing t with
  | nil => rfl
  | cons piece rest ih =>
    rw [List.foldl_cons, ih fun p hp => h p (List.mem_cons_of_mem _ hp)]
    simp [enter, append, h piece List.mem_cons_self]

end Typed

/-- What is left of a typed line when its backspaces have taken effect. -/
def settled (line : String) : String :=
  String.ofList ((clusters line.toList).foldl Typed.enter {}).text.reverse

/-- A line without backspaces stays as it is. -/
theorem settled_eq_self {line : String} (h : backspace ∉ line.toList) : settled line = line := by
  have hp : ∀ piece ∈ clusters line.toList, piece ≠ [backspace] := by
    rintro piece hmem rfl
    exact h (flatten_clusters line.toList ▸ List.mem_flatten.2 ⟨_, hmem, List.mem_singleton_self _⟩)
  simp [settled, Typed.text_foldl_enter hp, flatten_clusters]

end ExactScript.Text
