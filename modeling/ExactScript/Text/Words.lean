/-!
# Words of a line

The pieces of a text between its blanks. Blank is what has the Unicode property `White_Space`.
-/

namespace ExactScript.Text

/-- The code points of blank characters, as first and last of each range. -/
def blankRanges : List (Nat × Nat) :=
  [(0x09, 0x0d), (0x20, 0x20), (0x85, 0x85), (0xa0, 0xa0), (0x1680, 0x1680), (0x2000, 0x200a),
    (0x2028, 0x2029), (0x202f, 0x202f), (0x205f, 0x205f), (0x3000, 0x3000)]

def isBlank (c : Char) : Bool := blankRanges.any fun (first, last) => first ≤ c.toNat && c.toNat ≤ last

/-- The pieces between blanks, empty ones included. -/
def pieces : List Char → List (List Char)
  | [] => [[]]
  | c :: rest =>
    if isBlank c then [] :: pieces rest
    else
      match pieces rest with
      | [] => [[c]]
      | piece :: more => (c :: piece) :: more

/-- The words of a line: its pieces that hold something. -/
def words (line : String) : List String :=
  (pieces line.toList).filterMap fun piece =>
    if piece.isEmpty then none else some (String.ofList piece)

/-- No piece holds a blank. -/
theorem isBlank_eq_false_of_mem_pieces {cs piece : List Char} (hp : piece ∈ pieces cs) :
    ∀ c ∈ piece, isBlank c = false := by
  induction cs generalizing piece with
  | nil => simp_all [pieces]
  | cons c rest ih =>
    simp only [pieces] at hp
    split at hp
    · rcases List.mem_cons.1 hp with rfl | hp
      · simp
      · exact ih hp
    · rename_i hc
      split at hp
      · simp_all
      · rename_i piece' more hpieces
        rcases List.mem_cons.1 hp with rfl | hp
        · intro d hd
          rcases List.mem_cons.1 hd with rfl | hd
          · simpa using hc
          · exact ih (hpieces ▸ List.mem_cons_self) d hd
        · exact ih (hpieces ▸ List.mem_cons_of_mem _ hp)

end ExactScript.Text
