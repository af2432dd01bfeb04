import ExactScript.Program.Codec

/-!
# Programs survive their files

Reading the bytes of a program gives the program back and leaves what follows it; bytes that stop short
of a program's end are refused.

Each part of the format is read by a reader that *reads exactly* the bytes its writer made
(`Codec.Reads`): on these bytes and anything after them it answers with the part, and on fewer of them it
runs out. Both halves go through sequencing, so every reader that is put together from such readers has
them again, and a program is one such sequence.

## Contents
* `Codec.Reads` and its rules: `Reads.pure`, `Reads.bind`, `Reads.map`;
* `reads_varint`, `reads_string`, `reads_integer`, `reads_instr`, …: one lemma for each part;
* `Program.Storable`: every number of the program is a machine word;
* `Program.decode_encode`: the round trip.
-/

namespace ExactScript

namespace Codec

variable {α β : Type}

/-! ## Readers that read exactly what was written -/

/-- `r` reads exactly `w`: with `w` in front it answers `a` and leaves the rest, and when the bytes end
before `w` does it runs out of them. -/
structure Reads (r : Reader α) (w : Bytes) (a : α) : Prop where
  whole : ∀ rest, r (w ++ rest) = .ok (a, rest)
  cut : ∀ front back, w = front ++ back → back ≠ [] → r front = .error .endOfBuffer

theorem bind_of_ok {r : Reader α} {bytes rest : Bytes} {a : α} (h : r bytes = .ok (a, rest))
    (f : α → Reader β) : (r >>= f) bytes = f a rest := by
  show (r bytes).bind _ = _
  rw [h]
  rfl

theorem bind_of_error {r : Reader α} {bytes : Bytes} {e : CodecError} (h : r bytes = .error e)
    (f : α → Reader β) : (r >>= f) bytes = .error e := by
  show (r bytes).bind _ = _
  rw [h]
  rfl

namespace Reads

variable {r : Reader α} {f : α → Reader β} {w w' : Bytes} {a : α} {b : β}

theorem pure (a : α) : Reads (Pure.pure a) [] a where
  whole _ := rfl
  cut front back h hback := by
    have := List.append_eq_nil_iff.mp h.symm
    exact absurd this.2 hback

theorem bind (hr : Reads r w a) (hf : Reads (f a) w' b) : Reads (r >>= f) (w ++ w') b where
  whole rest := by
    rw [List.append_assoc, bind_of_ok (hr.whole _), hf.whole]
  cut front back h hback := by
    -- the bytes stop in the first part or after it
    rcases List.append_eq_append_iff.mp h with ⟨c, hfront, hw'⟩ | ⟨c, hw, hrest⟩
    · rw [hfront, bind_of_ok (hr.whole _)]
      exact hf.cut c back hw' hback
    · by_cases hc : c = []
      · have hfront : front = w := by simp [hw, hc]
        have hw' : w' = [] ++ back := by simp [hrest, hc]
        have hok : r front = .ok (a, []) := by simpa [hfront] using hr.whole []
        rw [bind_of_ok hok]
        exact hf.cut [] back hw' hback
      · exact bind_of_error (hr.cut front c hw hc) f

/-- A last step that reads nothing. -/
theorem bind_pure (hr : Reads r w a) (h : f a = Pure.pure b) : Reads (r >>= f) w b := by
  have hf : Reads (f a) [] b := h ▸ Reads.pure b
  have := hr.bind hf
  rwa [List.append_nil] at this

theorem map (hr : Reads r w a) (g : α → β) : Reads (r >>= fun a => Pure.pure (g a)) w (g a) :=
  hr.bind_pure rfl

end Reads

/-! ## Bytes and varints -/

theorem reads_byte (b : UInt8) : Reads byte [b] b where
  whole _ := rfl
  cut front back h hback := by
    cases front with
    | nil => rfl
    | cons c front =>
      have : front ++ back = [] := (List.cons.inj h).2.symm
      exact absurd (List.append_eq_nil_iff.mp this).2 hback

theorem toNat_toUInt8_of_lt {n : Nat} (h : n < 256) : n.toUInt8.toNat = n := by
  show n % 256 = n
  exact Nat.mod_eq_of_lt h

theorem varint_of_lt {n : Nat} (h : n < 128) : varint n = [n.toUInt8] := by
  rw [varint, if_pos h]

theorem varint_of_le {n : Nat} (h : 128 ≤ n) :
    varint n = (n % 128 + 128).toUInt8 :: varint (n / 128) := by
  rw [varint, if_neg (Nat.not_lt.mpr h)]

/-- The bytes before the last hold seven bits each, the last one holds a number up to `maxLast`. -/
theorem reads_varint (bytes : Nat) {maxLast n : Nat} (hlast : maxLast < 128)
    (h : n < Nat.pow 128 bytes * (maxLast + 1)) : Reads (readVarint (bytes + 1) maxLast) (varint n) n := by
  induction bytes generalizing n with
  | zero =>
    have hn : n ≤ maxLast := by
      change n < 1 * (maxLast + 1) at h
      omega
    have hbyte : n.toUInt8.toNat = n := toNat_toUInt8_of_lt (by omega)
    rw [varint_of_lt (by omega)]
    refine (reads_byte _).bind_pure ?_
    rw [hbyte, if_pos (show n < 128 by omega), if_neg (by omega)]
  | succ bytes ih =>
    by_cases hn : n < 128
    · have hbyte : n.toUInt8.toNat = n := toNat_toUInt8_of_lt (by omega)
      rw [varint_of_lt hn]
      refine (reads_byte _).bind_pure ?_
      rw [hbyte, if_pos hn, if_neg (by omega)]
    · have hbyte : (n % 128 + 128).toUInt8.toNat = n % 128 + 128 :=
        toNat_toUInt8_of_lt (by omega)
      have hrest : n / 128 < Nat.pow 128 bytes * (maxLast + 1) := by
        change n < Nat.pow 128 bytes * 128 * (maxLast + 1) at h
        rw [Nat.mul_right_comm] at h
        exact Nat.div_lt_of_lt_mul (by rwa [Nat.mul_comm])
      have hvalue : n % 128 + 128 - 128 + 128 * (n / 128) = n := by omega
      rw [varint_of_le (Nat.not_lt.mp hn), ← List.singleton_append]
      refine (reads_byte _).bind ?_
      rw [hbyte, if_neg (show ¬ n % 128 + 128 < 128 by omega)]
      exact (ih hrest).bind_pure (congrArg Pure.pure hvalue)

theorem reads_word16 {n : Nat} (h : n < 0x10000) : Reads word16 (varint n) n :=
  reads_varint 2 (by decide) h

theorem reads_word32 {n : Nat} (h : n < digitBase) : Reads word32 (varint n) n :=
  reads_varint 4 (by decide) h

theorem reads_word64 {n : Nat} (h : n < wordSize) : Reads word64 (varint n) n :=
  reads_varint 9 (by decide) h

/-! ## Sequences -/

theorem reads_many {read : Reader α} {write : α → Bytes} {xs : List α}
    (h : ∀ x ∈ xs, Reads read (write x) x) :
    Reads (readMany read xs.length) (xs.flatMap write) xs := by
  induction xs with
  | nil => exact .pure []
  | cons x xs ih =>
    have hxs := ih fun y hy => h y (List.mem_cons_of_mem _ hy)
    exact (h x List.mem_cons_self).bind (hxs.map fun xs => x :: xs)

theorem reads_sequence {read : Reader α} {write : α → Bytes} {xs : List α}
    (hlen : xs.length < wordSize) (h : ∀ x ∈ xs, Reads read (write x) x) :
    Reads (readSequence read) (sequence write xs) xs :=
  (reads_word64 hlen).bind (reads_many h)

/-! ## Numbers -/

theorem digits_zero : digits 0 = [] := by
  rw [digits, if_pos rfl]

theorem digits_of_ne_zero {n : Nat} (h : n ≠ 0) :
    digits n = n % digitBase :: digits (n / digitBase) := by
  rw [digits, if_neg h]

theorem lt_of_mem_digits {n d : Nat} (h : d ∈ digits n) : d < digitBase := by
  induction n using digits.induct with
  | case1 => simp [digits_zero] at h
  | case2 n hn ih =>
    rw [digits_of_ne_zero hn, List.mem_cons] at h
    rcases h with rfl | h
    · exact Nat.mod_lt n (by decide)
    · exact ih h

theorem ofDigits_digits (n : Nat) : ofDigits (digits n) = n := by
  induction n using digits.induct with
  | case1 => rw [digits_zero, ofDigits]
  | case2 n hn ih =>
    rw [digits_of_ne_zero hn, ofDigits, ih]
    exact Nat.mod_add_div n digitBase

theorem reads_digits {n : Nat} (h : (digits n).length < wordSize) :
    Reads (readSequence word32) (sequence varint (digits n)) (digits n) :=
  reads_sequence h fun _ hd => reads_word32 (lt_of_mem_digits hd)

/-- The digits of an integer's magnitude, read under its sign. -/
theorem reads_magnitude {i : Int} (h : (digits i.natAbs).length < wordSize) (sign : Int)
    (hsign : sign * i.natAbs = i) :
    Reads (readSequence word32 >>= fun ds => pure (sign * ofDigits ds))
      (sequence varint (digits i.natAbs)) i :=
  (reads_digits h).bind_pure (by rw [ofDigits_digits, hsign])

theorem reads_integer {i : Int} (h : (digits i.natAbs).length < wordSize) :
    Reads readInteger (integer i) i := by
  rcases Int.lt_trichotomy i 0 with hi | hi | hi
  · rw [integer, if_pos hi]
    exact (reads_byte 0xff).bind (reads_magnitude h (-1) (by omega))
  · subst hi
    exact (reads_byte 0).bind (reads_magnitude h 0 rfl)
  · rw [integer, if_neg (by omega), if_neg (by omega)]
    exact (reads_byte 1).bind (reads_magnitude h 1 (by omega))

theorem reads_fraction {x : Fraction} (hnum : (digits x.num.natAbs).length < wordSize)
    (hden : (digits x.den.natAbs).length < wordSize) : Reads readFraction (fraction x) x := by
  refine (reads_integer hnum).bind ((reads_integer hden).bind_pure ?_)
  exact dif_neg x.den_ne_zero

/-! ## Text -/

theorem reads_take (w : Bytes) : Reads (take w.length) w w where
  whole rest := by
    have hlen : ¬ (w ++ rest).length < w.length := by simp
    rw [take, if_neg hlen, List.take_left, List.drop_left]
  cut front back h hback := by
    have hlen : front.length < w.length := by
      rw [h, List.length_append]
      have := List.length_pos_iff.mpr hback
      omega
    rw [take, if_pos hlen]

theorem toList_loop (bytes : ByteArray) (i : Nat) (r : List UInt8) :
    ByteArray.toList.loop bytes i r = r.reverse ++ bytes.data.toList.drop i := by
  induction i, r using ByteArray.toList.loop.induct bytes with
  | case1 i r h ih =>
    have hi : i < bytes.data.toList.length := h
    have hget : bytes.get! i = bytes.data.toList[i] := by
      show bytes.data[i]! = _
      simp [getElem!_pos bytes.data i h]
    rw [ByteArray.toList.loop, if_pos h, ih, List.drop_eq_getElem_cons hi, hget]
    simp
  | case2 i r h =>
    have hi : bytes.data.toList.length ≤ i := Nat.not_lt.mp h
    rw [ByteArray.toList.loop, if_neg h, List.drop_eq_nil_of_le hi, List.append_nil]

theorem toList_toByteArray (bytes : ByteArray) : bytes.toList.toByteArray = bytes := by
  have h : bytes.toList = bytes.data.toList := by
    rw [ByteArray.toList, toList_loop]
    simp
  rw [h, ByteArray.ext_iff, List.data_toByteArray]

theorem length_toList_toUTF8 (s : String) : s.toUTF8.toList.length = s.utf8ByteSize := by
  rw [ByteArray.toList, toList_loop]
  simp

theorem fromUTF8?_toUTF8 (s : String) :
    String.fromUTF8? s.toUTF8.toList.toByteArray = some s := by
  rw [toList_toByteArray]
  exact dif_pos s.isValidUTF8

theorem reads_string {s : String} (h : s.utf8ByteSize < wordSize) :
    Reads readString (string s) s := by
  rw [← length_toList_toUTF8] at h
  refine (reads_word64 h).bind ((reads_take s.toUTF8.toList).bind_pure ?_)
  rw [fromUTF8?_toUTF8]

theorem reads_bool (b : Bool) : Reads readBool [if b then 1 else 0] b := by
  cases b
  · exact (reads_byte 0).bind_pure rfl
  · exact (reads_byte 1).bind_pure rfl

/-! ## Instructions -/

/-- The numbers that the constant is stored with: how many digits or bytes there are. -/
def sizes : Literal → List Nat
  | .num x => [(digits x.num.natAbs).length, (digits x.den.natAbs).length]
  | .bool _ => []
  | .str s => [s.utf8ByteSize]

/-- The numbers that the instruction is stored with: its operands, or those of its constant. -/
def operands : Instr Nat → List Nat
  | .push l => sizes l
  | .jump t => [t]
  | .jumpIf _ t => [t]
  | .load id => [id]
  | .store id => [id]
  | .strCat n => [n]
  | .print n => [n]
  | .makeFunction entry arity => [entry, arity]
  | .call n => [n]
  | _ => []

/-- What comes after the number of an alternative. -/
theorem reads_tagged {f : Nat → Reader α} {tag : Nat} {w : Bytes} {a : α} (htag : tag < digitBase)
    (h : Reads (f tag) w a) : Reads (word32 >>= f) (varint tag ++ w) a :=
  (reads_word32 htag).bind h

/-- An alternative that is its number alone. -/
theorem reads_bare {f : Nat → Reader α} {tag : Nat} {a : α} (htag : tag < digitBase)
    (h : f tag = pure a) : Reads (word32 >>= f) (varint tag) a :=
  (reads_word32 htag).bind_pure h

theorem reads_literal {l : Literal} (h : ∀ n ∈ sizes l, n < wordSize) :
    Reads readLiteral (literal l) l := by
  cases l with
  | num x =>
    have hnum := h (digits x.num.natAbs).length (by simp [sizes])
    have hden := h (digits x.den.natAbs).length (by simp [sizes])
    exact reads_tagged (by decide) ((reads_fraction hnum hden).map Literal.num)
  | bool b => exact reads_tagged (by decide) ((reads_bool b).map Literal.bool)
  | str s =>
    have hsize := h s.utf8ByteSize (by simp [sizes])
    exact reads_tagged (by decide) ((reads_string hsize).map Literal.str)

/-- An alternative with one machine word. -/
theorem reads_worded {f : Nat → Reader α} {g : Nat → α} {tag n : Nat} (htag : tag < digitBase)
    (hn : n < wordSize) (h : f tag = word64 >>= fun n => pure (g n)) :
    Reads (word32 >>= f) (varint tag ++ varint n) (g n) :=
  reads_tagged htag (h ▸ (reads_word64 hn).map g)

theorem reads_instr {i : Instr Nat} (h : ∀ n ∈ operands i, n < wordSize) :
    Reads readInstr (instr i) i := by
  have hword {n : Nat} (hi : operands i = [n]) : n < wordSize :=
    h n (hi ▸ List.mem_singleton.mpr rfl)
  cases i with
  | push l => exact reads_tagged (by decide) ((reads_literal h).map Instr.push)
  | jump t => exact reads_worded (by decide) (hword rfl) rfl
  | jumpIf sense t => cases sense <;> exact reads_worded (by decide) (hword rfl) rfl
  | load id => exact reads_worded (by decide) (hword rfl) rfl
  | store id => exact reads_worded (by decide) (hword rfl) rfl
  | strCat n => exact reads_worded (by decide) (hword rfl) rfl
  | print n => exact reads_worded (by decide) (hword rfl) rfl
  | call n => exact reads_worded (by decide) (hword rfl) rfl
  | makeFunction entry arity =>
    have hentry := h entry (by simp [operands])
    have harity := h arity (by simp [operands])
    rw [instr, List.append_assoc]
    exact reads_tagged (by decide)
      ((reads_word64 hentry).bind ((reads_word64 harity).map (Instr.makeFunction entry)))
  | binary op => cases op <;> exact reads_bare (by decide) rfl
  | unary op => cases op <;> exact reads_bare (by decide) rfl
  | query op => cases op <;> exact reads_bare (by decide) rfl
  | update op => cases op <;> exact reads_bare (by decide) rfl
  | pushUnit | pop | dup | strSlice | buildList | buildMap | listFill | find | put | ret | halt =>
    exact reads_bare (by decide) rfl

/-! ## Version and names -/

theorem reads_version {v : Version} (hmajor : v.major < 0x10000) (hminor : v.minor < 0x10000)
    (hpatch : v.patch < 0x10000) : Reads readVersion (versionParts v) v := by
  rw [versionParts, List.append_assoc]
  exact (reads_word16 hmajor).bind
    ((reads_word16 hminor).bind ((reads_word16 hpatch).map (Version.mk v.major v.minor)))

theorem reads_name {e : Nat × String} (hid : e.1 < wordSize) (hname : e.2.utf8ByteSize < wordSize) :
    Reads readName (nameEntry e) e :=
  (reads_word64 hid).bind ((reads_string hname).map (Prod.mk e.1))

end Codec

namespace IdMap

variable {α : Type}

/-! ## Names are inserted in their order -/

theorem place_of_ascending {id : Nat} {v : α} {es : List (Nat × α)} (h : ∀ e ∈ es, e.1 < id) :
    place id v es = es ++ [(id, v)] := by
  induction es with
  | nil => rfl
  | cons e es ih =>
    have he : e.1 < id := h e List.mem_cons_self
    rw [place, if_neg (by omega), if_neg (by omega), ih fun f hf => h f (List.mem_cons_of_mem _ hf)]
    rfl

theorem entries_insertAll {m : IdMap α} {es : List (Nat × α)}
    (h : (m.entries ++ es).Pairwise fun e f => e.1 < f.1) :
    (m.insertAll es).entries = m.entries ++ es := by
  induction es generalizing m with
  | nil => rw [insertAll, List.append_nil]
  | cons e es ih =>
    have hlast : ∀ f ∈ m.entries, f.1 < e.1 := fun f hf =>
      (List.pairwise_append.mp h).2.2 f hf e List.mem_cons_self
    have hentries : (m.insert e.1 e.2).entries = m.entries ++ [e] := place_of_ascending hlast
    rw [List.append_cons, ← hentries] at h
    rw [insertAll, ih h, hentries, List.append_assoc, List.singleton_append]

/-- The entries of a map make the map again. -/
theorem insertAll_entries (m : IdMap α) : empty.insertAll m.entries = m := by
  have h : (empty.insertAll m.entries).entries = [] ++ m.entries := entries_insertAll m.ascending
  cases hm : empty.insertAll m.entries
  cases m
  rw [hm] at h
  cases h
  rfl

end IdMap

namespace Program

open ExactScript.Codec

variable {p : Program}

/-! ## Programs -/

/-- Every number of the program is one that the machine can hold: a word where the format has a word, and
sixteen bits for a part of the version. -/
structure Storable (p : Program) : Prop where
  code_length : p.code.toList.length < wordSize
  code_operands : ∀ i ∈ p.code.toList, ∀ n ∈ operands i, n < wordSize
  version_parts : ∀ n ∈ [p.version.major, p.version.minor, p.version.patch], n < 0x10000
  names_length : p.names.entries.length < wordSize
  names_sizes : ∀ e ∈ p.names.entries, e.1 < wordSize ∧ e.2.utf8ByteSize < wordSize

theorem reads_program (h : p.Storable) : Reads readProgram p.encode p := by
  have hcode : Reads (readSequence readInstr) (sequence instr p.code.toList) p.code.toList :=
    reads_sequence h.code_length fun i hi => reads_instr (h.code_operands i hi)
  have hversion : Reads readVersion (versionParts p.version) p.version :=
    reads_version (h.version_parts _ (by simp)) (h.version_parts _ (by simp))
      (h.version_parts _ (by simp))
  have hnames : Reads (readSequence readName) (sequence nameEntry p.names.entries) p.names.entries :=
    reads_sequence h.names_length fun e he => reads_name (h.names_sizes e he).1 (h.names_sizes e he).2
  rw [encode, List.append_assoc]
  refine hcode.bind (hversion.bind (hnames.bind_pure ?_))
  rw [IdMap.insertAll_entries, Array.toArray_toList]

/-- **A file holds its program and shows where it ends.** A program of the current version is read back
from its bytes, whatever follows them; a program of another version is read to its end and refused with
the version found; and when bytes are missing at the end, whatever the version, they run out. -/
theorem decode_encode (h : p.Storable) :
    (p.version = .current → ∀ suffix, decode (p.encode ++ suffix) = .ok p) ∧
    (∀ front, front <+: p.encode → front ≠ p.encode → decode front = .error .endOfBuffer) ∧
    (p.version ≠ .current → ∀ suffix,
      decode (p.encode ++ suffix) = .error (.versionMismatch p.version)) := by
  have hread := reads_program h
  have hdecode (suffix : Bytes) : decode (p.encode ++ suffix) =
      if p.version = .current then pure p else .error (.versionMismatch p.version) := by
    rw [decode, hread.whole]
    rfl
  refine ⟨fun hv suffix => ?_, fun front hprefix hne => ?_, fun hv suffix => ?_⟩
  · rw [hdecode, if_pos hv]
    rfl
  · obtain ⟨back, hback⟩ := hprefix
    have hcut : readProgram front = .error .endOfBuffer := by
      refine hread.cut front back hback.symm fun hnil => hne ?_
      rw [← hback, hnil, List.append_nil]
    rw [decode, hcut]
    rfl
  · rw [hdecode, if_neg hv]

/-- A fraction that is not in lowest terms, text of more than one byte a character, and an operand of
more than one byte. -/
def sampleStored : Program where
  code := #[.push (.num ⟨4, -6, by decide⟩), .push (.str "é"), .makeFunction 300 2, .jumpIf true 0, .halt]
  names := IdMap.empty.insert 1 "x"

theorem storable_sampleStored : sampleStored.Storable where
  code_length := by decide
  code_operands i hi n hn := by
    have h4 : (digits 4).length = 1 := by simp [digits, digitBase]
    have h6 : (digits 6).length = 1 := by simp [digits, digitBase]
    have h : ∀ n ∈ sampleStored.code.toList.flatMap operands, n < wordSize := by
      show ∀ n ∈ [(digits 4).length, (digits 6).length, 2, 300, 2, 0], n < wordSize
      rw [h4, h6]
      decide
    exact h n (List.mem_flatMap.mpr ⟨i, hi, hn⟩)
  version_parts := by decide
  names_length := by decide
  names_sizes := by decide

theorem decode_encode_sample : sampleStored.Storable ∧
    decode (sampleStored.encode ++ [7]) = .ok sampleStored :=
  ⟨storable_sampleStored, (decode_encode storable_sampleStored).1 rfl [7]⟩

end Program

end ExactScript
