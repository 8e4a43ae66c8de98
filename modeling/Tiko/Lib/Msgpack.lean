import Mathlib.Tactic
import Tiko.Lib.Bytes

/-!
# MessagePack

The part of MessagePack that serialises records of integers and booleans, and sequences and maps of
them, in the shortest encoding.

* `Format`: a writer and a reader that inverts it in front of any bytes, with a bound on the size;
* `uint`, `sint`, `uint64`, `sint64`, `byte`, `bool`; `pair`, `tagged` and `iso` build records;
* **`readMany_writeMany`**: a sequence of fewer than `2 ^ 32` items is read back.
-/

namespace Lib.Msgpack

/-- A writer, and a reader that inverts it. -/
structure Format (α : Type) where
  write : α → List UInt8
  read : List UInt8 → Option (α × List UInt8)
  bound : ℕ
  read_write : ∀ a rest, read (write a ++ rest) = some (a, rest)
  length_write_le : ∀ a, (write a).length ≤ bound

/-! ## Numbers -/

/-- The `k` low bytes of `n`, most significant first. -/
def be (k n : ℕ) : List UInt8 := (Bytes.le k n).reverse

/-- The number in the next `k` bytes, most significant first. -/
def readBe (k : ℕ) (bs : List UInt8) : Option (ℕ × List UInt8) :=
  if bs.length < k then none else some (Bytes.ofLe (bs.take k).reverse, bs.drop k)

@[simp] theorem length_be (k n : ℕ) : (be k n).length = k := by
  rw [be, List.length_reverse, Bytes.length_le]

theorem readBe_be {k n : ℕ} (h : n < 256 ^ k) (rest : List UInt8) :
    readBe k (be k n ++ rest) = some (n, rest) := by
  have hlen := length_be k n
  rw [readBe, if_neg (by simp), List.take_left' hlen, List.drop_left' hlen, be,
    List.reverse_reverse, Bytes.ofLe_le h]

/-- The writer of numbers below `2 ^ 32`. -/
def writeNat (n : ℕ) : List UInt8 :=
  if n < 128 then [UInt8.ofNat n]
  else if n < 256 then 0xcc :: be 1 n
  else if n < 65536 then 0xcd :: be 2 n
  else 0xce :: be 4 n

/-- The reader of numbers below `2 ^ 32`. -/
def readNat : List UInt8 → Option (ℕ × List UInt8)
  | [] => none
  | b :: bs =>
    if b.toNat < 128 then some (b.toNat, bs)
    else if b = 0xcc then readBe 1 bs
    else if b = 0xcd then readBe 2 bs
    else if b = 0xce then readBe 4 bs
    else none

theorem readNat_writeNat {n : ℕ} (h : n < 2 ^ 32) (rest : List UInt8) :
    readNat (writeNat n ++ rest) = some (n, rest) := by
  rw [writeNat]
  split_ifs with h1 h2 h3
  · have hb : (UInt8.ofNat n).toNat = n := by
      rw [UInt8.toNat_ofNat']
      omega
    simp only [List.singleton_append, readNat, hb, if_pos h1]
  · exact readBe_be (k := 1) (by omega) rest
  · exact readBe_be (k := 2) (by omega) rest
  · exact readBe_be (k := 4) (by omega) rest

theorem length_writeNat_le (n : ℕ) : (writeNat n).length ≤ 5 := by
  rw [writeNat]
  split_ifs <;> simp

/-- 32-bit unsigned integers. -/
def uint : Format UInt32 where
  write x := writeNat x.toNat
  read bs := (readNat bs).map fun p => (UInt32.ofNat p.1, p.2)
  bound := 5
  read_write x rest := by
    rw [readNat_writeNat x.toNat_lt]
    simp
  length_write_le x := length_writeNat_le _

/-- The writer of negative numbers down to `-2 ^ 31`, from their absolute value. -/
def writeNeg (n : ℕ) : List UInt8 :=
  if n ≤ 32 then [UInt8.ofNat (256 - n)]
  else if n ≤ 128 then 0xd0 :: be 1 (256 - n)
  else if n ≤ 32768 then 0xd1 :: be 2 (65536 - n)
  else 0xd2 :: be 4 (4294967296 - n)

/-- The absolute value of a negative number in front of the bytes. -/
def readNeg : List UInt8 → Option (ℕ × List UInt8)
  | [] => none
  | b :: bs =>
    if 224 ≤ b.toNat then some (256 - b.toNat, bs)
    else if b = 0xd0 then (readBe 1 bs).map fun p => (256 - p.1, p.2)
    else if b = 0xd1 then (readBe 2 bs).map fun p => (65536 - p.1, p.2)
    else if b = 0xd2 then (readBe 4 bs).map fun p => (4294967296 - p.1, p.2)
    else none

theorem readNeg_writeNeg {n : ℕ} (h0 : 0 < n) (h : n ≤ 2 ^ 31) (rest : List UInt8) :
    readNeg (writeNeg n ++ rest) = some (n, rest) := by
  have hsub : ∀ m, n ≤ m → m - (m - n) = n := fun m hm => Nat.sub_sub_self hm
  rw [writeNeg]
  split_ifs with h1 h2 h3
  · have hb : (UInt8.ofNat (256 - n)).toNat = 256 - n := by
      rw [UInt8.toNat_ofNat']
      omega
    simp only [List.singleton_append, readNeg, hb]
    rw [if_pos (by omega), hsub 256 (by omega)]
  · rw [List.cons_append, readNeg, if_neg (by decide)]
    simp [readBe_be (k := 1) (n := 256 - n) (by omega), hsub 256 (by omega)]
  · rw [List.cons_append, readNeg, if_neg (by decide)]
    simp [readBe_be (k := 2) (n := 65536 - n) (by omega), hsub 65536 (by omega)]
  · rw [List.cons_append, readNeg, if_neg (by decide)]
    simp [readBe_be (k := 4) (n := 4294967296 - n) (by omega), hsub 4294967296 (by omega)]

theorem length_writeNeg_le (n : ℕ) : (writeNeg n).length ≤ 5 := by
  rw [writeNeg]
  split_ifs <;> simp

/-- Numbers that are written with `writeNat` are not read as negative ones. -/
theorem readNeg_writeNat {n : ℕ} (rest : List UInt8) : readNeg (writeNat n ++ rest) = none := by
  rw [writeNat]
  split_ifs with h1
  · have hb : (UInt8.ofNat n).toNat = n := by
      rw [UInt8.toNat_ofNat']
      omega
    have h224 : ¬224 ≤ (UInt8.ofNat n).toNat := by omega
    have hne : ∀ b : UInt8, 128 ≤ b.toNat → UInt8.ofNat n ≠ b := by
      rintro b hb' rfl
      omega
    simp only [List.singleton_append, readNeg, if_neg h224, if_neg (hne 0xd0 (by decide)),
      if_neg (hne 0xd1 (by decide)), if_neg (hne 0xd2 (by decide))]
  · rfl
  · rfl
  · rfl

/-- 32-bit signed integers. -/
def sint : Format Int32 where
  write x := if 0 ≤ x.toInt then writeNat x.toInt.toNat else writeNeg x.toInt.natAbs
  read bs :=
    match readNeg bs with
    | some (n, rest) => some (Int32.ofInt (-n), rest)
    | none => (readNat bs).map fun p => (Int32.ofInt p.1, p.2)
  bound := 5
  read_write x rest := by
    have hlt := x.toInt_lt
    have hge := x.le_toInt
    split_ifs with h
    · rw [readNeg_writeNat, readNat_writeNat (by omega)]
      simp only [Option.map_some, Int.toNat_of_nonneg h, Int32.ofInt_toInt]
    · have habs : -(x.toInt.natAbs : ℤ) = x.toInt := by omega
      rw [readNeg_writeNeg (by omega) (by omega)]
      simp only [habs, Int32.ofInt_toInt]
  length_write_le x := by
    split_ifs
    · exact length_writeNat_le _
    · exact length_writeNeg_le _

/-! ## 64-bit numbers -/

/-- The writer of numbers below `2 ^ 64`. -/
def writeNat64 (n : ℕ) : List UInt8 :=
  if n < 4294967296 then writeNat n else 0xcf :: be 8 n

/-- The reader of numbers below `2 ^ 64`. -/
def readNat64 : List UInt8 → Option (ℕ × List UInt8)
  | [] => none
  | b :: bs => if b = 0xcf then readBe 8 bs else readNat (b :: bs)

/-- Narrow numbers start with none of the markers of wide ones. -/
theorem writeNat_eq_cons (n : ℕ) : ∃ b bs, writeNat n = b :: bs ∧ b ≠ 0xcf ∧ b ≠ 0xd3 := by
  rw [writeNat]
  split_ifs with h1
  · have hlt : (UInt8.ofNat n).toNat < 128 := by
      rw [UInt8.toNat_ofNat']
      omega
    refine ⟨_, _, rfl, ?_, ?_⟩
    · intro hb
      exact absurd hlt (by rw [hb]; decide)
    · intro hb
      exact absurd hlt (by rw [hb]; decide)
  · exact ⟨_, _, rfl, by decide, by decide⟩
  · exact ⟨_, _, rfl, by decide, by decide⟩
  · exact ⟨_, _, rfl, by decide, by decide⟩

theorem readNat64_writeNat64 {n : ℕ} (h : n < 2 ^ 64) (rest : List UInt8) :
    readNat64 (writeNat64 n ++ rest) = some (n, rest) := by
  rw [writeNat64]
  split_ifs with h1
  · obtain ⟨b, bs, hb, hne, -⟩ := writeNat_eq_cons n
    have hread := readNat_writeNat (n := n) (by omega) rest
    rw [hb, List.cons_append] at hread ⊢
    rw [readNat64, if_neg hne, hread]
  · exact readBe_be (k := 8) (by omega) rest

theorem length_writeNat64_le (n : ℕ) : (writeNat64 n).length ≤ 9 := by
  have := length_writeNat_le n
  rw [writeNat64]
  split_ifs
  · omega
  · simp

/-- 64-bit unsigned integers. -/
def uint64 : Format UInt64 where
  write x := writeNat64 x.toNat
  read bs := (readNat64 bs).map fun p => (UInt64.ofNat p.1, p.2)
  bound := 9
  read_write x rest := by
    rw [readNat64_writeNat64 x.toNat_lt]
    simp
  length_write_le x := length_writeNat64_le _

/-- Bytes, as numbers. -/
def byte : Format UInt8 where
  write x := writeNat x.toNat
  read bs := (readNat bs).map fun p => (UInt8.ofNat p.1, p.2)
  bound := 5
  read_write x rest := by
    have hlt := x.toNat_lt
    rw [readNat_writeNat (by omega)]
    simp
  length_write_le x := length_writeNat_le _

/-- The writer of negative numbers down to `-2 ^ 63`, from their absolute value. -/
def writeNeg64 (n : ℕ) : List UInt8 :=
  if n ≤ 2147483648 then writeNeg n else 0xd3 :: be 8 (18446744073709551616 - n)

/-- The absolute value of a negative number in front of the bytes. -/
def readNeg64 : List UInt8 → Option (ℕ × List UInt8)
  | [] => none
  | b :: bs =>
    if b = 0xd3 then (readBe 8 bs).map fun p => (18446744073709551616 - p.1, p.2)
    else readNeg (b :: bs)

theorem writeNeg_eq_cons {n : ℕ} (h0 : 0 < n) : ∃ b bs, writeNeg n = b :: bs ∧ b ≠ 0xd3 := by
  rw [writeNeg]
  split_ifs with h1
  · refine ⟨_, _, rfl, ?_⟩
    intro hb
    have htoNat := congrArg UInt8.toNat hb
    rw [UInt8.toNat_ofNat', show (0xd3 : UInt8).toNat = 211 from rfl] at htoNat
    omega
  · exact ⟨_, _, rfl, by decide⟩
  · exact ⟨_, _, rfl, by decide⟩
  · exact ⟨_, _, rfl, by decide⟩

theorem readNeg64_writeNeg64 {n : ℕ} (h0 : 0 < n) (h : n ≤ 2 ^ 63) (rest : List UInt8) :
    readNeg64 (writeNeg64 n ++ rest) = some (n, rest) := by
  rw [writeNeg64]
  split_ifs with h1
  · obtain ⟨b, bs, hb, hne⟩ := writeNeg_eq_cons h0
    have hread := readNeg_writeNeg h0 (by omega) rest
    rw [hb, List.cons_append] at hread ⊢
    rw [readNeg64, if_neg hne, hread]
  · have hsub : 18446744073709551616 - (18446744073709551616 - n) = n := Nat.sub_sub_self (by omega)
    rw [List.cons_append, readNeg64, if_pos rfl, readBe_be (by omega), Option.map_some, hsub]

theorem length_writeNeg64_le (n : ℕ) : (writeNeg64 n).length ≤ 9 := by
  have := length_writeNeg_le n
  rw [writeNeg64]
  split_ifs
  · omega
  · simp

theorem readNeg64_writeNat64 {n : ℕ} (rest : List UInt8) :
    readNeg64 (writeNat64 n ++ rest) = none := by
  rw [writeNat64]
  split_ifs with h1
  · obtain ⟨b, bs, hb, -, hne⟩ := writeNat_eq_cons n
    have hread := readNeg_writeNat (n := n) rest
    rw [hb, List.cons_append] at hread ⊢
    rw [readNeg64, if_neg hne, hread]
  · rfl

/-- 64-bit signed integers. -/
def sint64 : Format Int64 where
  write x := if 0 ≤ x.toInt then writeNat64 x.toInt.toNat else writeNeg64 x.toInt.natAbs
  read bs :=
    match readNeg64 bs with
    | some (n, rest) => some (Int64.ofInt (-n), rest)
    | none => (readNat64 bs).map fun p => (Int64.ofInt p.1, p.2)
  bound := 9
  read_write x rest := by
    have hlt := x.toInt_lt
    have hge := x.le_toInt
    split_ifs with h
    · rw [readNeg64_writeNat64, readNat64_writeNat64 (by omega)]
      simp only [Option.map_some, Int.toNat_of_nonneg h, Int64.ofInt_toInt]
    · have habs : -(x.toInt.natAbs : ℤ) = x.toInt := by omega
      rw [readNeg64_writeNeg64 (by omega) (by omega)]
      simp only [habs, Int64.ofInt_toInt]
  length_write_le x := by
    split_ifs
    · exact length_writeNat64_le _
    · exact length_writeNeg64_le _

/-- Booleans. -/
def bool : Format Bool where
  write b := [if b then 0xc3 else 0xc2]
  read
    | [] => none
    | b :: bs => if b = 0xc3 then some (true, bs) else if b = 0xc2 then some (false, bs) else none
  bound := 1
  read_write b rest := by cases b <;> rfl
  length_write_le _ := le_rfl

/-! ## Records -/

namespace Format

variable {α β : Type}

/-- One value after the other. -/
def pair (f : Format α) (g : Format β) : Format (α × β) where
  write p := f.write p.1 ++ g.write p.2
  read bs := (f.read bs).bind fun p => (g.read p.2).map fun q => ((p.1, q.1), q.2)
  bound := f.bound + g.bound
  read_write p rest := by
    rw [List.append_assoc, f.read_write]
    simp [g.read_write]
  length_write_le p := by
    rw [List.length_append]
    exact Nat.add_le_add (f.length_write_le _) (g.length_write_le _)

/-- A value behind a fixed byte, such as the length of a short array. -/
def tagged (tag : UInt8) (f : Format α) : Format α where
  write a := tag :: f.write a
  read
    | [] => none
    | b :: bs => if b = tag then f.read bs else none
  bound := f.bound + 1
  read_write a rest := by
    simp only [List.cons_append, if_true]
    exact f.read_write a rest
  length_write_le a := Nat.succ_le_succ (f.length_write_le a)

/-- Values that are stored as others. -/
def iso (f : Format α) (toFun : β → α) (invFun : α → β) (inv : ∀ b, invFun (toFun b) = b) :
    Format β where
  write b := f.write (toFun b)
  read bs := (f.read bs).map fun p => (invFun p.1, p.2)
  bound := f.bound
  read_write b rest := by
    rw [f.read_write]
    simp [inv]
  length_write_le b := f.length_write_le _

end Format

/-! ## Sequences -/

/-- The header of a sequence: a short one in one byte, else one of two markers. -/
def writeHeader (fix m16 m32 : UInt8) (n : ℕ) : List UInt8 :=
  if n < 16 then [fix + UInt8.ofNat n]
  else if n < 65536 then m16 :: be 2 n
  else m32 :: be 4 n

/-- The reader of such a header. -/
def readHeader (fix m16 m32 : UInt8) : List UInt8 → Option (ℕ × List UInt8)
  | [] => none
  | b :: bs =>
    if b = m16 then readBe 2 bs
    else if b = m32 then readBe 4 bs
    else if fix.toNat ≤ b.toNat ∧ b.toNat < fix.toNat + 16 then some (b.toNat - fix.toNat, bs)
    else none

/-- Markers that no short header uses. -/
structure Markers (fix m16 m32 : UInt8) : Prop where
  room : fix.toNat + 16 ≤ 256
  m16_out : ¬(fix.toNat ≤ m16.toNat ∧ m16.toNat < fix.toNat + 16)
  m32_out : ¬(fix.toNat ≤ m32.toNat ∧ m32.toNat < fix.toNat + 16)
  ne : m32 ≠ m16

theorem readHeader_writeHeader {fix m16 m32 : UInt8} (hm : Markers fix m16 m32) {n : ℕ}
    (h : n < 2 ^ 32) (rest : List UInt8) :
    readHeader fix m16 m32 (writeHeader fix m16 m32 n ++ rest) = some (n, rest) := by
  obtain ⟨hroom, h16, h32, hne⟩ := hm
  rw [writeHeader]
  split_ifs with h1 h2
  · have hb : (fix + UInt8.ofNat n).toNat = fix.toNat + n := by
      rw [UInt8.toNat_add, UInt8.toNat_ofNat']
      omega
    have hn16 : fix + UInt8.ofNat n ≠ m16 := by
      rintro rfl
      omega
    have hn32 : fix + UInt8.ofNat n ≠ m32 := by
      rintro rfl
      omega
    simp only [List.singleton_append, readHeader, if_neg hn16, if_neg hn32, hb]
    rw [if_pos (by omega), Nat.add_sub_cancel_left]
  · simp only [List.cons_append, readHeader, if_true]
    exact readBe_be (by omega) rest
  · simp only [List.cons_append, readHeader, if_neg hne, if_true]
    exact readBe_be (by omega) rest

theorem length_writeHeader_le (fix m16 m32 : UInt8) (n : ℕ) :
    (writeHeader fix m16 m32 n).length ≤ 5 := by
  rw [writeHeader]
  split_ifs <;> simp

section Many

variable {α : Type} (f : Format α)

/-- The items of a sequence, one after the other. -/
def readItems : ℕ → List UInt8 → Option (List α × List UInt8)
  | 0, bs => some ([], bs)
  | n + 1, bs =>
    (f.read bs).bind fun p => (readItems n p.2).map fun q => (p.1 :: q.1, q.2)

theorem readItems_flatMap (l : List α) (rest : List UInt8) :
    readItems f l.length (l.flatMap f.write ++ rest) = some (l, rest) := by
  induction l with
  | nil => rfl
  | cons a l ih =>
    rw [List.length_cons, readItems, List.flatMap_cons, List.append_assoc, f.read_write]
    simp [ih]

/-- A sequence with its header. -/
def writeMany (fix m16 m32 : UInt8) (l : List α) : List UInt8 :=
  writeHeader fix m16 m32 l.length ++ l.flatMap f.write

/-- The reader of a sequence with its header. -/
def readMany (fix m16 m32 : UInt8) (bs : List UInt8) : Option (List α × List UInt8) :=
  (readHeader fix m16 m32 bs).bind fun p => readItems f p.1 p.2

/-- **A sequence is read back.** -/
theorem readMany_writeMany {fix m16 m32 : UInt8} (hm : Markers fix m16 m32) {l : List α}
    (h : l.length < 2 ^ 32) (rest : List UInt8) :
    readMany f fix m16 m32 (writeMany f fix m16 m32 l ++ rest) = some (l, rest) := by
  rw [writeMany, readMany, List.append_assoc, readHeader_writeHeader hm h]
  exact readItems_flatMap f l rest

theorem length_writeMany_le (fix m16 m32 : UInt8) (l : List α) :
    (writeMany f fix m16 m32 l).length ≤ 5 + f.bound * l.length := by
  have hitems : (l.flatMap f.write).length ≤ f.bound * l.length := by
    induction l with
    | nil => simp
    | cons a l ih =>
      have := f.length_write_le a
      rw [List.flatMap_cons, List.length_append, List.length_cons, Nat.mul_succ]
      omega
  have := length_writeHeader_le fix m16 m32 l.length
  rw [writeMany, List.length_append]
  omega

end Many

end Lib.Msgpack
