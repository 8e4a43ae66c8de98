import Mathlib.Data.List.Basic
import Mathlib.Tactic

/-!
# Tables of records

A `Record` writes values in a fixed number of bytes and reads them back. A table has its records one
after the other, so that record `i` starts at `i` times their size.

* `Record.pair`: two records in one;
* `table`, `readTable`: **a table is read back** (`readTable_table`);
* `table_eq`: what stands before and after record `i`.
-/

namespace Lib

/-- Values that are written in a fixed number of bytes. -/
structure Record (α : Type) where
  size : ℕ
  write : α → List UInt8
  read : List UInt8 → α
  length_write : ∀ a, (write a).length = size
  read_write : ∀ a, read (write a) = a

namespace Record

variable {α β : Type}

/-- One record after the other. -/
def pair (f : Record α) (g : Record β) : Record (α × β) where
  size := f.size + g.size
  write p := f.write p.1 ++ g.write p.2
  read bs := (f.read (bs.take f.size), g.read (bs.drop f.size))
  length_write p := by rw [List.length_append, f.length_write, g.length_write]
  read_write p := by
    rw [List.take_left' (f.length_write p.1), List.drop_left' (f.length_write p.1), f.read_write,
      g.read_write]

variable (f : Record α) (l : List α)

/-- The records of a list, one after the other. -/
def table : List UInt8 := l.flatMap f.write

/-- The first `n` records of a table. -/
def readTable (n : ℕ) (bs : List UInt8) : List α :=
  (List.range n).map fun i => f.read ((bs.drop (i * f.size)).take f.size)

@[simp] theorem length_table : (f.table l).length = l.length * f.size := by
  unfold table
  induction l with
  | nil => simp
  | cons a l ih =>
    rw [List.flatMap_cons, List.length_append, f.length_write, ih, List.length_cons, Nat.succ_mul,
      Nat.add_comm]

/-- Record `i` stands between the first `i` and those after it. -/
theorem table_eq {i : ℕ} (h : i < l.length) :
    f.table l = f.table (l.take i) ++ (f.write l[i] ++ f.table (l.drop (i + 1))) := by
  unfold table
  rw [← List.flatMap_cons, ← List.flatMap_append, List.cons_getElem_drop_succ,
    List.take_append_drop]

/-- **A table is read back.** -/
theorem readTable_table : f.readTable l.length (f.table l) = l := by
  unfold readTable
  refine List.ext_getElem (by simp) fun i h hi => ?_
  have hlen : (f.table (l.take i)).length = i * f.size := by
    rw [length_table, List.length_take, Nat.min_eq_left hi.le]
  rw [List.getElem_map, List.getElem_range, f.table_eq l hi, List.drop_left' hlen,
    List.take_left' (f.length_write _), f.read_write]

end Record

end Lib
