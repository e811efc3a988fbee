/-
Module: Bprd.Lib.Buffer
Layer: Lib
Purpose: Bounded writes into fixed-size buffers. A write that does not fit fails; a write that fits changes
  exactly the bytes it covers.
Imports: Mathlib.Data.Vector.Basic
Trusted boundary: none
Main exports: Buffer.write, Buffer.write_isSome_iff, Buffer.toList_write, Buffer.take_write_append,
  Buffer.drop_write, Buffer.slice_write, Buffer.take_write_front
-/
import Mathlib.Data.Vector.Basic

namespace Buffer

variable {β : Type} {size : Nat}

/-- Copy `source` into `buffer` at `offset`. -/
def write (buffer : List.Vector β size) (offset : Nat) (source : List β) :
    Option (List.Vector β size) :=
  if fits : offset + source.length ≤ size then
    some ⟨buffer.toList.take offset ++ source ++ buffer.toList.drop (offset + source.length), by
      simp only [List.length_append, List.length_take, List.length_drop, List.Vector.toList_length]
      omega⟩
  else
    none

variable {buffer buffer' : List.Vector β size} {source : List β} {offset : Nat}

theorem write_isSome_iff : (write buffer offset source).isSome ↔ offset + source.length ≤ size := by
  rw [write]
  split
  · rename_i fits
    exact iff_of_true rfl fits
  · rename_i overrun
    exact iff_of_false Bool.false_ne_true overrun

theorem write_eq_none_iff : write buffer offset source = none ↔ size < offset + source.length := by
  rw [← Option.not_isSome_iff_eq_none, write_isSome_iff]
  exact Nat.not_le

theorem exists_write (fits : offset + source.length ≤ size) :
    ∃ buffer', write buffer offset source = some buffer' :=
  Option.isSome_iff_exists.mp (write_isSome_iff.mpr fits)

theorem fits_of_write (written : write buffer offset source = some buffer') :
    offset + source.length ≤ size := by
  have wrote : (write buffer offset source).isSome := by
    rw [written]
    rfl
  exact write_isSome_iff.mp wrote

theorem toList_write (written : write buffer offset source = some buffer') :
    buffer'.toList =
      buffer.toList.take offset ++ source ++ buffer.toList.drop (offset + source.length) := by
  have fits := fits_of_write written
  rw [write, dif_pos fits] at written
  rw [← Option.some.inj written]
  rfl

/-- Appending behind the first `offset` bytes extends the written part. -/
theorem take_write_append (written : write buffer offset source = some buffer') :
    buffer'.toList.take (offset + source.length) = buffer.toList.take offset ++ source := by
  have fits := fits_of_write written
  have covered : (buffer.toList.take offset ++ source).length = offset + source.length := by
    rw [List.length_append, List.length_take, List.Vector.toList_length]
    omega
  rw [toList_write written, ← covered, List.take_left]

/-- A write leaves everything behind it. -/
theorem drop_write (written : write buffer offset source = some buffer') {k : Nat}
    (behind : offset + source.length ≤ k) : buffer'.toList.drop k = buffer.toList.drop k := by
  have fits := fits_of_write written
  have front : (buffer.toList.take offset ++ source).length = offset + source.length := by
    rw [List.length_append, List.length_take, List.Vector.toList_length]
    omega
  rw [toList_write written, List.drop_append, front, List.drop_drop,
    List.drop_eq_nil_of_le (by omega), List.nil_append, Nat.add_sub_cancel' behind]

/-- What was written is read back. -/
theorem slice_write (written : write buffer offset source = some buffer') :
    (buffer'.toList.drop offset).take source.length = source := by
  have fits := fits_of_write written
  have front : (buffer.toList.take offset).length = offset := by
    rw [List.length_take, List.Vector.toList_length]
    omega
  rw [toList_write written, List.append_assoc]
  nth_rewrite 1 [← front]
  rw [List.drop_left, List.take_left]

/-- A write over the front of what was written leaves the rest of it. -/
theorem take_write_front {front rest : List β} {k : Nat}
    (written : write buffer 0 source = some buffer') (same : front.length = source.length)
    (inside : source.length ≤ k) (before : buffer.toList.take k = front ++ rest) :
    buffer'.toList.take k = source ++ rest := by
  have start : buffer'.toList.take source.length = source := slice_write written
  have behind : buffer'.toList.drop source.length = buffer.toList.drop source.length :=
    drop_write written (Nat.le_of_eq (Nat.zero_add _))
  have tail : (buffer'.toList.take k).drop source.length = rest := by
    rw [List.drop_take, behind, ← List.drop_take, before, ← same, List.drop_left]
  rw [← List.take_append_drop source.length (buffer'.toList.take k), tail, List.take_take,
    Nat.min_eq_left inside, start]

end Buffer
