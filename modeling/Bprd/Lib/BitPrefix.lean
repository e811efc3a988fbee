/-
Module: Bprd.Lib.BitPrefix
Layer: Lib
Purpose: Prefixes of byte strings, counted in bits from the front, as in the prefix notation of network
  addresses. A prefix of full length holds one string; every shorter prefix of a string holds another
  string of the same length, which differs in the last bit.
Imports: Mathlib.Data.Nat.Bitwise
Trusted boundary: none
Main exports: BitPrefix.bit, BitPrefix.Agree, BitPrefix.agree_iff_eq, BitPrefix.flipLast,
  BitPrefix.flipLast_ne, BitPrefix.agree_flipLast
-/
import Mathlib.Data.Nat.Bitwise

namespace BitPrefix

/-- Bit `i` of a byte string, from the front. -/
def bit (bytes : List UInt8) (i : Nat) : Bool := (bytes.getD (i / 8) 0).toNat.testBit (7 - i % 8)

/-- The first n bits agree. -/
def Agree (n : Nat) (as bs : List UInt8) : Prop := ∀ i < n, bit as i = bit bs i

theorem byte_ext {a b : UInt8} (same : ∀ j < 8, a.toNat.testBit j = b.toNat.testBit j) : a = b := by
  apply UInt8.toNat_inj.mp
  apply Nat.eq_of_testBit_eq
  intro j
  by_cases inside : j < 8
  · exact same j inside
  · have wide : 2 ^ 8 ≤ 2 ^ j := Nat.pow_le_pow_right (by decide) (by omega)
    rw [Nat.testBit_lt_two_pow (Nat.lt_of_lt_of_le a.toNat_lt wide),
      Nat.testBit_lt_two_pow (Nat.lt_of_lt_of_le b.toNat_lt wide)]

/-- All bits of two strings of one length agree exactly when the strings are equal. -/
theorem agree_iff_eq {as bs : List UInt8} (sameLength : as.length = bs.length) :
    Agree (8 * as.length) as bs ↔ as = bs := by
  constructor
  · intro agree
    apply List.ext_getElem sameLength
    intro k below belowOther
    apply byte_ext
    intro j inside
    have bits := agree (8 * k + (7 - j)) (by omega)
    have byte : (8 * k + (7 - j)) / 8 = k := by omega
    have position : 7 - (8 * k + (7 - j)) % 8 = j := by omega
    rw [bit, bit, byte, position, List.getD_eq_getElem as 0 below,
      List.getD_eq_getElem bs 0 belowOther] at bits
    exact bits
  · rintro rfl i _
    rfl

/-- The string with its last bit inverted. -/
def flipLast (bytes : List UInt8) : List UInt8 := bytes.modify (bytes.length - 1) (· ^^^ 1)

@[simp] theorem length_flipLast (bytes : List UInt8) : (flipLast bytes).length = bytes.length :=
  List.length_modify ..

theorem testBit_flip (b : UInt8) (j : Nat) :
    (b ^^^ 1).toNat.testBit j = (b.toNat.testBit j ^^ decide (0 = j)) := by
  rw [UInt8.toNat_xor, Nat.testBit_xor]
  congr 1
  exact @Nat.testBit_two_pow 0 j

theorem getElem?_flipLast (bytes : List UInt8) (i : Nat) :
    (flipLast bytes)[i]? =
      bytes[i]?.map fun b => if bytes.length - 1 = i then b ^^^ 1 else b :=
  List.getElem?_modify ..

theorem flipLast_ne {bytes : List UInt8} (nonempty : bytes ≠ []) : flipLast bytes ≠ bytes := by
  intro same
  have below : bytes.length - 1 < bytes.length := by
    have positive := List.length_pos_iff.mpr nonempty
    omega
  have last : (flipLast bytes)[bytes.length - 1]? = bytes[bytes.length - 1]? := by rw [same]
  rw [getElem?_flipLast, List.getElem?_eq_getElem below, Option.map_some, if_pos rfl] at last
  have bit := testBit_flip bytes[bytes.length - 1] 0
  rw [Option.some.inj last, decide_eq_true rfl, Bool.xor_true] at bit
  exact (Bool.eq_not_self _).mp bit

/-- It agrees with the string on every shorter prefix. -/
theorem agree_flipLast {bytes : List UInt8} {n : Nat} (shorter : n < 8 * bytes.length) :
    Agree n bytes (flipLast bytes) := by
  intro i inside
  rw [bit, bit, List.getD_eq_getElem?_getD, List.getD_eq_getElem?_getD, getElem?_flipLast]
  by_cases last : bytes.length - 1 = i / 8
  · have below : i / 8 < bytes.length := by omega
    have notLast : ¬0 = 7 - i % 8 := by omega
    rw [List.getElem?_eq_getElem below, Option.map_some, if_pos last, Option.getD_some,
      Option.getD_some, testBit_flip, decide_eq_false notLast, Bool.xor_false]
  · have untouched : (fun b : UInt8 => if bytes.length - 1 = i / 8 then b ^^^ 1 else b) = id :=
      funext fun _ => if_neg last
    rw [untouched, Option.map_id]
    rfl

end BitPrefix
