/-
Module: Bprd.Lib.Words
Layer: Lib
Purpose: Machine words as bytes: 16-bit words most significant byte first, the order of network protocols,
  and 32-bit words in the order of a host. Reading a written word gives it back on a host of the same
  order; on a host of the other order only a word whose bytes read the same from both ends survives.
Imports: Mathlib.Data.Nat.Bitwise
Trusted boundary: none
Main exports: Words.ByteOrder, Words.encode32, Words.decode32, Words.decode32_encode32,
  Words.Symmetric, Words.decode32_encode32_iff, Words.join16_split16
-/
import Mathlib.Data.Nat.Bitwise

namespace Words

/-- Byte order of a host. -/
inductive ByteOrder where
  | little
  | big
deriving DecidableEq, Repr

/-- A 16-bit word from its high and low byte. -/
def join16 (hi lo : UInt8) : UInt16 := (hi.toUInt16 <<< 8) + lo.toUInt16

theorem toNat_join16 (hi lo : UInt8) : (join16 hi lo).toNat = hi.toNat * 256 + lo.toNat := by
  have hiBound := hi.toNat_lt
  have loBound := lo.toNat_lt
  simp only [join16, UInt16.toNat_add, UInt16.toNat_shiftLeft, UInt8.toNat_toUInt16,
    UInt16.reduceToNat, Nat.reduceMod, Nat.shiftLeft_eq]
  omega

theorem join16_split16 (word : UInt16) : join16 (word >>> 8).toUInt8 word.toUInt8 = word := by
  apply UInt16.toNat_inj.mp
  have bound := word.toNat_lt
  rw [toNat_join16]
  simp only [UInt16.toNat_toUInt8, UInt16.toNat_shiftRight, UInt16.reduceToNat, Nat.reduceMod,
    Nat.shiftRight_eq_div_pow]
  omega

/-- The four bytes of a word, least significant first. -/
def littleEndian32 (word : UInt32) : List UInt8 :=
  [word.toUInt8, (word >>> 8).toUInt8, (word >>> 16).toUInt8, (word >>> 24).toUInt8]

/-- The memory image of a word on a host. -/
def encode32 : ByteOrder → UInt32 → List UInt8
  | .little, word => littleEndian32 word
  | .big, word => (littleEndian32 word).reverse

/-- The word whose bytes are `b₀ … b₃`, least significant first. -/
def join32 (b₀ b₁ b₂ b₃ : UInt8) : UInt32 :=
  b₀.toUInt32 + (b₁.toUInt32 <<< 8) + (b₂.toUInt32 <<< 16) + (b₃.toUInt32 <<< 24)

/-- The word a host reads from memory; 0 when there are not four bytes. -/
def decode32 : ByteOrder → List UInt8 → UInt32
  | .little, b₀ :: b₁ :: b₂ :: b₃ :: _ => join32 b₀ b₁ b₂ b₃
  | .big, b₃ :: b₂ :: b₁ :: b₀ :: _ => join32 b₀ b₁ b₂ b₃
  | _, _ => 0

@[simp] theorem length_encode32 (order : ByteOrder) (word : UInt32) :
    (encode32 order word).length = 4 := by
  cases order <;> rfl

theorem join32_split32 (word : UInt32) :
    join32 word.toUInt8 (word >>> 8).toUInt8 (word >>> 16).toUInt8 (word >>> 24).toUInt8 = word := by
  apply UInt32.toNat_inj.mp
  have bound := word.toNat_lt
  simp only [join32, UInt32.toNat_add, UInt32.toNat_shiftLeft, UInt8.toNat_toUInt32,
    UInt32.toNat_toUInt8, UInt32.toNat_shiftRight, UInt32.reduceToNat, Nat.reduceMod,
    Nat.shiftLeft_eq, Nat.shiftRight_eq_div_pow]
  omega

/-- A host reads back the word it wrote. -/
@[simp] theorem decode32_encode32 (order : ByteOrder) (word : UInt32) (rest : List UInt8) :
    decode32 order (encode32 order word ++ rest) = word := by
  cases order <;> exact join32_split32 word

theorem toNat_join32 (b₀ b₁ b₂ b₃ : UInt8) :
    (join32 b₀ b₁ b₂ b₃).toNat =
      b₀.toNat + b₁.toNat * 256 + b₂.toNat * 65536 + b₃.toNat * 16777216 := by
  have bound₀ := b₀.toNat_lt
  have bound₁ := b₁.toNat_lt
  have bound₂ := b₂.toNat_lt
  have bound₃ := b₃.toNat_lt
  simp only [join32, UInt32.toNat_add, UInt32.toNat_shiftLeft, UInt8.toNat_toUInt32,
    UInt32.reduceToNat, Nat.reduceMod, Nat.shiftLeft_eq]
  omega

theorem join32_inj {a₀ a₁ a₂ a₃ b₀ b₁ b₂ b₃ : UInt8} (same : join32 a₀ a₁ a₂ a₃ = join32 b₀ b₁ b₂ b₃) :
    a₀ = b₀ ∧ a₁ = b₁ ∧ a₂ = b₂ ∧ a₃ = b₃ := by
  have value := congrArg UInt32.toNat same
  rw [toNat_join32, toNat_join32] at value
  simp only [← UInt8.toNat_inj]
  have boundA₀ := a₀.toNat_lt
  have boundA₁ := a₁.toNat_lt
  have boundA₂ := a₂.toNat_lt
  have boundB₀ := b₀.toNat_lt
  have boundB₁ := b₁.toNat_lt
  have boundB₂ := b₂.toNat_lt
  omega

/-- The four bytes of the word read the same from both ends. -/
def Symmetric (word : UInt32) : Prop := (littleEndian32 word).reverse = littleEndian32 word

instance (word : UInt32) : Decidable (Symmetric word) := inferInstanceAs (Decidable (_ = _))

/-- The word that a host of the other order reads. -/
theorem decode32_other {order other : ByteOrder} (differ : order ≠ other) (word : UInt32) :
    decode32 other (encode32 order word) =
      join32 (word >>> 24).toUInt8 (word >>> 16).toUInt8 (word >>> 8).toUInt8 word.toUInt8 := by
  cases order <;> cases other
  · exact absurd rfl differ
  · rfl
  · rfl
  · exact absurd rfl differ

/-- A word passes between two hosts exactly when they have the same order or the word is symmetric. -/
theorem decode32_encode32_iff {order other : ByteOrder} {word : UInt32} :
    decode32 other (encode32 order word) = word ↔ order = other ∨ Symmetric word := by
  by_cases same : order = other
  · subst same
    have whole := decode32_encode32 order word []
    rw [List.append_nil] at whole
    exact iff_of_true whole (.inl rfl)
  · rw [decode32_other same, or_iff_right same]
    constructor
    · intro survives
      obtain ⟨outer, inner, _, _⟩ := join32_inj (survives.trans (join32_split32 word).symm)
      simp [Symmetric, littleEndian32, outer, inner]
    · intro symmetric
      simp only [Symmetric, littleEndian32, List.reverse_cons, List.reverse_nil, List.nil_append,
        List.cons_append, List.cons.injEq] at symmetric
      obtain ⟨outer, inner, _⟩ := symmetric
      have whole := join32_split32 word
      rw [outer, inner] at whole ⊢
      exact whole

end Words
