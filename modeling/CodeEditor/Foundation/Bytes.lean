import Mathlib

/-!
# Numbers as bytes

Unsigned numbers in big-endian order, for any number of bytes.
-/

namespace CodeEditor

open List

/-- A sequence of bytes. -/
abbrev Bytes := List UInt8

/-- The last `width` bytes of a number, the most significant first. -/
def bytesBE : (width : Nat) → Nat → Bytes
  | 0, _ => []
  | width + 1, value => bytesBE width (value / 256) ++ [UInt8.ofNat value]

/-- The number that bytes spell, the most significant first. -/
def natBE (bytes : Bytes) : Nat :=
  bytes.foldl (fun value byte => value * 256 + byte.toNat) 0

@[simp] theorem length_bytesBE (width value : Nat) :
    (bytesBE width value).length = width := by
  induction width generalizing value with
  | zero => rfl
  | succ width ih => simp [bytesBE, ih]

@[simp] theorem natBE_nil : natBE [] = 0 := rfl

@[simp] theorem natBE_concat (bytes : Bytes) (byte : UInt8) :
    natBE (bytes ++ [byte]) = natBE bytes * 256 + byte.toNat := by
  simp [natBE]

theorem natBE_bytesBE {width value : Nat} (bounded : value < 256 ^ width) :
    natBE (bytesBE width value) = value := by
  induction width generalizing value with
  | zero =>
    simp only [bytesBE, natBE_nil]
    omega
  | succ width ih =>
    have smaller : value / 256 < 256 ^ width := by
      exact Nat.div_lt_of_lt_mul (by rwa [mul_comm])
    rw [bytesBE, natBE_concat, ih smaller, UInt8.toNat_ofNat']
    omega

theorem bytesBE_natBE (bytes : Bytes) : bytesBE bytes.length (natBE bytes) = bytes := by
  induction bytes using List.reverseRecOn with
  | nil => rfl
  | append_singleton bytes byte ih =>
    have below := byte.toNat_lt
    have last : UInt8.ofNat (natBE bytes * 256 + byte.toNat) = byte := by
      apply UInt8.toNat_inj.mp
      rw [UInt8.toNat_ofNat']
      omega
    rw [length_append, length_singleton, bytesBE, natBE_concat,
      show (natBE bytes * 256 + byte.toNat) / 256 = natBE bytes by omega,
      ih, last]

/-!
## Writing and reading byte arrays at an offset

A writer changes a byte array from an offset on and moves the offset. A reader sees the
bytes behind its offset.
-/

/-- The writer puts the bytes at its offset and moves behind them, where there is room. -/
def Writes (write : Bytes → Nat → Bytes × Nat) (bytes : Bytes) : Prop :=
  ∀ written rest : Bytes, bytes.length ≤ rest.length →
    write (written ++ rest) written.length =
      (written ++ bytes ++ rest.drop bytes.length, (written ++ bytes).length)

namespace Writes

variable {first second : Bytes → Nat → Bytes × Nat} {bytes bytes' : Bytes}

theorem nil : Writes (fun destination offset => (destination, offset)) [] := by
  intro written rest room
  simp

theorem seq (left : Writes first bytes) (right : Writes second bytes') :
    Writes (fun destination offset =>
      second (first destination offset).1 (first destination offset).2) (bytes ++ bytes') := by
  intro written rest room
  rw [length_append] at room
  have rest' : bytes'.length ≤ (rest.drop bytes.length).length := by
    rw [length_drop]
    omega
  simp only
  rw [left written rest (by omega)]
  rw [right (written ++ bytes) _ rest', drop_drop, ← length_append, append_assoc written]

/-- A loop over a list. -/
theorem foldl {α : Type} {write : α → Bytes → Nat → Bytes × Nat} {encode : α → Bytes}
    (each : ∀ a, Writes (write a) (encode a)) (items : List α) :
    Writes (fun destination offset =>
      items.foldl (fun (state : Bytes × Nat) a => write a state.1 state.2)
        (destination, offset)) (items.flatMap encode) := by
  induction items with
  | nil => exact nil
  | cons a items ih => exact (each a).seq ih

/-- An array that is written from its start to its end. -/
theorem whole (writes : Writes first bytes) {size : Nat} (sized : bytes.length = size) :
    (first (List.replicate size 0) 0).1 = bytes := by
  have written := writes [] (List.replicate size 0) (by rw [length_replicate, sized])
  rw [nil_append] at written
  rw [show (0 : Nat) = ([] : Bytes).length from rfl, written, sized]
  simp

end Writes

/-- What is left behind bytes that were read. -/
theorem drop_add_of_drop {source bytes back : Bytes} {offset : Nat}
    (unread : source.drop offset = bytes ++ back) :
    source.drop (offset + bytes.length) = back := by
  rw [← drop_drop, unread, drop_left]

theorem getElem?_of_drop {source bytes : Bytes}
    (unread : source.drop offset = bytes) (index : Nat) :
    source[offset + index]? = bytes[index]? := by
  rw [← unread, getElem?_drop]

end CodeEditor
