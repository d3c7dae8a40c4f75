import CodeEditor.Foundation.Bytes
import CodeEditor.Foundation.Text

/-!
# Base64

Model of `encodeBase64` and `decodeBase64` of `buffer.ts`.
-/

namespace CodeEditor.Streams

open List Nat

def base64Alphabet : String := "ABCDEFGHIJKLMNOPQRSTUVWXYZabcdefghijklmnopqrstuvwxyz0123456789+/"

def base64UrlSafeAlphabet : String :=
  "ABCDEFGHIJKLMNOPQRSTUVWXYZabcdefghijklmnopqrstuvwxyz0123456789-_"

/-- The dictionary's character at an index. -/
def letter (urlSafe : Bool) (index : Nat) : CodeUnit :=
  let dictionary := if urlSafe then base64UrlSafeAlphabet else base64Alphabet
  UInt16.ofNat (dictionary.toList.getD index 'A').toNat

/-- The indices that the encoder looks up, for three bytes at a time. -/
def sextets : Bytes → List Nat
  | a :: b :: c :: rest =>
    a.toNat >>> 2 :: ((a.toNat <<< 4 ||| b.toNat >>> 4) &&& 63) ::
      ((b.toNat <<< 2 ||| c.toNat >>> 6) &&& 63) :: (c.toNat &&& 63) :: sextets rest
  | [a, b] =>
    [a.toNat >>> 2, (a.toNat <<< 4 ||| b.toNat >>> 4) &&& 63, (b.toNat <<< 2) &&& 63]
  | [a] => [a.toNat >>> 2, (a.toNat <<< 4) &&& 63]
  | [] => []

def encodeBase64 (buffer : Bytes) (padded : Bool := true) (urlSafe : Bool := false) : Text :=
  let padding : Text :=
    match padded, buffer.length % 3 with
    | true, 1 => [61, 61]
    | true, 2 => [61]
    | _, _ => []
  (sextets buffer).map (letter urlSafe) ++ padding

/-- The variables of the decoder. -/
structure Decoder where
  building : Nat := 0
  remainder : Fin 4 := 0
  bufi : Nat := 0
  buffer : Bytes

namespace Decoder

/-- `buffer[bufi++] = value`, cut to a byte, and without effect behind the end. -/
def push (d : Decoder) (value : Nat) : Decoder :=
  { d with buffer := d.buffer.set d.bufi (UInt8.ofNat value), bufi := d.bufi + 1 }

def append (d : Decoder) (value : Nat) : Decoder :=
  match d.remainder with
  | 3 => { d.push (d.building ||| value) with remainder := 0 }
  | 2 => { d.push (d.building ||| value >>> 2) with building := value <<< 6, remainder := 3 }
  | 1 => { d.push (d.building ||| value >>> 4) with building := value <<< 4, remainder := 2 }
  | 0 => { d with building := value <<< 2, remainder := 1 }

theorem remainder_append (d : Decoder) (value : Nat) :
    (d.append value).remainder = d.remainder + 1 := by
  unfold append
  split <;> simp_all

/-- `while (remainder > 0) append(0)`. -/
def flush (d : Decoder) : Decoder :=
  if d.remainder = 0 then d else flush (d.append 0)
termination_by (-d.remainder).val
decreasing_by
  rw [remainder_append]
  generalize d.remainder = r at *
  revert r
  decide

end Decoder

/-- The value of a base64 letter of either alphabet. -/
def valueOf (code : Nat) : Option Nat :=
  if 65 ≤ code ∧ code ≤ 90 then some (code - 65)
  else if 97 ≤ code ∧ code ≤ 122 then some (code - 97 + 26)
  else if 48 ≤ code ∧ code ≤ 57 then some (code - 48 + 52)
  else if code = 43 ∨ code = 45 then some 62
  else if code = 47 ∨ code = 95 then some 63
  else none

/-- The decoder's loop; the error is the character of `Unexpected base64 character`. -/
def decodeLoop : Text → Decoder → Except CodeUnit Decoder
  | [], d => .ok d
  | code :: rest, d =>
    match valueOf code.toNat with
    | some value => decodeLoop rest (d.append value)
    | none => if code = 61 then .ok d else .error code

def decodeBase64 (encoded : Text) : Except CodeUnit Bytes :=
  (decodeLoop encoded { buffer := List.replicate (encoded.length * 3 / 4) 0 }).map fun d =>
    d.flush.buffer.take d.bufi

/-! ## Six bits at a time -/

/-- The bytes of groups of four six-bit values; of a last group, the bytes it completes. -/
def bytesOf : List Nat → Bytes
  | v :: w :: x :: y :: rest =>
    UInt8.ofNat (v <<< 2 ||| w >>> 4) :: UInt8.ofNat (w <<< 4 ||| x >>> 2) ::
      UInt8.ofNat (x <<< 6 ||| y) :: bytesOf rest
  | [v, w, x] => [UInt8.ofNat (v <<< 2 ||| w >>> 4), UInt8.ofNat (w <<< 4 ||| x >>> 2)]
  | [v, w] => [UInt8.ofNat (v <<< 2 ||| w >>> 4)]
  | [_] => []
  | [] => []

/-- The bits of the last value that belong to no byte. -/
def unusedBits : List Nat → Nat
  | _ :: _ :: _ :: _ :: rest => unusedBits rest
  | [_, _, x] => x % 4
  | [_, w] => w % 16
  | [_] | [] => 0

theorem shiftLeft_or {a b k : Nat} (small : b < 2 ^ k) : a <<< k ||| b = a * 2 ^ k + b := by
  rw [← shiftLeft_add_eq_or_of_lt small, shiftLeft_eq]

theorem and_63 (a : Nat) : a &&& 63 = a % 64 :=
  and_two_pow_sub_one_eq_mod a 6

theorem bytesOf_sextets (bytes : Bytes) : bytesOf (sextets bytes) = bytes := by
  fun_induction sextets bytes with
  | case1 a b c rest ih =>
    have boundA := a.toNat_lt
    have boundB := b.toNat_lt
    have boundC := c.toNat_lt
    simp only [bytesOf, ih, List.cons.injEq, and_true, UInt8.ofNat_eq_iff_mod_eq_toNat, and_63]
    simp (disch := omega) only [shiftLeft_or]
    omega
  | case2 a b =>
    have boundA := a.toNat_lt
    have boundB := b.toNat_lt
    simp only [bytesOf, List.cons.injEq, and_true, UInt8.ofNat_eq_iff_mod_eq_toNat, and_63]
    simp (disch := omega) only [shiftLeft_or]
    omega
  | case3 a =>
    have boundA := a.toNat_lt
    simp only [bytesOf, List.cons.injEq, and_true, UInt8.ofNat_eq_iff_mod_eq_toNat, and_63]
    simp (disch := omega) only [shiftLeft_or]
    omega
  | case4 => rfl

theorem sextets_bytesOf {vs : List Nat} (small : ∀ v ∈ vs, v < 64)
    (length : vs.length % 4 ≠ 1) (unused : unusedBits vs = 0) : sextets (bytesOf vs) = vs := by
  fun_induction bytesOf vs with
  | case1 v w x y rest ih =>
    rw [forall_mem_cons, forall_mem_cons, forall_mem_cons, forall_mem_cons] at small
    rw [sextets, ih small.2.2.2.2 (by simp at length; omega) unused]
    simp only [List.cons.injEq, and_true, UInt8.toNat_ofNat', and_63]
    simp (disch := omega) only [shiftLeft_or]
    omega
  | case2 | case3 =>
    simp only [forall_mem_cons] at small
    rw [unusedBits] at unused
    simp only [sextets, List.cons.injEq, and_true, UInt8.toNat_ofNat', and_63]
    simp (disch := omega) only [shiftLeft_or]
    omega
  | case4 => simp at length
  | case5 => rfl

theorem valueOf_letter : ∀ urlSafe, ∀ v < 64,
    valueOf (letter urlSafe v).toNat = some v ∧ letter urlSafe v ≠ 61 := by
  decide +kernel

def normalise (unit : CodeUnit) : CodeUnit :=
  if unit = 45 then 43 else if unit = 95 then 47 else unit

theorem letter_of_valueOf {unit : CodeUnit} {v : Nat} (value : valueOf unit.toNat = some v) :
    v < 64 ∧ letter false v = normalise unit := by
  have small : unit.toNat < 123 := by
    unfold valueOf at value
    grind
  have all : ∀ n < 123, ∀ v ∈ valueOf n, v < 64 ∧ letter false v = normalise (UInt16.ofNat n) := by
    decide +kernel
  simpa using all _ small v value

/-! ## The decoder -/

namespace Decoder

/-- What was written before an index stays. -/
theorem take_append {d : Decoder} {n : Nat} (value : Nat) (inside : n ≤ d.bufi) :
    (d.append value).buffer.take n = d.buffer.take n ∧ n ≤ (d.append value).bufi := by
  unfold append
  split <;> simp [push, take_set_of_le, inside, le_succ_of_le]

theorem take_flush {d : Decoder} {n : Nat} (inside : n ≤ d.bufi) :
    d.flush.buffer.take n = d.buffer.take n := by
  fun_induction flush d with
  | case1 => rfl
  | case2 d _ ih =>
    have kept := take_append 0 inside
    rw [ih kept.2, kept.1]

/-- What is written. -/
def written (d : Decoder) : Bytes := d.buffer.take d.bufi

theorem take_set_succ {buffer : Bytes} {n : Nat} (byte : UInt8) (room : n < buffer.length) :
    (buffer.set n byte).take (n + 1) = buffer.take n ++ [byte] := by
  simp [take_add_one, take_set_of_le, room]

/-- Four values from the first state on make a group. -/
theorem written_foldl_append {vs : List Nat} {d : Decoder} (start : d.remainder = 0)
    (room : d.bufi + vs.length * 3 / 4 ≤ d.buffer.length) :
    (vs.foldl append d).written = d.written ++ bytesOf vs := by
  obtain ⟨building, remainder, bufi, buffer⟩ := d
  subst start
  fun_induction bytesOf vs generalizing building bufi buffer with
  | case1 v w x y rest ih =>
    simp only [length_cons] at room
    simp only [foldl_cons, append, push]
    rw [ih _ _ _ (by simp; omega), written, take_set_succ _ (by simp; omega),
      take_set_succ _ (by simp; omega), take_set_succ _ (by omega)]
    simp [written]
  | case2 v w x =>
    simp only [length_cons] at room
    simp only [foldl_cons, foldl_nil, append, push, written]
    rw [take_set_succ _ (by simp; omega), take_set_succ _ (by omega)]
    simp
  | case3 v w =>
    have inside : bufi + 1 ≤ buffer.length := by simpa using room
    exact take_set_succ _ inside
  | case4 | case5 => simp [append, written]

end Decoder

/-- The letters in front of the padding. -/
def body (encoded : Text) : Text :=
  encoded.takeWhile (· ≠ 61)

/-- The values of letters. -/
def Spell : Text → List Nat → Prop :=
  List.Forall₂ fun unit v => valueOf unit.toNat = some v

theorem Spell.normal {text : Text} {vs : List Nat} (spelt : Spell text vs) :
    text.filterMap (valueOf ·.toNat) = vs ∧ (∀ v ∈ vs, v < 64) ∧
      vs.map (letter false) = text.map normalise := by
  induction spelt with
  | nil => simp
  | cons value _ ih =>
    have same := letter_of_valueOf value
    simp_all

theorem decodeLoop_eq_ok {encoded : Text} {d e : Decoder} : decodeLoop encoded d = .ok e ↔
      ∃ vs, Spell (body encoded) vs ∧ vs.foldl Decoder.append d = e := by
  fun_induction decodeLoop encoded d with
  | case1 d => simp [Spell, body]
  | case2 code rest d value read ih =>
    have letter : code ≠ 61 := by
      rintro rfl
      simp [valueOf] at read
    simp [ih, Spell, body, letter, forall₂_cons_left_iff, read]
  | case3 => simp [Spell, body]
  | case4 code rest d read other =>
    simp [Spell, body, other, forall₂_cons_left_iff, read]

theorem decodeBase64_eq_ok {encoded : Text} {bytes : Bytes} :
    decodeBase64 encoded = .ok bytes ↔ ∃ vs, Spell (body encoded) vs ∧ bytesOf vs = bytes := by
  have cut : decodeBase64 encoded = .ok bytes ↔
      ∃ d, decodeLoop encoded { buffer := List.replicate (encoded.length * 3 / 4) 0 } = .ok d ∧
        d.written = bytes := by
    rw [decodeBase64]
    cases decodeLoop encoded _ <;> simp [Except.map, Decoder.take_flush, Decoder.written]
  have loop {vs} (spelt : Spell (body encoded) vs) :=
    @Decoder.written_foldl_append vs { buffer := List.replicate (encoded.length * 3 / 4) 0 } rfl (by
        have shorter : (body encoded).length ≤ encoded.length :=
          ( takeWhile_prefix _).length_le
        rw [spelt.length_eq] at shorter
        simp only [length_replicate]
        omega)
  simp only [cut, decodeLoop_eq_ok]
  constructor
  · rintro ⟨_, ⟨vs, spelt, rfl⟩, rfl⟩
    exact ⟨vs, spelt, (loop spelt).symm⟩
  · rintro ⟨vs, spelt, rfl⟩
    exact ⟨_, ⟨vs, spelt, rfl⟩, loop spelt⟩

theorem sextets_lt (bytes : Bytes) : ∀ v ∈ sextets bytes, v < 64 := by
  have first (a : UInt8) : a.toNat >>> 2 < 64 := by
    have bound := a.toNat_lt
    omega
  fun_induction sextets bytes with
  | case1 | case2 | case3 | case4 => simp_all [and_63, mod_lt]

/-- Decoding undoes encoding. The other way round, what is not padding comes back in the
standard alphabet, where no letter stands alone and the bits behind the last byte are zero. -/
theorem base64_roundTrip :
    (∀ buffer padded urlSafe,
      decodeBase64 (encodeBase64 buffer padded urlSafe) = .ok buffer) ∧
    ∀ encoded buffer, decodeBase64 encoded = .ok buffer →
      (body encoded).length % 4 ≠ 1 →
      unusedBits ((body encoded).filterMap (valueOf ·.toNat)) = 0 →
      encodeBase64 buffer false false = (body encoded).map normalise := by
  constructor
  · intro buffer padded urlSafe
    rw [decodeBase64_eq_ok]
    refine ⟨sextets buffer, ?_, bytesOf_sextets buffer⟩
    have letters := fun v member => valueOf_letter urlSafe v (sextets_lt buffer v member)
    have spelt : Spell ((sextets buffer).map (letter urlSafe)) (sextets buffer) := by
      rw [Spell, forall₂_map_left_iff, forall₂_same]
      exact fun v member => (letters v member).1
    unfold encodeBase64 body
    rw [takeWhile_append_of_pos (by simpa using fun v member => (letters v member).2)]
    split <;> simpa using spelt
  · intro encoded buffer accepted length unused
    obtain ⟨vs, spelt, rfl⟩ := decodeBase64_eq_ok.mp accepted
    obtain ⟨values, small, normal⟩ := spelt.normal
    rw [spelt.length_eq] at length
    rw [values] at unused
    simp [encodeBase64, sextets_bytesOf small length unused, normal]

theorem base64_roundTrip_sample :
    encodeBase64 [251] false false = (body (encodeBase64 [251] true true)).map normalise :=
  base64_roundTrip.2 _ _ (base64_roundTrip.1 [251] true true) (by decide +kernel)
    (by decide +kernel)

end CodeEditor.Streams
