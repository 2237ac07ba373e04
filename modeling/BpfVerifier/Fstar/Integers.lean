import BpfVerifier.Fstar.Semantics

/-!
# Fstar/Integers — `BPF.Integers`, the integer model of the source-level layer

Arithmetic on 64- and 32-bit words as BPF has it: it wraps, a division by zero gives 0, a remainder
by zero the dividend, and a shift takes its amount modulo the width.
-/

namespace BpfVerifier.Fstar

/-! ## 64-bit words -/

def add64 (a b : BitVec 64) : BitVec 64 := a + b

def sub64 (a b : BitVec 64) : BitVec 64 := a - b

def mul64 (a b : BitVec 64) : BitVec 64 := a * b

def div64 (a b : BitVec 64) : BitVec 64 := if b = 0 then 0 else a / b

def mod64 (a b : BitVec 64) : BitVec 64 := if b = 0 then a else a % b

def and64 (a b : BitVec 64) : BitVec 64 := a &&& b

def or64 (a b : BitVec 64) : BitVec 64 := a ||| b

def xor64 (a b : BitVec 64) : BitVec 64 := a ^^^ b

def neg64 (a : BitVec 64) : BitVec 64 := sub64 0 a

def shl64 (a s : BitVec 64) : BitVec 64 :=
  let masked := s.toNat % 64
  a <<< masked

def shr64 (a s : BitVec 64) : BitVec 64 :=
  let masked := s.toNat % 64
  a >>> masked

/-! ## 32-bit words -/

def add32 (a b : BitVec 32) : BitVec 32 := a + b

def sub32 (a b : BitVec 32) : BitVec 32 := a - b

def mul32 (a b : BitVec 32) : BitVec 32 := a * b

def div32 (a b : BitVec 32) : BitVec 32 := if b = 0 then 0 else a / b

def mod32 (a b : BitVec 32) : BitVec 32 := if b = 0 then a else a % b

def and32 (a b : BitVec 32) : BitVec 32 := a &&& b

def or32 (a b : BitVec 32) : BitVec 32 := a ||| b

def xor32 (a b : BitVec 32) : BitVec 32 := a ^^^ b

def neg32 (a : BitVec 32) : BitVec 32 := sub32 0 a

def shl32 (a s : BitVec 32) : BitVec 32 :=
  let masked := s.toNat % 32
  a <<< masked

def shr32 (a s : BitVec 32) : BitVec 32 :=
  let masked := s.toNat % 32
  a >>> masked

/-- Zero-extend a 32-bit word. -/
def zext32_64 (a : BitVec 32) : BitVec 64 := a.setWidth 64

/-- The low half of a 64-bit word. -/
def trunc64_32 (a : BitVec 64) : BitVec 32 := a.setWidth 32

@[simp] theorem toNat_zext32_64 (a : BitVec 32) : (zext32_64 a).toNat = a.toNat :=
  BitVec.toNat_setWidth_of_le (by decide)

@[simp] theorem toNat_trunc64_32 (a : BitVec 64) : (trunc64_32 a).toNat = a.toNat % 2 ^ 32 :=
  BitVec.toNat_setWidth ..

theorem zext32_64_lt (a : BitVec 32) : (zext32_64 a).toNat < 2 ^ 32 := by
  rw [toNat_zext32_64]
  exact a.isLt

/-- Zero-extending and truncating gives the word back. -/
@[simp] theorem trunc64_32_zext32_64 (a : BitVec 32) : trunc64_32 (zext32_64 a) = a := by
  apply BitVec.eq_of_toNat_eq
  rw [toNat_trunc64_32, toNat_zext32_64, Nat.mod_eq_of_lt a.isLt]

/-- Truncating and zero-extending gives back what fits in 32 bits. -/
theorem zext32_64_trunc64_32 {a : BitVec 64} :
    zext32_64 (trunc64_32 a) = a ↔ a.toNat < 2 ^ 32 := by
  constructor
  · intro h
    rw [← h]
    exact zext32_64_lt _
  · intro h
    apply BitVec.eq_of_toNat_eq
    rw [toNat_zext32_64, toNat_trunc64_32, Nat.mod_eq_of_lt h]

/-! ## The operations the executor shares with it -/

/-- The integer function an ALU operation of the executor stands for, on 64-bit words. -/
def int64 : AluOp → Option (BitVec 64 → BitVec 64 → BitVec 64)
  | .add => some add64
  | .sub => some sub64
  | .mul => some mul64
  | .div => some div64
  | .mod => some mod64
  | .or => some or64
  | .and => some and64
  | .xor => some xor64
  | .neg => some fun a _ => neg64 a
  | .lsh => some shl64
  | .rsh => some shr64
  | .mov | .arsh => none

/-- The same, on 32-bit words. -/
def int32 : AluOp → Option (BitVec 32 → BitVec 32 → BitVec 32)
  | .add => some add32
  | .sub => some sub32
  | .mul => some mul32
  | .div => some div32
  | .mod => some mod32
  | .or => some or32
  | .and => some and32
  | .xor => some xor32
  | .neg => some fun a _ => neg32 a
  | .lsh => some shl32
  | .rsh => some shr32
  | .mov | .arsh => none

end BpfVerifier.Fstar
