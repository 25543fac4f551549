/-! Doubles as 64-bit patterns, so that every payload of a NaN is kept, and their eight bytes. -/

namespace FormulaCode

structure Double where
  bits : UInt64
  deriving DecidableEq, Repr

namespace Double

def zero : Double := ⟨0⟩

def negative (x : Double) : Bool := Nat.pow 2 63 ≤ x.bits.toNat

def exponentField (x : Double) : Nat := x.bits.toNat / Nat.pow 2 52 % Nat.pow 2 11

def fractionField (x : Double) : Nat := x.bits.toNat % Nat.pow 2 52

def isNaN (x : Double) : Bool := x.exponentField == 2047 && x.fractionField != 0

def isInfinite (x : Double) : Bool := x.exponentField == 2047 && x.fractionField == 0

def toFloat (x : Double) : Float := Float.ofBits x.bits

def ofFloat (x : Float) : Double := ⟨x.toBits⟩

def lowBytes : Nat → Nat → List UInt8
  | 0, _ => []
  | k + 1, n => UInt8.ofNat n :: lowBytes k (n / 256)

def ofLowBytes : List UInt8 → Nat
  | [] => 0
  | b :: bs => b.toNat + 256 * ofLowBytes bs

def bytes (x : Double) : List UInt8 := lowBytes 8 x.bits.toNat

def ofBytes (bs : List UInt8) : Double := ⟨UInt64.ofNat (ofLowBytes bs)⟩

@[simp] theorem length_lowBytes (k n : Nat) : (lowBytes k n).length = k := by
  induction k generalizing n with
  | zero => rfl
  | succ k ih => simp [lowBytes, ih]

@[simp] theorem length_bytes (x : Double) : x.bytes.length = 8 := length_lowBytes ..

theorem ofLowBytes_lowBytes (k n : Nat) : ofLowBytes (lowBytes k n) = n % Nat.pow 256 k := by
  induction k generalizing n with
  | zero => simp [lowBytes, ofLowBytes, Nat.mod_one]
  | succ k ih =>
    have hk : Nat.pow 256 (k + 1) = 256 * Nat.pow 256 k := Nat.mul_comm ..
    rw [lowBytes, ofLowBytes, ih, hk, Nat.mod_mul]
    simp

@[simp] theorem ofBytes_bytes (x : Double) : ofBytes x.bytes = x := by
  have h : x.bits.toNat % Nat.pow 256 8 = x.bits.toNat := Nat.mod_eq_of_lt x.bits.toNat_lt
  rw [ofBytes, bytes, ofLowBytes_lowBytes, h, UInt64.ofNat_toNat]

theorem ofLowBytes_lt (bs : List UInt8) : ofLowBytes bs < Nat.pow 256 bs.length := by
  induction bs with
  | nil => simp [ofLowBytes]
  | cons b bs ih =>
    have hb := b.toNat_lt
    have hp : Nat.pow 256 (bs.length + 1) = Nat.pow 256 bs.length * 256 := rfl
    rw [ofLowBytes, List.length_cons, hp]
    omega

theorem lowBytes_ofLowBytes (bs : List UInt8) : lowBytes bs.length (ofLowBytes bs) = bs := by
  induction bs with
  | nil => rfl
  | cons b bs ih =>
    have hb := b.toNat_lt
    have hd : (b.toNat + 256 * ofLowBytes bs) / 256 = ofLowBytes bs := by omega
    have hm : UInt8.ofNat (b.toNat + 256 * ofLowBytes bs) = b := by
      apply UInt8.toNat_inj.1
      simp
    rw [List.length_cons, ofLowBytes, lowBytes, hd, ih, hm]

theorem bytes_ofBytes {bs : List UInt8} (h : bs.length = 8) : (ofBytes bs).bytes = bs := by
  have hlt := ofLowBytes_lt bs
  have hb := lowBytes_ofLowBytes bs
  rw [h] at hlt hb
  rw [bytes, ofBytes, UInt64.toNat_ofNat_of_lt' hlt, hb]

end Double

end FormulaCode
