/-
  Binary64 numbers as their 64 bits.

  Annotations and schema keywords only store such numbers, compare them, and ask whether they
  are finite, so the bits themselves are the value: a sign, eleven bits of exponent, 52 bits of
  fraction. `Double.ofInt` is the nearest double of an integer, a half going to the even
  significand.
-/

namespace TypeSchema

structure Double where
  bits : UInt64
deriving DecidableEq, Inhabited

namespace Double

def fraction (x : Double) : Nat := x.bits.toNat % (1 <<< 52)

/-- The exponent field, biased by 1023. -/
def exponent (x : Double) : Nat := (x.bits.toNat >>> 52) % 2048

def isNegative (x : Double) : Bool := 1 <<< 63 ≤ x.bits.toNat

/-- An exponent field of all ones marks the infinities and the numbers that are not one. -/
def isFinite (x : Double) : Bool := x.exponent ≠ 2047

def isNaN (x : Double) : Bool := x.exponent = 2047 && x.fraction ≠ 0

/-- Zero of either sign. -/
def isZero (x : Double) : Bool := x.exponent = 0 && x.fraction = 0

/-- Numeric equality: the two zeros are equal, and a NaN equals nothing. -/
def numEq (x y : Double) : Bool :=
  !x.isNaN && !y.isNaN && (x == y || x.isZero && y.isZero)

def nan : Double := ⟨0x7ff8000000000000⟩
def infinity : Double := ⟨0x7ff0000000000000⟩
def negInfinity : Double := ⟨0xfff0000000000000⟩

/-- The greatest finite double. -/
def greatest : Double := ⟨0x7fefffffffffffff⟩
def least : Double := ⟨0xffefffffffffffff⟩

/-- The greatest finite number of single precision, `(2 - 2^(-23)) * 2^127`. -/
def greatestSingle : Double := ⟨0x47efffffe0000000⟩
def leastSingle : Double := ⟨0xc7efffffe0000000⟩

/-! ## Integers -/

/-- The integer nearest to `m / 2^k`, the even one of two. -/
def roundShift (m k : Nat) : Nat :=
  let half := 1 <<< k
  let rest := 2 * (m % half)
  let low := m >>> k
  if half < rest ∨ half = rest ∧ low % 2 = 1 then low + 1 else low

/-- The bits of the double nearest to `n`. A significand rounded up to `2^53` carries into the
exponent field, which is what the next power of two needs. -/
def bitsOfNat (n : Nat) : Nat :=
  if n = 0 then 0
  else if 1024 ≤ n.log2 then 2047 <<< 52
  else
    let significand :=
      if n.log2 ≤ 52 then n <<< (52 - n.log2) else roundShift n (n.log2 - 52)
    ((n.log2 + 1022) <<< 52) + significand

def ofInt (i : Int) : Double :=
  let magnitude := bitsOfNat i.natAbs
  ⟨UInt64.ofNat (if i < 0 then (1 <<< 63) + magnitude else magnitude)⟩

-- Above `2^53` every second integer is a double, and the even significand wins at both parities.
example : ofInt 9007199254740993 = ofInt 9007199254740992 ∧
    ofInt 9007199254740995 = ofInt 9007199254740996 := by decide

end Double

end TypeSchema
