/-!
# Doubles in exact arithmetic

A finite double is a natural number below `2 ^ 53` times a power of two. Every double built here is
in normal form: the exponent is the least one the mantissa allows, so equal numbers of one sign are
equal terms. Reading a decimal rounds the exact quotient once, to nearest, a half to even.
-/
namespace EnvCompose.Decimal

/-- A signed multiple of a power of two, an infinity, or not a number. -/
inductive Binary64 where
  | nan
  | infinite (negative : Bool)
  | finite (negative : Bool) (mantissa : Nat) (exponent : Int)
  deriving DecidableEq, Repr, Inhabited

namespace Binary64

def minExponent : Int := -1074

def maxExponent : Int := 971

def zero (negative : Bool) : Binary64 := .finite negative 0 minExponent

def isZero : Binary64 → Bool
  | .finite _ m _ => m == 0
  | _ => false

def isFinite : Binary64 → Bool
  | .finite .. => true
  | _ => false

/-- Numbers are the same if they are equal terms or both zero, whatever the signs. -/
def same (a b : Binary64) : Bool := a == b || (a.isZero && b.isZero)

theorem same_refl (a : Binary64) : a.same a = true := by simp [same]

theorem same_comm (a b : Binary64) : a.same b = b.same a := by
  simp only [same, Bool.and_comm, Bool.beq_comm]

/-- The quotient to the nearest natural number, a half to the even one. -/
def roundDiv (num den : Nat) : Nat :=
  let q := num / den
  let r := num % den
  if 2 * r > den || (2 * r == den && q % 2 == 1) then q + 1 else q

/-- The quotient of `num` and `den * 2 ^ e`, as numerator and denominator. -/
def scale (num den : Nat) (e : Int) : Nat × Nat :=
  if e < 0 then (num * Nat.pow 2 e.natAbs, den) else (num, den * Nat.pow 2 e.natAbs)

/-- The exponent at which the quotient has 53 binary digits, or the least exponent there is. -/
def exponentOf (num den : Nat) : Int :=
  let guess : Int := (num.log2 : Int) - den.log2 - 53
  let (n, d) := scale num den guess
  max minExponent (if n / d < Nat.pow 2 53 then guess else guess + 1)

/-- The double nearest to `num / den`. -/
def ofRatio (negative : Bool) (num den : Nat) : Binary64 :=
  if num = 0 then zero negative else
  let e := exponentOf num den
  let (n, d) := scale num den e
  let m := roundDiv n d
  let (m, e) := if m = Nat.pow 2 53 then (Nat.pow 2 52, e + 1) else (m, e)
  if e > maxExponent then .infinite negative else .finite negative m e

def digitCount (n : Nat) : Nat := if n = 0 then 0 else (Nat.toDigits 10 n).length

/-- The double nearest to `digits * 10 ^ exponent`. Far outside the range of doubles the answer is
known from the count of digits, and no power is formed. -/
def ofDecimal (negative : Bool) (digits : Nat) (exponent : Int) : Binary64 :=
  let size : Int := digitCount digits + exponent
  if digits = 0 || size < -400 then zero negative
  else if size > 400 then .infinite negative
  else if exponent < 0 then ofRatio negative digits (Nat.pow 10 exponent.natAbs)
  else ofRatio negative (digits * Nat.pow 10 exponent.natAbs) 1

end EnvCompose.Decimal.Binary64
