/-!
# Binary floating point

The bits of a number read as a sign and `m · 2 ^ q`, for any widths of the fraction and the
exponent. Infinities and bits that are no number are told apart first.
-/

set_option autoImplicit false

namespace PullStream

structure BinaryFormat where
  fractionBits : Nat
  exponentBits : Nat
deriving DecidableEq, Repr

def binary32 : BinaryFormat := ⟨23, 8⟩

def binary64 : BinaryFormat := ⟨52, 11⟩

inductive Magnitude where
  | notNumber
  | infinite
  | finite (m : Nat) (q : Int)
deriving DecidableEq, Repr

namespace BinaryFormat

def fraction (f : BinaryFormat) (bits : Nat) : Nat := bits % Nat.pow 2 f.fractionBits

def exponent (f : BinaryFormat) (bits : Nat) : Nat :=
  bits / Nat.pow 2 f.fractionBits % Nat.pow 2 f.exponentBits

def negative (f : BinaryFormat) (bits : Nat) : Bool :=
  bits / Nat.pow 2 (f.fractionBits + f.exponentBits) % 2 = 1

/-- The exponent of the last binary place of the smallest numbers. -/
def lowest (f : BinaryFormat) : Int :=
  2 - Nat.pow 2 (f.exponentBits - 1) - f.fractionBits

def magnitude (f : BinaryFormat) (bits : Nat) : Magnitude :=
  let e := f.exponent bits
  if e = Nat.pow 2 f.exponentBits - 1 then
    if f.fraction bits = 0 then .infinite else .notNumber
  else if e = 0 then .finite (f.fraction bits) f.lowest
  else .finite (Nat.pow 2 f.fractionBits + f.fraction bits) (f.lowest + (e - 1 : Nat))

end BinaryFormat

/-- Sums and products of 64-bit numbers. Of operands that are no numbers the first is handed on,
made quiet; an operation without a result gives the indefinite one. -/
structure Real64 where
  bits : UInt64
deriving DecidableEq, Repr

namespace Real64

def isNumber (x : Real64) : Bool := binary64.magnitude x.bits.toNat != .notNumber

def quiet (x : Real64) : Real64 := ⟨x.bits ||| 0x0008000000000000⟩

def indefinite : Real64 := ⟨0xfff8000000000000⟩

def operate (f : Float → Float → Float) (x y : Real64) : Real64 :=
  if !x.isNumber then x.quiet
  else if !y.isNumber then y.quiet
  else
    let r : Real64 := ⟨(f (.ofBits x.bits) (.ofBits y.bits)).toBits⟩
    if r.isNumber then r else indefinite

instance : Add Real64 := ⟨operate (· + ·)⟩

instance : Mul Real64 := ⟨operate (· * ·)⟩

end Real64

end PullStream
