import ScriptFold.Number.Binary

/-!
Doubles as 32-bit words: the integer part modulo `2 ^ 32`, where NaN and the infinities count
as zero.
-/

namespace ScriptFold

def toUint32 (x : Float) : UInt32 :=
  if x.isFinite then UInt32.ofInt (Binary.ofFloat x).truncate else 0

def toInt32 (x : Float) : Int32 :=
  (toUint32 x).toInt32

def ofUint32 (w : UInt32) : Float :=
  Float.ofNat w.toNat

def ofInt32 (w : Int32) : Float :=
  Float.ofInt w.toInt

/-- The double nearest to a length, which is a count of 64 bits. -/
def ofLength (length : Nat) : Float :=
  (UInt64.ofNat length).toFloat

end ScriptFold
