import StatelessGuest.Base

/-!
# Word and 256-bit arithmetic of the interpreter

The saturating word helpers of the gas computations and the 256-bit operations behind the
arithmetic instructions.
-/

namespace StatelessGuest

/-! ## Words -/

def wordMax : Word := 18446744073709551615

/-- A 256-bit integer as a word, saturating. -/
def satWord (v : U256) : Word := if v >>> 64 ≠ 0 then wordMax else v.setWidth 64

def minWord (a b : Word) : Word := if a < b then a else b

def maxWord (a b : Word) : Word := if b < a then a else b

def addSat (a b : Word) : Word :=
  let s := a + b
  if s < a then wordMax else s

/-- Round up to a multiple of 32, saturating. -/
def ceil32 (v : Word) : Word :=
  let r := v &&& 31
  if r = 0 then v else addSat v (32 - r)

def wordsOf (n : Word) : Word := ceil32 n >>> 5

/-- The low and the high word of a product. -/
def mul64x64 (a b : Word) : Word × Word :=
  (a * b, BitVec.ofNat 64 (a.toNat * b.toNat / 2 ^ 64))

/-- The unsigned quotient; the callers' divisors are not zero. -/
def udiv (a b : Word) : Word := a / b

/-! ## Conversions -/

/-- The 256-bit integer of a word. -/
def u256FromWord (w : Word) : U256 := w.setWidth 256

def u256FitsWord (v : U256) : Bool := v >>> 64 = 0

/-- The 256-bit integer of a big-endian byte string. -/
def u256FromBe (bs : Bytes) : U256 := BitVec.ofNat 256 (beNat bs)

/-- The 32 big-endian bytes of a 256-bit integer. -/
def u256ToBe32 (v : U256) : Bytes := beBytes 32 v.toNat

/-- The low 20 bytes of a 256-bit integer. -/
def toAddressMasked (v : U256) : Address := v.setWidth 160

def addressToU256 (a : Address) : U256 := a.setWidth 256

/-! ## Arithmetic instructions -/

def u256Bool (b : Bool) : U256 := if b then 1 else 0

def u256Div (a b : U256) : U256 := if b = 0 then 0 else a / b

def u256Mod (a b : U256) : U256 := if b = 0 then 0 else a % b

/-- The absolute value of the two's complement reading. -/
def u256Abs (a : U256) : U256 := if a.msb then -a else a

def u256Sdiv (a b : U256) : U256 :=
  if b = 0 then 0
  else
    let q := u256Div (u256Abs a) (u256Abs b)
    if a.msb ^^ b.msb then -q else q

/-- The sign follows the dividend. -/
def u256Smod (a b : U256) : U256 :=
  if b = 0 then 0
  else
    let r := u256Mod (u256Abs a) (u256Abs b)
    if a.msb then -r else r

/-- The sum before reduction is exact. -/
def u256Addmod (a b m : U256) : U256 :=
  if m = 0 then 0 else BitVec.ofNat 256 ((a.toNat + b.toNat) % m.toNat)

/-- The product before reduction is exact. -/
def u256Mulmod (a b m : U256) : U256 :=
  if m = 0 then 0 else BitVec.ofNat 256 ((a.toNat * b.toNat) % m.toNat)

def u256BitLength (a : U256) : Nat := if a = 0 then 0 else a.toNat.log2 + 1

def u256ByteLength (a : U256) : Nat := (u256BitLength a + 7) >>> 3

/-- Square and multiply over the bits from `t` on, `left` of them. -/
def u256ExpLoop (b : U256) : Nat → Nat → U256 → U256 → U256
  | 0, _, result, _ => result
  | left + 1, t, result, base =>
    let result := if b.getLsbD t then result * base else result
    u256ExpLoop b left (t + 1) result (if left = 0 then base else base * base)

def u256Exp (a b : U256) : U256 := u256ExpLoop b (u256BitLength b) 0 1 a

def u256Shl (a : U256) (n : Word) : U256 := if 256 ≤ n then 0 else a <<< n.toNat

def u256Shr (a : U256) (n : Word) : U256 := if 256 ≤ n then 0 else a >>> n.toNat

def u256Sar (a : U256) (n : Word) : U256 :=
  if 256 ≤ n then (if a.msb then -1 else 0) else a.sshiftRight n.toNat

/-- Extend the sign from byte `b`, byte 0 being the lowest. -/
def u256Signextend (b : Word) (x : U256) : U256 :=
  if 31 ≤ b then x
  else
    let t := b.toNat * 8 + 7
    let mask : U256 := -1 <<< (t + 1)
    if x.getLsbD t then x ||| mask else x &&& ~~~mask

/-- Byte `i` of the big-endian encoding, byte 0 being the highest. -/
def u256Byte (i : Word) (x : U256) : Word :=
  if 32 ≤ i then 0 else (x >>> ((31 - i.toNat) * 8)).setWidth 64 &&& 255

/-- Whether the two's complement reading of `a` is below that of `b`. -/
def u256Slt (a b : U256) : Bool := a.slt b

end StatelessGuest
