import StatelessGuest.Evm.Arith

/-!
# The blob gas price

`taylor_exponential` in 256-bit arithmetic. The loop counter is a word, so `2 ^ 64` rounds of
fuel are never used up by a run that returns.
-/

namespace StatelessGuest

/-- One round per Taylor term, until the term is zero; a product past 256 bits traps. -/
def taylorLoop (num den : U256) : Nat → Nat → U256 → U256 → Except Exn U256
  | 0, _, _, _ => .error .outOfFuel
  | fuel + 1, i, acc, out =>
    if acc = 0 then .ok out
    else
      let prod := acc.toNat * num.toNat
      if 2 ^ 256 ≤ prod then .error (.trap 3)
      else
        let di := BitVec.ofNat 256 i * den
        taylorLoop num den fuel (i + 1) (u256Div (BitVec.ofNat 256 prod) di) (out + acc)

def taylorExponential (factor numerator denominator : Word) : Except Exn U256 :=
  let den := u256FromWord denominator
  match taylorLoop (u256FromWord numerator) den (2 ^ 64) 1 (u256FromWord factor * den) 0 with
  | .ok out => .ok (u256Div out den)
  | .error e => .error e

def calculateBlobGasPrice (excessBlobGas : Word) : Except Exn U256 :=
  taylorExponential 1 excessBlobGas 11684671

end StatelessGuest
