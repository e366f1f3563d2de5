import Mathlib.Algebra.Field.ZMod
import Mathlib.Tactic.NormNum.Prime
import StatelessGuest.Digest.Words
import StatelessGuest.Lib.CountDown
import StatelessGuest.Lib.Primality
import StatelessGuest.Lib.ShortCurve
import StatelessGuest.Num.P256
import StatelessGuest.Num.Residue

/-!
# Signatures over P-256

The points are in Jacobian coordinates, with limbs as residues. The sum of two multiples is computed
by one ladder over the bits of both factors, and the last test compares the coordinate `x` without
an inversion, with `r` and with `r + n`.

* `p256EcDouble`, `p256EcAddAffine`, `p256EcMul2`, `p256OnCurve`, `p256Verify`.
* `p256P_prime`, `p256N_prime`, `p256Curve`: the curve.
* `Stands`: the limbs of a point.
* `p256EcMul2_yields`: the ladder computes in the group.
* `Signature`, `p256Verify_exact`: the test is the one of ECDSA.
-/

namespace StatelessGuest.Limb

open Lib

/-! ## The code -/

/-- A loop that ran out of fuel. -/
def fuelled {α : Type} : Option α → Except Exn α
  | some a => .ok a
  | none => .error .outOfFuel

def p256N : U256 :=
  ⟨-884452912994769583, -4834901526196019580, -1, -4294967296⟩

def p256B : U256 :=
  ⟨4309448131093880907, 7285987128567378166, -5482079946633869636, 6540974713487397863⟩

def p256Gx : U256 :=
  ⟨-819310685055303018, 8575836109218198432, -523289583788211982, 7716867327612699207⟩

def p256Gy : U256 :=
  ⟨-3767753221892779531, 3156516839386865358, -8149286295562117610, 5756518291402817435⟩

def p256FpAdd (a b : U256) : U256 := modAdd a b p256P

def p256FpSub (a b : U256) : U256 := modSub a b p256P

def p256SetInfinity : Coords U256 := ⟨⟨1, 0, 0, 0⟩, ⟨1, 0, 0, 0⟩, .zero⟩

def p256SetAffine (x y : U256) : Coords U256 := ⟨x, y, ⟨1, 0, 0, 0⟩⟩

/-- The double, for a curve with `a = -3`. -/
def p256EcDouble (fuel : Nat) (pt : Coords U256) : Except Exn (Coords U256) :=
  if pt.z.IsZero then .ok pt
  else if pt.y.IsZero then .ok p256SetInfinity
  else do
    let delta ← fuelled (p256FpSqr fuel pt.z)
    let gamma ← fuelled (p256FpSqr fuel pt.y)
    let beta ← fuelled (p256FpMul fuel pt.x gamma)
    let t1 := p256FpSub pt.x delta
    let t2 := p256FpAdd pt.x delta
    let alpha ← fuelled (p256FpMul fuel t1 t2)
    let alpha2 := p256FpAdd alpha alpha
    let alpha := p256FpAdd alpha2 alpha
    let x3 ← fuelled (p256FpSqr fuel alpha)
    let b4 := p256FpAdd beta beta
    let b4 := p256FpAdd b4 b4
    let b8 := p256FpAdd b4 b4
    let x3 := p256FpSub x3 b8
    let z3 ← fuelled (p256FpSqr fuel (p256FpAdd pt.y pt.z))
    let z3 := p256FpSub z3 gamma
    let z3 := p256FpSub z3 delta
    let y3 ← fuelled (p256FpMul fuel alpha (p256FpSub b4 x3))
    let g2 ← fuelled (p256FpSqr fuel gamma)
    let g2 := p256FpAdd g2 g2
    let g2 := p256FpAdd g2 g2
    let g2 := p256FpAdd g2 g2
    return ⟨x3, p256FpSub y3 g2, z3⟩

/-- The sum with a point in affine coordinates. -/
def p256EcAddAffine (fuel : Nat) (pt : Coords U256) (ax ay : U256) : Except Exn (Coords U256) :=
  if pt.z.IsZero then .ok (p256SetAffine ax ay)
  else do
    let z1z1 ← fuelled (p256FpSqr fuel pt.z)
    let u2 ← fuelled (p256FpMul fuel ax z1z1)
    let s2 ← fuelled (p256FpMul fuel pt.z z1z1)
    let s2 ← fuelled (p256FpMul fuel ay s2)
    if u2 = pt.x then
      if (p256FpAdd s2 pt.y).IsZero then return p256SetInfinity
      else p256EcDouble fuel pt
    else
      let h := p256FpSub u2 pt.x
      let rr := p256FpSub s2 pt.y
      let hh ← fuelled (p256FpSqr fuel h)
      let hhh ← fuelled (p256FpMul fuel h hh)
      let v ← fuelled (p256FpMul fuel pt.x hh)
      let x3 ← fuelled (p256FpSqr fuel rr)
      let x3 := p256FpSub x3 hhh
      let x3 := p256FpSub x3 (p256FpAdd v v)
      let y3 ← fuelled (p256FpMul fuel rr (p256FpSub v x3))
      let t ← fuelled (p256FpMul fuel pt.y hhh)
      let z3 ← fuelled (p256FpMul fuel pt.z h)
      return ⟨x3, p256FpSub y3 t, z3⟩

/-- `if bit == 1`. -/
def p256EcAddBit (fuel : Nat) (bit : Word) (out : Coords U256) (ax ay : U256) :
    Except Exn (Coords U256) :=
  if bit = 1 then p256EcAddAffine fuel out ax ay else .ok out

/-- One bit of both factors: a double and up to two sums. -/
def p256EcMul2Step (fuel : Nat) (k1 ax ay k2 bx bY : U256) (i : Nat) (out : Coords U256) :
    Except Exn (Coords U256) := do
  let out ← p256EcDouble fuel out
  let out ← p256EcAddBit fuel (u256Bit k1 (BitVec.ofNat 64 i)) out ax ay
  p256EcAddBit fuel (u256Bit k2 (BitVec.ofNat 64 i)) out bx bY

/-- `k1` times a point plus `k2` times another one. -/
def p256EcMul2 (fuel : Nat) (k1 ax ay k2 bx bY : U256) : Except Exn (Coords U256) :=
  let len1 := u256BitLength k1
  let len2 := u256BitLength k2
  countDown (p256EcMul2Step fuel k1 ax ay k2 bx bY) (max len1.toNat len2.toNat) p256SetInfinity

def p256OnCurve (fuel : Nat) (x y : U256) : Except Exn Bool := do
  let l ← fuelled (p256FpSqr fuel y)
  let r ← fuelled (p256FpSqr fuel x)
  let r ← fuelled (p256FpMul fuel r x)
  let x3 := p256FpAdd x x
  let x3 := p256FpAdd x3 x
  let r := p256FpSub r x3
  let r := p256FpAdd r p256B
  return l == r

/-- `R.x mod n = r`: the coordinate `x` of the point is `r`, or `r + n` where that is below `p`. -/
def p256CompareX (fuel : Nat) (r : U256) (pr : Coords U256) : Except Exn Bool := do
  let z2 ← fuelled (p256FpSqr fuel pr.z)
  let t ← fuelled (p256FpMul fuel r z2)
  if t = pr.x then return true
  else
    let rn := u256AddCarry r p256N
    if rn.2 = 1 then return false
    else if u256Lt rn.1 p256P then do
      let t ← fuelled (p256FpMul fuel rn.1 z2)
      return t == pr.x
    else return false

/-- The part of the verification that follows the tests of the arguments; `e` is the hash. -/
def p256Recombine (fuel ws : Nat) (e r s qx qy : U256) (c : Cells) : Except Exn (Bool × Cells) := do
  let e := if u256Lt e p256N then e else u256Sub e p256N
  let sinv ← fuelled (modinvBin fuel s p256N)
  let (u1, c) ← u256Mulmod fuel ws e sinv p256N c
  let (u2, c) ← u256Mulmod fuel ws r sinv p256N c
  let pr ← p256EcMul2 fuel u1 p256Gx p256Gy u2 qx qy
  if pr.z.IsZero then return (false, c)
  else do
    let ok ← p256CompareX fuel r pr
    return (ok, c)

/-- A program on values within one on memory. -/
def onValues {α : Type} (x : Except Exn α) : Digest.MemM α :=
  match x with
  | .ok a => return a
  | .error e => throw e

/-- The verification; the cells are the scratch area of the division. -/
def p256Verify [Stray] (fuel ws hash32 : Nat) (r s qx qy : U256) (c : Cells) :
    Digest.MemM (Bool × Cells) :=
  if r.IsZero then return (false, c)
  else if ¬u256Lt r p256N then return (false, c)
  else if s.IsZero then return (false, c)
  else if ¬u256Lt s p256N then return (false, c)
  else if ¬u256Lt qx p256P then return (false, c)
  else if ¬u256Lt qy p256P then return (false, c)
  else if (qx.l0 ||| qx.l1 ||| qx.l2 ||| qx.l3 ||| qy.l0 ||| qy.l1 ||| qy.l2 ||| qy.l3) = 0 then
    return (false, c)
  else do
    if ← onValues (p256OnCurve fuel qx qy) then
      let e ← Digest.u256FromBe hash32 32
      onValues (p256Recombine fuel ws e r s qx qy c)
    else return (false, c)

/-! ## The primes -/

theorem p256_certificates :
    certificate 34282281433 2 [204061199] ∧ certificate 46076956964474543 2 [78283, 704251] ∧
      certificate 774023187263532362759620327192479577272145303 2
        [46076956964474543, 34282281433] ∧
      certificate 835945042244614951780389953367877943453916927241 2
        [774023187263532362759620327192479577272145303] ∧
      certificate p256P.toNat 2 [835945042244614951780389953367877943453916927241] := by
  decide +kernel

theorem p256P_prime : p256P.toNat.Prime := by
  obtain ⟨c35, c56, c149, c160, c256⟩ := p256_certificates
  have h35 := prime_of_certificate 2 _ (List.forall_mem_singleton.mpr (by norm_num)) c35
  have h56 := prime_of_certificate 2 _
    (List.forall_mem_cons.mpr ⟨by norm_num, List.forall_mem_singleton.mpr (by norm_num)⟩) c56
  have h149 := prime_of_certificate 2 _
    (List.forall_mem_cons.mpr ⟨h56, List.forall_mem_singleton.mpr h35⟩) c149
  have h160 := prime_of_certificate 2 _ (List.forall_mem_singleton.mpr h149) c160
  exact prime_of_certificate 2 _ (List.forall_mem_singleton.mpr h160) c256

theorem p256_order_certificates :
    certificate 191039911 2 [155317] ∧ certificate 208150935158385979 2 [191039911, 3023] ∧
      certificate 2624747550333869278416773953 2 [208150935158385979] ∧
      certificate 1002328039319 2 [3969899] ∧
      certificate p256N.toNat 2 [2624747550333869278416773953, 1002328039319] := by
  decide +kernel

theorem p256N_prime : p256N.toNat.Prime := by
  obtain ⟨c28, c58, c91, c40, c256⟩ := p256_order_certificates
  have h28 := prime_of_certificate 2 _ (List.forall_mem_singleton.mpr (by norm_num)) c28
  have h58 := prime_of_certificate 2 _
    (List.forall_mem_cons.mpr ⟨h28, List.forall_mem_singleton.mpr (by norm_num)⟩) c58
  have h91 := prime_of_certificate 2 _ (List.forall_mem_singleton.mpr h58) c91
  have h40 := prime_of_certificate 2 _ (List.forall_mem_singleton.mpr (by norm_num)) c40
  exact prime_of_certificate 2 _
    (List.forall_mem_cons.mpr ⟨h91, List.forall_mem_singleton.mpr h40⟩) c256

instance : Fact p256P.toNat.Prime := ⟨p256P_prime⟩

instance : Fact p256N.toNat.Prime := ⟨p256N_prime⟩

/-! ## Residues -/

section

variable {F : Type} [Field F] [CharP F p256P.toNat] {fuel : Nat} {a b : U256} {x y : F}

theorem p256P_pos : 1 < p256P.toNat := p256P_prime.one_lt

theorem yields_mul_of_lt (hfuel : 9 ≤ fuel) (a b : U256) :
    Yields (fuelled (p256FpMul fuel a b)) fun r =>
      Residue p256P r ((a.toNat * b.toNat : Nat) : F) := by
  obtain ⟨⟨r, hrun, -, hr⟩, -⟩ := p256_multiplication a b hfuel
  rw [hrun]
  exact .ok (residue_of_mod (Nat.lt_trans Nat.zero_lt_one p256P_pos) hr)

theorem yields_mul (hfuel : 9 ≤ fuel) (ha : Residue p256P a x) (hb : Residue p256P b y) :
    Yields (fuelled (p256FpMul fuel a b)) fun r => Residue p256P r (x * y) := by
  refine (yields_mul_of_lt hfuel a b).imp fun r hr => hr.congr ?_
  rw [Nat.cast_mul, ha.2, hb.2]

theorem yields_sqr (hfuel : 9 ≤ fuel) (ha : Residue p256P a x) :
    Yields (fuelled (p256FpSqr fuel a)) fun r => Residue p256P r (x ^ 2) := by
  rw [(p256_multiplication a a hfuel).2.1, sq]
  exact yields_mul hfuel ha ha

theorem residue_add (ha : Residue p256P a x) (hb : Residue p256P b y) :
    Residue p256P (p256FpAdd a b) (x + y) := ha.add hb

theorem residue_sub (ha : Residue p256P a x) (hb : Residue p256P b y) :
    Residue p256P (p256FpSub a b) (x - y) := ha.sub hb

/-! ## Points -/

variable {E : ShortCurve F}

/-- The limbs of three coordinates. -/
structure Coordinates (pt : Coords U256) (q : Coords F) : Prop where
  x : Residue p256P pt.x q.x
  y : Residue p256P pt.y q.y
  z : Residue p256P pt.z q.z

omit [CharP F p256P.toNat] in
theorem coordinates {a b c : U256} {x y z : F} (hx : Residue p256P a x) (hy : Residue p256P b y)
    (hz : Residue p256P c z) : Coordinates ⟨a, b, c⟩ ⟨x, y, z⟩ := ⟨hx, hy, hz⟩

/-- The limbs stand for the point. -/
def Stands (pt : Coords U256) (P : E.Point) : Prop :=
  ∃ q : Coords F, Coordinates pt q ∧ E.Jacobian q P

/-- The limbs are affine coordinates of the point. -/
structure StandsAffine (ax ay : U256) (P : E.Point) : Prop where
  ltX : ax.toNat < p256P.toNat
  ltY : ay.toNat < p256P.toNat
  affine : E.Affine (ax.toNat : F) (ay.toNat : F) P

variable [DecidableEq F] {pt : Coords U256} {ax ay : U256} {P Q : E.Point}

omit [CharP F p256P.toNat] [DecidableEq F] in
theorem stands_infinity : Stands p256SetInfinity (0 : E.Point) :=
  ⟨⟨1, 1, 0⟩, ⟨.one p256P_pos, .one p256P_pos, .zero (Nat.lt_trans Nat.zero_lt_one p256P_pos)⟩,
    ShortCurve.jacobian_zero rfl⟩

omit [CharP F p256P.toNat] [DecidableEq F] in
theorem StandsAffine.stands (h : StandsAffine ax ay P) : Stands (p256SetAffine ax ay) P :=
  ⟨⟨ax.toNat, ay.toNat, 1⟩, ⟨residue_of_lt h.ltX, residue_of_lt h.ltY, .one p256P_pos⟩,
    ShortCurve.jacobian_affine h.affine⟩

/-- The double, with sums instead of multiples by constants. -/
theorem doubled_coords {K : Type} [Field K] (q : Coords K) :
    (let d := q.z ^ 2
     let g := q.y ^ 2
     let m := (q.x - d) * (q.x + d)
     let al := m + m + m
     let b4 := q.x * g + q.x * g + (q.x * g + q.x * g)
     let x3 := al ^ 2 - (b4 + b4)
     let g4 := g ^ 2 + g ^ 2 + (g ^ 2 + g ^ 2)
     (⟨x3, al * (b4 - x3) - (g4 + g4), (q.y + q.z) ^ 2 - g - d⟩ : Coords K)) =
      ShortCurve.jacobianDouble q := by
  unfold ShortCurve.jacobianDouble
  ext
  · dsimp only
    ring
  · dsimp only
    ring
  · rfl

/-- The sum, with a sum instead of a double. -/
theorem added_coords {K : Type} [Field K] (q : Coords K) (ax ay : K) :
    (let h := ax * q.z ^ 2 - q.x
     let r := ay * q.z ^ 3 - q.y
     let c := h * h ^ 2
     let v := q.x * h ^ 2
     let x3 := r ^ 2 - c - (v + v)
     (⟨x3, r * (v - x3) - q.y * c, q.z * h⟩ : Coords K)) = ShortCurve.jacobianAdd q ax ay := by
  unfold ShortCurve.jacobianAdd
  ext
  · dsimp only
    ring
  · dsimp only
    ring
  · rfl

theorem p256EcDouble_yields (ha : E.a = -3) (hfuel : 9 ≤ fuel) (h : Stands pt P) :
    Yields (p256EcDouble fuel pt) (Stands · (P + P)) := by
  obtain ⟨q, hpt, hP⟩ := h
  unfold p256EcDouble
  refine .ite (fun hz => ?_) fun hz => .ite (fun hy => ?_) fun hy => ?_
  · have hzero := hpt.z.isZero_iff.mp hz
    refine .ok ⟨q, hpt, ?_⟩
    rw [hP.eq_zero hzero, add_zero]
    exact ShortCurve.jacobian_zero hzero
  · refine .ok ?_
    rw [ShortCurve.jacobian_double_zero hP (hpt.y.isZero_iff.mp hy)]
    exact stands_infinity
  have hdouble := ShortCurve.jacobian_double ha hP (fun h => hz (hpt.z.isZero_iff.mpr h))
    fun h => hy (hpt.y.isZero_iff.mpr h)
  refine (yields_sqr hfuel hpt.z).bind fun delta hdelta => ?_
  refine (yields_sqr hfuel hpt.y).bind fun gamma hgamma => ?_
  refine (yields_mul hfuel hpt.x hgamma).bind fun beta hbeta => ?_
  refine (yields_mul hfuel (residue_sub hpt.x hdelta) (residue_add hpt.x hdelta)).bind
    fun alpha halpha => ?_
  have halpha := residue_add (residue_add halpha halpha) halpha
  have hb4 := residue_add (residue_add hbeta hbeta) (residue_add hbeta hbeta)
  refine (yields_sqr hfuel halpha).bind fun x3 hx3 => ?_
  have hx3 := residue_sub hx3 (residue_add hb4 hb4)
  refine (yields_sqr hfuel (residue_add hpt.y hpt.z)).bind fun z3 hz3 => ?_
  refine (yields_mul hfuel halpha (residue_sub hb4 hx3)).bind fun y3 hy3 => ?_
  refine (yields_sqr hfuel hgamma).bind fun g2 hg2 => ?_
  have hg2 := residue_add hg2 hg2
  have hg4 := residue_add hg2 hg2
  have hy3 := residue_sub hy3 (residue_add hg4 hg4)
  have hz3 := residue_sub (residue_sub hz3 hgamma) hdelta
  rw [← doubled_coords] at hdouble
  exact .pure ⟨_, coordinates hx3 hy3 hz3, hdouble⟩

/-- Over the same `x`, the points cancel or are equal. -/
theorem p256EcAddAffine_yields (ha : E.a = -3) (hfuel : 9 ≤ fuel) (h : Stands pt P)
    (hQ : StandsAffine ax ay Q) :
    Yields (p256EcAddAffine fuel pt ax ay) (Stands · (P + Q)) := by
  obtain ⟨q, hpt, hP⟩ := id h
  have hax : Residue p256P ax (ax.toNat : F) := residue_of_lt hQ.ltX
  have hay : Residue p256P ay (ay.toNat : F) := residue_of_lt hQ.ltY
  unfold p256EcAddAffine
  refine .ite (fun hz => ?_) fun hz => ?_
  · rw [hP.eq_zero (hpt.z.isZero_iff.mp hz), zero_add]
    exact .ok hQ.stands
  have hz : q.z ≠ 0 := fun h => hz (hpt.z.isZero_iff.mpr h)
  refine (yields_sqr hfuel hpt.z).bind fun z1z1 hz1z1 => ?_
  refine (yields_mul hfuel hax hz1z1).bind fun u2 hu2 => ?_
  refine (yields_mul hfuel hpt.z hz1z1).bind fun s2 hs2 => ?_
  refine (yields_mul hfuel hay hs2).bind fun s2 hs2 => ?_
  rw [← pow_succ'] at hs2
  refine .ite (fun hsame => ?_) fun hne => ?_
  · have hsame := ShortCurve.jacobian_same_x hP hQ.affine hz ((hu2.eq_iff hpt.x).mp hsame)
    refine .ite (fun hsum => ?_) fun hsum => ?_
    · rw [if_pos ((residue_add hs2 hpt.y).isZero_iff.mp hsum)] at hsame
      rw [hsame]
      exact .pure stands_infinity
    · rw [if_neg fun hzero => hsum ((residue_add hs2 hpt.y).isZero_iff.mpr hzero)] at hsame
      rw [← hsame]
      exact p256EcDouble_yields ha hfuel h
  have hadd := ShortCurve.jacobian_add hP hQ.affine hz fun heq =>
    hne ((hu2.eq_iff hpt.x).mpr heq)
  have hh := residue_sub hu2 hpt.x
  have hrr := residue_sub hs2 hpt.y
  refine (yields_sqr hfuel hh).bind fun hh' hhh => ?_
  refine (yields_mul hfuel hh hhh).bind fun cube hcube => ?_
  refine (yields_mul hfuel hpt.x hhh).bind fun v hv => ?_
  refine (yields_sqr hfuel hrr).bind fun x3 hx3 => ?_
  have hx3 := residue_sub (residue_sub hx3 hcube) (residue_add hv hv)
  refine (yields_mul hfuel hrr (residue_sub hv hx3)).bind fun y3 hy3 => ?_
  refine (yields_mul hfuel hpt.y hcube).bind fun t ht => ?_
  refine (yields_mul hfuel hpt.z hh).bind fun z3 hz3 => ?_
  have hy3 := residue_sub hy3 ht
  rw [← added_coords] at hadd
  exact .pure ⟨_, coordinates hx3 hy3 hz3, hadd⟩

/-! ## The ladder -/

variable {k1 k2 bx bY : U256} {A B : E.Point}

/-- The bits from `i` on are done. -/
def DoneFrom (k1 k2 : U256) (A B : E.Point) (i : Nat) (pt : Coords U256) : Prop :=
  Stands pt ((k1.toNat / 2 ^ i) • A + (k2.toNat / 2 ^ i) • B)

theorem p256EcAddBit_yields {bit : Word} {c : Bool} (ha : E.a = -3) (hfuel : 9 ≤ fuel)
    (hbit : bit = 1 ↔ c = true) (h : Stands pt P) (hA : StandsAffine ax ay A) :
    Yields (p256EcAddBit fuel bit pt ax ay) (Stands · (P + if c then A else 0)) := by
  unfold p256EcAddBit
  refine .ite (fun hone => ?_) fun hzero => .ok ?_
  · rw [if_pos (hbit.mp hone)]
    exact p256EcAddAffine_yields ha hfuel h hA
  · rw [if_neg fun hc => hzero (hbit.mpr hc), add_zero]
    exact h

theorem p256EcMul2Step_yields (ha : E.a = -3) (hfuel : 9 ≤ fuel) (hA : StandsAffine ax ay A)
    (hB : StandsAffine bx bY B) {i : Nat} (hi : i < 256) (h : DoneFrom k1 k2 A B (i + 1) pt) :
    Yields (p256EcMul2Step fuel k1 ax ay k2 bx bY i pt) (DoneFrom k1 k2 A B i) := by
  have hbit : ∀ k : U256, u256Bit k (BitVec.ofNat 64 i) = 1 ↔ k.toNat.testBit i = true := by
    intro k
    have hnat : (BitVec.ofNat 64 i).toNat = i := by
      rw [BitVec.toNat_ofNat, Nat.mod_eq_of_lt (by omega)]
    rw [u256Bit_eq_one k (by omega), hnat]
  unfold p256EcMul2Step
  refine (p256EcDouble_yields ha hfuel h).bind fun pt₁ h₁ => ?_
  refine (p256EcAddBit_yields ha hfuel (hbit k1) h₁ hA).bind fun pt₂ h₂ => ?_
  refine (p256EcAddBit_yields ha hfuel (hbit k2) h₂ hB).imp fun pt₃ h₃ => ?_
  unfold DoneFrom
  rw [smul_bits k1.toNat, smul_bits k2.toNat]
  convert h₃ using 1
  abel

/-- The ladder computes in the group, whatever the sums on the way are. -/
theorem p256EcMul2_yields (ha : E.a = -3) (hfuel : 9 ≤ fuel) (hA : StandsAffine ax ay A)
    (hB : StandsAffine bx bY B) (k1 k2 : U256) :
    Yields (p256EcMul2 fuel k1 ax ay k2 bx bY) (Stands · (k1.toNat • A + k2.toNat • B)) := by
  have hsize : ∀ k : U256, (u256BitLength k).toNat = Nat.size k.toNat ∧ Nat.size k.toNat ≤ 256 :=
    fun k => ⟨toNat_u256BitLength k, Nat.size_le.mpr k.toNat_lt⟩
  have hlen : max (u256BitLength k1).toNat (u256BitLength k2).toNat ≤ 256 := by
    rw [(hsize k1).1, (hsize k2).1]
    exact max_le (hsize k1).2 (hsize k2).2
  unfold p256EcMul2
  dsimp only
  refine (countDown_yields (I := DoneFrom k1 k2 A B) (fun i hi pt h => ?_) ?_).imp fun pt h => ?_
  · exact p256EcMul2Step_yields ha hfuel hA hB (Nat.lt_of_lt_of_le hi hlen) h
  · unfold DoneFrom
    rw [smul_none (Nat.le_trans (Nat.le_of_eq (hsize k1).1.symm) (Nat.le_max_left _ _)),
      smul_none (Nat.le_trans (Nat.le_of_eq (hsize k2).1.symm) (Nat.le_max_right _ _)), add_zero]
    exact stands_infinity
  · unfold DoneFrom at h
    rwa [pow_zero, Nat.div_one, Nat.div_one] at h

/-! ## The tests -/

omit [DecidableEq F] in
theorem p256OnCurve_yields (ha : E.a = -3) (hb : E.b = p256B.toNat) (hfuel : 9 ≤ fuel)
    (hx : Residue p256P a x) (hy : Residue p256P b y) :
    Yields (p256OnCurve fuel a b) fun ok => ok = true ↔ E.On x y := by
  have hB : Residue p256P p256B E.b := ⟨by decide, hb.symm⟩
  unfold p256OnCurve
  refine (yields_sqr hfuel hy).bind fun l hl => ?_
  refine (yields_sqr hfuel hx).bind fun r hr => ?_
  refine (yields_mul hfuel hr hx).bind fun r hr => ?_
  have hr := residue_add (residue_sub hr (residue_add (residue_add hx hx) hx)) hB
  refine .pure ?_
  rw [beq_iff_eq, hl.eq_iff hr, ShortCurve.On, ha]
  constructor <;> intro h <;> linear_combination h

theorem mod_eq_iff {x r : Nat} (hx : x < p256P.toNat) (hr : r < p256N.toNat) :
    x % p256N.toNat = r ↔ x = r ∨ x = r + p256N.toNat := by
  have hn : p256P.toNat < 2 * p256N.toNat := by decide
  constructor
  · intro h
    rcases Nat.lt_or_ge x p256N.toNat with hlt | hge
    · rw [Nat.mod_eq_of_lt hlt] at h
      exact .inl h
    · rw [Nat.mod_eq_sub_mod hge, Nat.mod_eq_of_lt (by omega)] at h
      omega
  · rintro (rfl | rfl)
    · exact Nat.mod_eq_of_lt hr
    · rw [Nat.add_mod_right, Nat.mod_eq_of_lt hr]

/-- The coordinate `x` of the point, as a number below the prime, is `r` modulo the order. -/
def HasX (P : E.Point) (r : Nat) : Prop :=
  ∃ x < p256P.toNat, ∃ y, E.Affine (x : F) y P ∧ x % p256N.toNat = r

omit [CharP F p256P.toNat] [DecidableEq F] in
/-- The two numbers that the coordinate may be. -/
theorem hasX_iff {X Y : F} (haff : E.Affine X Y P) {r : Nat} (hr : r < p256N.toNat) :
    HasX P r ↔ (r : F) = X ∨ r + p256N.toNat < p256P.toNat ∧ ((r + p256N.toNat : Nat) : F) = X := by
  have hnp : p256N.toNat < p256P.toNat := by decide
  constructor
  · rintro ⟨x, hx, y, hxy, hmod⟩
    rcases (mod_eq_iff hx hr).mp hmod with rfl | rfl
    · exact .inl (hxy.unique haff).1
    · exact .inr ⟨hx, (hxy.unique haff).1⟩
  · rintro (h | ⟨hlt, h⟩)
    · exact ⟨r, Nat.lt_trans hr hnp, Y, by rwa [h], Nat.mod_eq_of_lt hr⟩
    · exact ⟨_, hlt, Y, by rwa [h], by rw [Nat.add_mod_right, Nat.mod_eq_of_lt hr]⟩

omit [DecidableEq F] in
theorem p256CompareX_yields (hfuel : 9 ≤ fuel) {r : U256} (hr : r.toNat < p256N.toNat)
    (h : Stands pt P) (hz : ¬pt.z.IsZero) :
    Yields (p256CompareX fuel r pt) fun ok => ok = true ↔ HasX P r.toNat := by
  obtain ⟨q, hpt, hP⟩ := h
  have hz : q.z ≠ 0 := fun h => hz (hpt.z.isZero_iff.mpr h)
  have hspec := hasX_iff (hP.affine hz) hr
  have hmul : ∀ k : F, k * q.z ^ 2 = q.x ↔ k = q.x / q.z ^ 2 := fun k =>
    (eq_div_iff (pow_ne_zero 2 hz)).symm
  have hnp : p256N.toNat < p256P.toNat := by decide
  have hp := p256P.toNat_lt
  unfold p256CompareX
  refine (yields_sqr hfuel hpt.z).bind fun z2 hz2 => ?_
  refine (yields_mul hfuel (residue_of_lt (Nat.lt_trans hr hnp)) hz2).bind fun t ht => ?_
  have hfirst := (ht.eq_iff hpt.x).trans (hmul _)
  refine .ite (fun heq => .pure ?_) fun hne => ?_
  · rw [hspec]
    exact iff_of_true rfl (.inl (hfirst.mp heq))
  have hne := fun h => hne (hfirst.mpr h)
  obtain ⟨hsum, hcarry⟩ := u256AddCarry_value r p256N
  dsimp only
  generalize u256AddCarry r p256N = rn at *
  have hs := rn.1.toNat_lt
  have hreject : ¬r.toNat + p256N.toNat < p256P.toNat → ((false = true) ↔ HasX P r.toNat) := by
    intro hge
    rw [hspec]
    exact iff_of_false Bool.false_ne_true fun h => h.elim hne fun h => hge h.1
  refine .ite (fun hone => .pure (hreject ?_)) fun hzero =>
    .ite (fun hbelow => ?_) fun hge => .pure (hreject ?_)
  · rw [hone, show (1 : Word).toNat = 1 from rfl] at hsum
    omega
  · have hzero : rn.2.toNat ≠ 1 := fun h => hzero (BitVec.eq_of_toNat_eq h)
    have hval : rn.1.toNat = r.toNat + p256N.toNat := by omega
    have hbelow := (u256Lt_iff _ _).mp hbelow
    refine (yields_mul hfuel (residue_of_lt hbelow) hz2).bind fun t' ht' => .pure ?_
    rw [beq_iff_eq, ht'.eq_iff hpt.x, hmul, hspec, hval]
    rw [hval] at hbelow
    exact ⟨fun h => .inr ⟨hbelow, h⟩, fun h => (h.resolve_left hne).2⟩
  · have hge : ¬rn.1.toNat < p256P.toNat := fun h => hge ((u256Lt_iff _ _).mpr h)
    have hzero : rn.2.toNat ≠ 1 := fun h => hzero (BitVec.eq_of_toNat_eq h)
    omega

/-! ## The verification -/

/-- `a / b` modulo `m`. -/
def quotMod (m a b : Nat) : Nat := ((a : ZMod m) * (b : ZMod m)⁻¹).val

theorem quotMod_eq {m e e' s inv : Nat} [Fact m.Prime] (he : (e' : ZMod m) = e)
    (hinv : s * inv ≡ 1 [MOD m]) : quotMod m e s = e' * inv % m := by
  have hone : (s : ZMod m) * inv = 1 := by
    rw [← Nat.cast_mul, (ZMod.natCast_eq_natCast_iff _ _ m).mpr hinv, Nat.cast_one]
  rw [quotMod, inv_eq_of_mul_eq_one_right hone, ← he, ← Nat.cast_mul, ZMod.val_natCast]

theorem yields_mulmod (hfuel : 3 ≤ fuel) (a b : U256) (ws : Nat) (c : Cells) :
    Yields (u256Mulmod fuel ws a b p256N c) fun s =>
      s.1.toNat = a.toNat * b.toNat % p256N.toNat ∧ OffScratch ws c s.2 := by
  obtain ⟨s, hrun, hs, hoff⟩ := u256Mulmod_value a b p256N ws c hfuel
  rw [if_neg p256N_prime.ne_zero] at hs
  exact ⟨s, hrun, hs, hoff⟩

/-- One subtraction reduces the hash. -/
theorem natCast_reduced (e : U256) (m : Nat) (hm : p256N.toNat = m) :
    (((if u256Lt e p256N then e else u256Sub e p256N).toNat : Nat) : ZMod m) = (e.toNat : Nat) := by
  split
  · rfl
  · next hge =>
    have hge := Nat.not_lt.mp fun h => hge ((u256Lt_iff _ _).mpr h)
    have hlt := e.toNat_lt
    have hsub : (u256Sub e p256N).toNat = e.toNat - p256N.toNat := by
      rw [toNat_u256Sub]
      omega
    rw [hsub, Nat.cast_sub hge, hm, ZMod.natCast_self, sub_zero]

theorem p256Recombine_yields (ha : E.a = -3) {G : E.Point} (hG : StandsAffine p256Gx p256Gy G)
    (hfuel : 514 ≤ fuel) {e r s qx qy : U256} (ws : Nat) (c : Cells)
    (hr : r.toNat < p256N.toNat) (hs : 0 < s.toNat) (hsn : s.toNat < p256N.toNat)
    (hQ : StandsAffine qx qy Q) :
    Yields (p256Recombine fuel ws e r s qx qy c) fun out => OffScratch ws c out.2 ∧
      (out.1 = true ↔ HasX (quotMod p256N.toNat e.toNat s.toNat • G +
        quotMod p256N.toNat r.toNat s.toNat • Q) r.toNat) := by
  have hcop : Nat.Coprime s.toNat p256N.toNat :=
    (Nat.coprime_of_lt_prime hs.ne' hsn p256N_prime).symm
  obtain ⟨sinv, hrun, -, hsinv⟩ := modinvBin_exact (by decide) p256N_prime.one_lt hs hcop hfuel
  have he := quotMod_eq (natCast_reduced e _ rfl) hsinv
  have hr' := quotMod_eq (e := r.toNat) rfl hsinv
  unfold p256Recombine
  dsimp only
  generalize (if u256Lt e p256N then e else u256Sub e p256N) = e' at *
  rw [hrun, he, hr']
  change Yields (u256Mulmod fuel ws e' sinv p256N c >>= _) _
  refine (yields_mulmod (by omega) e' sinv ws c).bind fun ⟨u1, c₁⟩ ⟨hu1, hc₁⟩ => ?_
  refine (yields_mulmod (by omega) r sinv ws c₁).bind fun ⟨u2, c₂⟩ ⟨hu2, hc₂⟩ => ?_
  dsimp only at hu1 hu2 hc₁ hc₂ ⊢
  rw [← hu1, ← hu2]
  refine (p256EcMul2_yields ha (by omega) hG hQ u1 u2).bind fun pr hpr => ?_
  refine .ite (fun hz => .pure ⟨hc₁.trans hc₂, ?_⟩) fun hz => ?_
  · obtain ⟨q, hq, hP⟩ := hpr
    rw [hP.eq_zero (hq.z.isZero_iff.mp hz)]
    exact iff_of_false Bool.false_ne_true fun ⟨x, _, y, haff, _⟩ => haff.ne_zero rfl
  · exact (p256CompareX_yields (by omega) hr hpr hz).bind fun ok hok =>
      .pure ⟨hc₁.trans hc₂, hok⟩

omit [DecidableEq F] in
/-- The point `(0, 0)` is not on the curve. -/
theorem p256_origin (hb : E.b = p256B.toNat) {qx qy : U256}
    (h : (qx.l0 ||| qx.l1 ||| qx.l2 ||| qx.l3 ||| qy.l0 ||| qy.l1 ||| qy.l2 ||| qy.l3) = 0) :
    ¬E.On (qx.toNat : F) (qy.toNat : F) := by
  have hb0 : (p256B.toNat : F) ≠ ((0 : Nat) : F) := fun h => by
    have h := (natCast_inj_of_lt (m := p256P) F (by decide) (by decide)).mp h
    exact absurd h (by decide)
  rw [show (0 : Word) = 0#64 from rfl] at h
  simp only [BitVec.or_eq_zero_iff] at h
  obtain ⟨⟨⟨⟨⟨⟨⟨x0, x1⟩, x2⟩, x3⟩, y0⟩, y1⟩, y2⟩, y3⟩ := h
  have hx : qx.toNat = 0 := by
    unfold U256.toNat
    rw [x0, x1, x2, x3]
    rfl
  have hy : qy.toNat = 0 := by
    unfold U256.toNat
    rw [y0, y1, y2, y3]
    rfl
  rw [hx, hy, ShortCurve.On, hb]
  intro h
  refine hb0 ?_
  rw [Nat.cast_zero] at h ⊢
  linear_combination -h

/-- `e` signed with `(r, s)` under the public key `(qx, qy)`: the sum of `e / s` times the base
point and `r / s` times the key is a point whose coordinate `x` is `r` modulo the order. -/
structure Signature (G : E.Point) (e r s qx qy : Nat) : Prop where
  r_pos : 0 < r
  r_lt : r < p256N.toNat
  s_pos : 0 < s
  s_lt : s < p256N.toNat
  qx_lt : qx < p256P.toNat
  qy_lt : qy < p256P.toNat
  accepts : ∃ Q, E.Affine qx qy Q ∧
    HasX (quotMod p256N.toNat e s • G + quotMod p256N.toNat r s • Q) r

omit [CharP F p256P.toNat] in
theorem Signature.on {G : E.Point} {e r s qx qy : Nat} (h : Signature G e r s qx qy) :
    E.On (qx : F) qy := by
  obtain ⟨Q, ⟨hon, -⟩, -⟩ := h.accepts
  exact hon

theorem onValues_run {α : Type} {x : Except Exn α} {Q : α → Prop} (h : Yields x Q)
    (m : Digest.Mem) : ∃ a, onValues x m = .ok a m ∧ Q a := by
  obtain ⟨a, hrun, ha⟩ := h
  rw [hrun]
  exact ⟨a, rfl, ha⟩

theorem p256Verify_run [Stray] (ha : E.a = -3) (hb : E.b = p256B.toNat) {G : E.Point}
    (hG : StandsAffine p256Gx p256Gy G) {hash32 : Nat} {m : Digest.Mem} (hfuel : 514 ≤ fuel)
    (hread : m.Reads hash32 32) (ws : Nat) (r s qx qy : U256) (c : Cells) :
    ∃ ok c', p256Verify fuel ws hash32 r s qx qy c m = .ok (ok, c') m ∧ OffScratch ws c c' ∧
      (ok = true ↔ Signature G (beNat (m.bytes.load hash32 32)) r.toNat s.toNat qx.toNat
        qy.toNat) := by
  have hreject : ∀ {p : Prop}, ¬p → ∃ ok c', (pure (false, c) : Digest.MemM (Bool × Cells)) m =
      .ok (ok, c') m ∧ OffScratch ws c c' ∧ (ok = true ↔ p) :=
    fun hp => ⟨false, c, rfl, .refl ws c, iff_of_false Bool.false_ne_true hp⟩
  have hlt : ∀ a b : U256, ¬u256Lt a b → ¬a.toNat < b.toNat := fun a b h hn =>
    h ((u256Lt_iff a b).mpr hn)
  unfold p256Verify
  split
  · next h => exact hreject fun hsig => hsig.r_pos.ne' ((U256.isZero_iff r).mp h)
  split
  · next h => exact hreject fun hsig => hlt _ _ h hsig.r_lt
  split
  · next h => exact hreject fun hsig => hsig.s_pos.ne' ((U256.isZero_iff s).mp h)
  split
  · next h => exact hreject fun hsig => hlt _ _ h hsig.s_lt
  split
  · next h => exact hreject fun hsig => hlt _ _ h hsig.qx_lt
  split
  · next h => exact hreject fun hsig => hlt _ _ h hsig.qy_lt
  split
  · next h => exact hreject fun hsig => p256_origin hb h hsig.on
  next hr hrn hs hsn hqx hqy _ =>
  rw [not_not, u256Lt_iff] at hrn hsn hqx hqy
  rw [U256.isZero_iff] at hr hs
  obtain ⟨on, hrun, hon⟩ := onValues_run (p256OnCurve_yields ha hb (Nat.le_trans (by decide) hfuel)
    (residue_of_lt hqx) (residue_of_lt hqy)) m
  rw [bind_run_ok hrun]
  cases on with
  | false => exact hreject fun hsig => Bool.false_ne_true (hon.mpr hsig.on)
  | true =>
    rw [if_pos rfl]
    have hQ : StandsAffine qx qy (ShortCurve.point (hon.mp rfl)) :=
      ⟨hqx, hqy, ShortCurve.affine_point _⟩
    obtain ⟨e, hload, he⟩ := Digest.u256FromBe_run hread
    rw [bind_run_ok hload]
    have hbe : beNat (m.bytes.load hash32 32) < 2 ^ 256 := by
      have h := beNat_lt (m.bytes.load hash32 32)
      rwa [ByteMap.length_load] at h
    rw [Nat.mod_eq_of_lt hbe] at he
    obtain ⟨out, hrun, hoff, hout⟩ := onValues_run (p256Recombine_yields ha hG hfuel ws c hrn
      (Nat.pos_of_ne_zero hs) hsn hQ) m
    refine ⟨out.1, out.2, hrun, hoff, hout.trans ?_⟩
    rw [he]
    constructor
    · intro haccept
      exact ⟨Nat.pos_of_ne_zero hr, hrn, Nat.pos_of_ne_zero hs, hsn, hqx, hqy, _,
        ShortCurve.affine_point _, haccept⟩
    · intro hsig
      obtain ⟨Q, ⟨hon', rfl⟩, haccept⟩ := hsig.accepts
      exact haccept

end

/-! ## The curve -/

/-- The field of the coordinates. -/
abbrev P256Field : Type := ZMod p256P.toNat

theorem p256_two : (2 : P256Field) ≠ 0 := by decide +kernel

theorem p256_disc :
    4 * (-((3 : Nat) : P256Field)) ^ 3 + 27 * (p256B.toNat : P256Field) ^ 2 ≠ 0 := by
  decide +kernel

/-- `y ^ 2 = x ^ 3 - 3 * x + b`. -/
def p256Curve : ShortCurve P256Field := ⟨-((3 : Nat) : P256Field), p256B.toNat, p256_two, p256_disc⟩

theorem p256Curve_a : p256Curve.a = -3 := congrArg Neg.neg Nat.cast_ofNat

theorem p256_on : p256Curve.On (p256Gx.toNat : P256Field) (p256Gy.toNat : P256Field) := by
  unfold ShortCurve.On
  decide +kernel

/-- The base point. -/
def p256G : p256Curve.Point := ShortCurve.point p256_on

theorem standsAffine_g : StandsAffine p256Gx p256Gy p256G :=
  ⟨by decide, by decide, ShortCurve.affine_point p256_on⟩

/-- **The verification is the one of ECDSA**: for every hash in memory and all numbers of 256 bits,
the run ends, and it accepts exactly the signatures. -/
theorem p256Verify_exact [Stray] {fuel hash32 : Nat} {m : Digest.Mem} (hfuel : 514 ≤ fuel)
    (hread : m.Reads hash32 32) (ws : Nat) (r s qx qy : U256) (c : Cells) :
    ∃ ok c', p256Verify fuel ws hash32 r s qx qy c m = .ok (ok, c') m ∧ OffScratch ws c c' ∧
      (ok = true ↔ Signature p256G (beNat (m.bytes.load hash32 32)) r.toNat s.toNat qx.toNat
        qy.toNat) :=
  p256Verify_run p256Curve_a rfl standsAffine_g hfuel hread ws r s qx qy c

/-- With a hash of zero, the base point has a signature by its own coordinate. -/
theorem signature_base :
    Signature p256G 0 p256Gx.toNat p256Gx.toNat p256Gx.toNat p256Gy.toNat := by
  have hlt : p256Gx.toNat < p256N.toNat := by decide
  have hpos : 0 < p256Gx.toNat := by decide
  have hzero : quotMod p256N.toNat 0 p256Gx.toNat = 0 := by
    rw [quotMod, Nat.cast_zero, zero_mul, ZMod.val_zero]
  have hone : quotMod p256N.toNat p256Gx.toNat p256Gx.toNat = 1 := by
    have hne : (p256Gx.toNat : ZMod p256N.toNat) ≠ 0 := fun h =>
      Nat.not_dvd_of_pos_of_lt hpos hlt ((ZMod.natCast_eq_zero_iff _ _).mp h)
    rw [quotMod, mul_inv_cancel₀ hne, ZMod.val_one]
  refine ⟨hpos, hlt, hpos, hlt, by decide, by decide, p256G, ShortCurve.affine_point p256_on, ?_⟩
  rw [hzero, hone, zero_nsmul, one_nsmul, zero_add]
  exact ⟨p256Gx.toNat, by decide, _, ShortCurve.affine_point p256_on, Nat.mod_eq_of_lt hlt⟩

theorem p256Verify_exact_base :
    let _ : Stray := ⟨.outOfFuel⟩
    let m : Digest.Mem := ⟨fun _ => 0, fun _ => true⟩
    ∃ c, p256Verify 514 0 0 p256Gx p256Gx p256Gx p256Gy (fun _ => 0) m = .ok (true, c) m := by
  intro _ m
  obtain ⟨ok, c, hrun, -, hok⟩ := p256Verify_exact (Nat.le_refl 514)
    (show m.Reads 0 32 from fun _ _ => rfl) 0 p256Gx p256Gx p256Gx p256Gy fun _ => 0
  have hhash : beNat (m.bytes.load 0 32) = 0 := by decide
  rw [hhash] at hok
  rw [hok.mpr signature_base] at hrun
  exact ⟨c, hrun⟩

end StatelessGuest.Limb
