import LlvmTms9900.Arith.DigitSqrt
import LlvmTms9900.Isa.Word

/-!
# The bouncing ball (cart_example/ball2.c)

Positions are 16-bit fixed-point numbers with eight bits behind the point. At a
bounce the speed of one axis may change by a small amount and the other axis
gets what is left of the energy, by an integer square root. `int16_t` values
are integers, `uint16_t` values natural numbers; every operation wraps around
as in the source.
-/

namespace LlvmTms9900.Cart.Ball2
open LlvmTms9900.Isa LlvmTms9900.Arith

def screenCols : Nat := 32
def screenRows : Nat := 24
def borderTopLen : Nat := screenCols
def borderSideLen : Nat := screenRows - 2
def borderTotal : Nat := borderTopLen * 2 + borderSideLen * 2

/-- Conversion to `int16_t`. -/
def toInt16 (x : Int) : Int := x.bmod 65536

/-- Conversion to `uint16_t`. -/
def toUint16 (x : Int) : Nat := (x % 65536).toNat

def fpFromInt (x : Int) : Int := toInt16 (x * 256)
def fpOne : Int := 256
def ball2VxInit : Int := fpOne
def ball2VyInit : Int := fpOne
def jitterDeltaQ8 : Nat := (256 + 5) / 10
def energyShift : Nat := 2
def minAxisS : Nat := 0
def jitterThreshold : Nat := 10 * 32767 / 100
def ball2DeltaS : Nat := (jitterDeltaQ8 + 2 ^ (energyShift - 1)) / 2 ^ energyShift

def maxX : Int := fpFromInt (screenCols - 1)
def maxY : Int := fpFromInt (screenRows - 1)

/-! ## Arithmetic -/

def absU16 (value : Int) : Nat := toUint16 (if value < 0 then -value else value)

/-- The first loop of `isqrt16`: the highest power of four that is not above
the value. -/
def topBit (value bit : Nat) : Nat :=
  if value < bit then topBit value (bit / 4) else bit
  termination_by bit

/-- The second loop of `isqrt16`. -/
def isqrtLoop (value res bit : Nat) : Nat :=
  if bit = 0 then res
  else
    let trial := (res + bit) % 65536
    if trial ≤ value then isqrtLoop (value - trial) ((res / 2 + bit) % 65536) (bit / 4)
    else isqrtLoop value (res / 2) (bit / 4)
  termination_by bit

def isqrt16 (value : Nat) : Nat := isqrtLoop value 0 (topBit value (2 ^ 14))

/-! ## Border and screen -/

def borderIndex (row col : Nat) : Int :=
  if row = 0 then toInt16 col
  else if row = screenRows - 1 then toInt16 (borderTopLen + borderSideLen + col : Nat)
  else if col = screenCols - 1 ∧ 0 < row ∧ row < screenRows - 1 then
    toInt16 (borderTopLen + (row - 1) : Nat)
  else if col = 0 ∧ 0 < row ∧ row < screenRows - 1 then
    toInt16 (borderTopLen + borderSideLen + borderTopLen + (row - 1) : Nat)
  else -1

/-- The characters after `'0'`, `'9'` and `'Z'` are `'1'`, `'A'` and `'0'`. -/
def borderNext (v : Byte) : Byte :=
  if 0x30#8 ≤ v ∧ v ≤ 0x38#8 then v + 1#8
  else if v = 0x39#8 then 0x41#8
  else if 0x41#8 ≤ v ∧ v ≤ 0x59#8 then v + 1#8
  else 0x30#8

/-- The name table in VRAM. -/
def putChar (screen : Nat → Byte) (row col : Nat) (c : Byte) : Nat → Byte :=
  Function.update screen ((row * screenCols + col) % 65536 % 0x4000) c

/-! ## The ball -/

/-- The variables of `run_ball`, and the number of calls of `rng_next`. -/
structure Ball where
  posX : Int
  posY : Int
  velX : Int
  velY : Int
  signX : Int
  signY : Int
  deltaS : Nat
  vxS : Nat
  vyS : Nat
  speed2S : Nat
  maxAxisS : Nat
  ballX : Nat
  ballY : Nat
  calls : Nat

/-- The ball, the characters of the border and the screen. -/
structure State where
  ball : Ball
  border : Nat → Byte
  screen : Nat → Byte

/-- The speed on an axis, not below the minimum. -/
def axisSpeed (vel : Int) : Nat :=
  if absU16 vel / 2 ^ energyShift < minAxisS then minAxisS else absU16 vel / 2 ^ energyShift

/-- The speed with its sign. -/
def velocity (sign : Int) (v : Nat) : Int :=
  if sign < 0 then toInt16 (-(v * 2 ^ energyShift % 65536 : Nat))
  else toInt16 (v * 2 ^ energyShift % 65536 : Nat)

/-- `ball2.c:234-283`: what is computed before the loop. -/
def startBall (calls : Nat) : Ball :=
  let posX := fpFromInt (screenCols / 2)
  let posY := fpFromInt (screenRows / 2)
  let signX : Int := if ball2VxInit < 0 then -1 else 1
  let signY : Int := if ball2VyInit < 0 then -1 else 1
  let (vx, vy) : Nat × Nat :=
    if axisSpeed ball2VxInit = 0 ∧ axisSpeed ball2VyInit = 0 then (1, 1)
    else (axisSpeed ball2VxInit, axisSpeed ball2VyInit)
  let speed2 := (vx * vx + vy * vy) % 65536
  let minSq := minAxisS * minAxisS % 65536
  let speed2 := if speed2 < minSq then minSq else speed2
  { posX := posX, posY := posY, velX := velocity signX vx, velY := velocity signY vy,
    signX := signX, signY := signY, deltaS := if ball2DeltaS = 0 then 1 else ball2DeltaS,
    vxS := vx, vyS := vy, speed2S := speed2, maxAxisS := isqrt16 (toUint16 (speed2 - minSq)),
    ballX := toUint16 (posX / 256), ballY := toUint16 (posY / 256), calls := calls }

def start (border screen : Nat → Byte) (calls : Nat) : State :=
  let b := startBall calls
  ⟨b, border, putChar screen b.ballY b.ballX 0x2B#8⟩

/-- `ball2.c:287-294`: the border character under the ball is counted up. -/
def leaveCell (s : State) : State :=
  let idx := borderIndex s.ball.ballY s.ball.ballX
  if 0 ≤ idx then
    let next := borderNext (s.border idx.toNat)
    { s with border := Function.update s.border idx.toNat next
             screen := putChar s.screen s.ball.ballY s.ball.ballX next }
  else { s with screen := putChar s.screen s.ball.ballY s.ball.ballX 0x20#8 }

/-- `ball2.c:296-319`, for one axis: the next position, the sign and whether
the ball bounced. -/
def moveAxis (max pos vel sign : Int) : Int × Int × Bool :=
  let next := toInt16 (pos + vel)
  if next < 0 then (0, 1, true) else if max < next then (max, -1, true) else (next, sign, false)

def moveX (b : Ball) : Int × Int × Bool := moveAxis maxX b.posX b.velX b.signX
def moveY (b : Ball) : Int × Int × Bool := moveAxis maxY b.posY b.velY b.signY

inductive Axis
  | x
  | y
  deriving DecidableEq, Repr

/-- `ball2.c:347-353`: the speed changed by `delta`, within its bounds. -/
def clampAxis (maxAxisS v : Nat) (delta : Int) : Nat :=
  let tmp := toInt16 (toInt16 v + delta)
  if tmp < toInt16 minAxisS then toUint16 (toInt16 minAxisS)
  else if maxAxisS < toUint16 tmp then toUint16 (toInt16 maxAxisS)
  else toUint16 tmp

/-- `ball2.c:334-363`: the axis whose speed is changed at a bounce and its new
speed, if one is, and the number of calls of `rng_next`. -/
def adjustment (draws : Nat → Word) (b : Ball) (bouncedX bouncedY : Bool) :
    Option (Axis × Nat) × Nat :=
  if (draws b.calls).toNat / 2 < jitterThreshold then
    let delta : Int := if draws (b.calls + 1) &&& 0x8000#16 ≠ 0#16 then toInt16 b.deltaS
      else toInt16 (-b.deltaS)
    let both := bouncedX && bouncedY
    let onlyY := both && draws (b.calls + 2) &&& 0x8000#16 ≠ 0#16
    let calls := if both then b.calls + 3 else b.calls + 2
    if bouncedX && !onlyY then (some (Axis.x, clampAxis b.maxAxisS b.vxS delta), calls)
    else if bouncedY && (!both || onlyY) then
      (some (Axis.y, clampAxis b.maxAxisS b.vyS delta), calls)
    else (none, calls)
  else (none, b.calls + 1)

/-- The speed that is left for the other axis. -/
def otherAxis (speed2S v : Nat) : Nat := isqrt16 (toUint16 (speed2S - (v * v % 65536 : Nat)))

def setSpeeds (b : Ball) : Option (Axis × Nat) → Ball
  | none => b
  | some (Axis.x, v) => { b with vxS := v, vyS := otherAxis b.speed2S v }
  | some (Axis.y, v) => { b with vyS := v, vxS := otherAxis b.speed2S v }

/-- The speeds are read back from the velocities. -/
def readSpeeds (b : Ball) : Ball := { b with vxS := axisSpeed b.velX, vyS := axisSpeed b.velY }

/-- `ball2.c:322-370`: the body of `if (bounced_x || bounced_y)`. -/
def bounce (draws : Nat → Word) (bouncedX bouncedY : Bool) (b : Ball) : Ball :=
  let b := readSpeeds b
  let (change, calls) := adjustment draws b bouncedX bouncedY
  let b := setSpeeds { b with calls := calls } change
  { b with velX := velocity b.signX b.vxS, velY := velocity b.signY b.vyS }

/-- The signs after the move. -/
def turn (b : Ball) : Ball := { b with signX := (moveX b).2.1, signY := (moveY b).2.1 }

/-- `ball2.c:296-376`. -/
def moveBall (draws : Nat → Word) (b : Ball) : Ball :=
  let t := if (moveX b).2.2 || (moveY b).2.2 then bounce draws (moveX b).2.2 (moveY b).2.2 (turn b)
    else turn b
  { t with posX := (moveX b).1, posY := (moveY b).1, ballX := toUint16 ((moveX b).1 / 256)
           ballY := toUint16 ((moveY b).1 / 256) }

/-- One iteration of the loop of `run_ball`. -/
def iterate (draws : Nat → Word) (s : State) : State :=
  let s := leaveCell s
  let b := moveBall draws s.ball
  ⟨b, s.border, putChar s.screen b.ballY b.ballX 0x2B#8⟩

/-! ## The integer square root -/

/-- The loop finishes the root whose top is found. -/
theorem isqrtLoop_eq {n j s : Nat} (h : RootAbove n j s) (hs : s + 2 ^ j ≤ 256) :
    isqrtLoop (n - s * s) (s * 2 ^ j) (4 ^ j / 4) = Nat.sqrt n := by
  induction j generalizing s with
  | zero =>
    rw [isqrtLoop, if_pos (by decide), pow_zero, Nat.mul_one]
    exact h.eq_sqrt
  | succ j ih =>
    have hbit : 4 ^ (j + 1) / 4 = 4 ^ j := by
      rw [pow_succ, Nat.mul_div_cancel _ (by decide)]
    have hpos : 4 ^ j ≠ 0 := by positivity
    have hone : 0 < 2 ^ j := Nat.two_pow_pos j
    have htrial : (s * 2 ^ (j + 1) + 4 ^ j) % 65536 = s * 2 ^ (j + 1) + 4 ^ j :=
      Nat.mod_eq_of_lt (trial_lt hs)
    have hhalf : s * 2 ^ (j + 1) / 2 = s * 2 ^ j := by
      rw [pow_succ, ← Nat.mul_assoc, Nat.mul_div_cancel _ (by decide)]
    have hnext : s + 2 ^ j + 2 ^ j ≤ 256 := by
      rw [pow_succ] at hs
      omega
    rw [isqrtLoop, hbit, if_neg hpos]
    simp only [htrial, hhalf]
    by_cases hle : (s + 2 ^ j) * (s + 2 ^ j) ≤ n
    · have hroot : (s * 2 ^ j + 4 ^ j) % 65536 = (s + 2 ^ j) * 2 ^ j := by
        have h1 : s * 2 ^ j + 4 ^ j = (s + 2 ^ j) * 2 ^ j := by
          rw [four_pow_eq]
          ring
        rw [h1]
        refine Nat.mod_eq_of_lt ?_
        calc (s + 2 ^ j) * 2 ^ j ≤ 255 * 256 := Nat.mul_le_mul (by omega) (by omega)
          _ < 65536 := by decide
      rw [if_pos ((trial_le_rest_iff h.le).2 hle), rest_sub_trial, hroot]
      exact ih (h.set hle) hnext
    · rw [if_neg fun hno => hle ((trial_le_rest_iff h.le).1 hno)]
      exact ih (h.clear (by omega)) (by omega)

/-- The bit at which the second loop starts. -/
theorem topBit_spec {v j : Nat} (hv : v < 4 ^ (j + 1)) :
    ∃ k, k ≤ j + 1 ∧ topBit v (4 ^ j) = 4 ^ k / 4 ∧ v < 4 ^ k := by
  induction j with
  | zero =>
    rw [topBit]
    by_cases h : v < 4 ^ 0
    · rw [if_pos h, topBit, if_neg (by omega)]
      exact ⟨0, by omega, rfl, h⟩
    · rw [if_neg h]
      exact ⟨1, Nat.le_refl 1, rfl, hv⟩
  | succ j ih =>
    have hbit (i : Nat) : 4 ^ (i + 1) / 4 = 4 ^ i := by
      rw [pow_succ, Nat.mul_div_cancel _ (by decide)]
    rw [topBit]
    by_cases h : v < 4 ^ (j + 1)
    · rw [if_pos h, hbit]
      obtain ⟨k, hk, htop, hlt⟩ := ih h
      exact ⟨k, by omega, htop, hlt⟩
    · rw [if_neg h]
      exact ⟨j + 2, Nat.le_refl _, (hbit (j + 1)).symm, hv⟩

theorem isqrt16_eq {v : Nat} (hv : v < 65536) : isqrt16 v = Nat.sqrt v := by
  obtain ⟨k, hk, htop, hlt⟩ := topBit_spec (v := v) (j := 7) hv
  have hpow : 2 ^ k ≤ 2 ^ 8 := Nat.pow_le_pow_right (by decide) hk
  have h := isqrtLoop_eq (RootAbove.zero hlt) (by omega)
  rw [Nat.zero_mul, Nat.zero_mul, Nat.sub_zero] at h
  have hbit : (2 : Nat) ^ 14 = 4 ^ 7 := by decide
  rw [isqrt16, hbit, htop, h]

/-! ## Conversions -/

section Values
variable {x : Int} {v : Nat}

theorem toInt16_eq (h : -32768 ≤ x) (h' : x ≤ 32767) : toInt16 x = x := by
  rw [toInt16, Int.bmod]
  omega

theorem toUint16_eq (h : 0 ≤ x) (h' : x < 65536) : toUint16 x = x.toNat := by
  rw [toUint16, Int.emod_eq_of_lt h h']

theorem velocity_eq (sign : Int) (hv : v ≤ 90) :
    velocity sign v = if sign < 0 then -(4 * v : Int) else 4 * v := by
  have h4 : v * 2 ^ energyShift % 65536 = 4 * v := by
    rw [energyShift]
    omega
  rw [velocity, h4]
  split_ifs
  · rw [toInt16_eq (by omega) (by omega)]
    push_cast
    rfl
  · rw [toInt16_eq (by omega) (by omega)]
    push_cast
    rfl

/-- The speed is found again in the velocity. -/
theorem axisSpeed_velocity (sign : Int) (hv : v ≤ 90) : axisSpeed (velocity sign v) = v := by
  have habs : absU16 (velocity sign v) = 4 * v := by
    rw [velocity_eq sign hv, absU16]
    split_ifs <;> rw [toUint16_eq (by omega) (by omega)] <;> omega
  have hdiv : 4 * v / 2 ^ energyShift = v := Nat.mul_div_cancel_left v (by decide)
  rw [axisSpeed, habs, hdiv, minAxisS, if_neg (Nat.not_lt_zero v)]

/-- A small change leaves the speed within its bounds. -/
theorem clampAxis_le (hv : v ≤ 90) {delta : Int} (h : -7 ≤ delta) (h' : delta ≤ 7) :
    clampAxis 90 v delta ≤ 90 := by
  have hzero : toInt16 minAxisS = 0 := rfl
  have hmax : toUint16 (toInt16 (90 : Nat)) = 90 := rfl
  have htmp : toInt16 (toInt16 v + delta) = v + delta := by
    rw [toInt16_eq (x := v) (by omega) (by omega), toInt16_eq (by omega) (by omega)]
  rw [clampAxis, htmp, hzero, hmax]
  split_ifs with h1 h2
  · exact Nat.zero_le 90
  · exact Nat.le_refl 90
  · omega

end Values

/-! ## The invariant -/

/-- The constants of the loop, and speeds that share the energy. -/
structure Energy (b : Ball) : Prop where
  delta : b.deltaS = 7
  maxAxis : b.maxAxisS = 90
  speed2 : b.speed2S = 8192
  shared : b.vxS * b.vxS + b.vyS * b.vyS ≤ b.speed2S
  moving : ¬ (b.vxS = 0 ∧ b.vyS = 0)

/-- What holds before every iteration. -/
structure Inv (b : Ball) : Prop where
  energy : Energy b
  posX : 0 ≤ b.posX ∧ b.posX ≤ maxX
  posY : 0 ≤ b.posY ∧ b.posY ≤ maxY
  velX : b.velX = velocity b.signX b.vxS
  velY : b.velY = velocity b.signY b.vyS
  cellX : b.ballX < screenCols
  cellY : b.ballY < screenRows

section Step
variable {b : Ball} {draws : Nat → Word} {axis : Axis} {v : Nat} {bouncedX bouncedY : Bool}

theorem le_of_square_le {a c : Nat} (h : a * a + c ≤ 8192) : a ≤ 90 := by
  by_contra hno
  have h91 : 91 * 91 ≤ a * a := Nat.mul_le_mul (by omega) (by omega)
  omega

theorem Energy.vx_le (h : Energy b) : b.vxS ≤ 90 := le_of_square_le (h.speed2 ▸ h.shared)

theorem Energy.vy_le (h : Energy b) : b.vyS ≤ 90 := by
  have hshared := h.shared
  rw [h.speed2, Nat.add_comm] at hshared
  exact le_of_square_le hshared

/-- The changed speed leaves something for the other axis. -/
theorem Energy.adjustment_le (h : Energy b)
    (hchange : (adjustment draws b bouncedX bouncedY).1 = some (axis, v)) : v ≤ 90 := by
  have hx := h.vx_le
  have hy := h.vy_le
  have hdelta : ∀ d : Int, d = toInt16 b.deltaS ∨ d = toInt16 (-b.deltaS) → -7 ≤ d ∧ d ≤ 7 := by
    rw [h.delta]
    rintro d (rfl | rfl) <;> decide
  have hd := hdelta (if draws (b.calls + 1) &&& 0x8000#16 ≠ 0#16 then toInt16 b.deltaS
    else toInt16 (-b.deltaS)) (by split_ifs <;> simp)
  rw [adjustment] at hchange
  generalize (if draws (b.calls + 1) &&& 0x8000#16 ≠ 0#16 then toInt16 b.deltaS
    else toInt16 (-b.deltaS)) = delta at hchange hd
  rw [h.maxAxis] at hchange
  have hx' := clampAxis_le hx hd.1 hd.2
  have hy' := clampAxis_le hy hd.1 hd.2
  dsimp only at hchange
  split_ifs at hchange
  all_goals
    simp only [Option.some.injEq, Prod.mk.injEq] at hchange
    rw [← hchange.2]
  exacts [hx', hx', hy', hy']

/-- What is left for the other axis. -/
theorem otherAxis_eq (hv : v ≤ 90) : otherAxis 8192 v = Nat.sqrt (8192 - v * v) := by
  have hsq : v * v ≤ 90 * 90 := Nat.mul_le_mul hv hv
  have hmod : v * v % 65536 = v * v := Nat.mod_eq_of_lt (by omega)
  have hcast : toUint16 ((8192 : Nat) - (v * v % 65536 : Nat)) = 8192 - v * v := by
    rw [hmod, toUint16_eq (by omega) (by omega)]
    omega
  rw [otherAxis, hcast]
  exact isqrt16_eq (by omega)

theorem otherAxis_shares (hv : v ≤ 90) :
    v * v + otherAxis 8192 v * otherAxis 8192 v ≤ 8192 ∧ 0 < otherAxis 8192 v := by
  have hsq : v * v ≤ 90 * 90 := Nat.mul_le_mul hv hv
  have hle := Nat.sqrt_le (8192 - v * v)
  rw [otherAxis_eq hv]
  refine ⟨by omega, Nat.sqrt_pos.2 (by omega)⟩

theorem Energy.setSpeeds (h : Energy b) {change : Option (Axis × Nat)}
    (hv : ∀ axis v, change = some (axis, v) → v ≤ 90) : Energy (setSpeeds b change) := by
  rcases change with - | ⟨axis | axis, v⟩
  · exact h
  all_goals
    obtain ⟨hshared, hpos⟩ := otherAxis_shares (hv _ v rfl)
    rw [← h.speed2] at hshared hpos
  · exact ⟨h.delta, h.maxAxis, h.speed2, hshared, fun hno => hpos.ne' hno.2⟩
  · refine ⟨h.delta, h.maxAxis, h.speed2, ?_, fun hno => hpos.ne' hno.1⟩
    rw [Nat.add_comm]
    exact hshared

/-- The speeds that are read back are the ones that are stored. -/
theorem readSpeeds_turn (h : Inv b) : readSpeeds (turn b) = turn b := by
  have hx : axisSpeed b.velX = b.vxS := by
    rw [h.velX, axisSpeed_velocity _ h.energy.vx_le]
  have hy : axisSpeed b.velY = b.vyS := by
    rw [h.velY, axisSpeed_velocity _ h.energy.vy_le]
  simp only [readSpeeds, turn, hx, hy]

theorem Energy.turn (h : Energy b) : Energy (turn b) :=
  ⟨h.delta, h.maxAxis, h.speed2, h.shared, h.moving⟩

/-- The speed is at most 360 units in either direction. -/
theorem velocity_bounds (sign : Int) (hv : v ≤ 90) :
    -360 ≤ velocity sign v ∧ velocity sign v ≤ 360 := by
  rw [velocity_eq sign hv]
  split_ifs <;> omega

end Step

/-! ## One iteration -/

section Move
variable {b : Ball} {draws : Nat → Word} {max pos vel sign : Int}

/-- A move on one axis, with sums that do not overflow. -/
theorem moveAxis_eq (hmax : max ≤ 7936) (hpos : 0 ≤ pos ∧ pos ≤ max)
    (hvel : -360 ≤ vel ∧ vel ≤ 360) : moveAxis max pos vel sign =
      if pos + vel < 0 then (0, 1, true) else if max < pos + vel then (max, -1, true)
      else (pos + vel, sign, false) := by
  rw [moveAxis, toInt16_eq (by omega) (by omega)]

theorem moveAxis_inside (hmax : max ≤ 7936) (hpos : 0 ≤ pos ∧ pos ≤ max)
    (hvel : -360 ≤ vel ∧ vel ≤ 360) :
    0 ≤ (moveAxis max pos vel sign).1 ∧ (moveAxis max pos vel sign).1 ≤ max := by
  rw [moveAxis_eq hmax hpos hvel]
  split_ifs
  · exact ⟨Int.le_refl 0, hpos.1.trans hpos.2⟩
  · exact ⟨hpos.1.trans hpos.2, Int.le_refl max⟩
  · exact ⟨by omega, by omega⟩

/-- Without a bounce the sign stays. -/
theorem moveAxis_sign (h : (moveAxis max pos vel sign).2.2 = false) :
    (moveAxis max pos vel sign).2.1 = sign := by
  rw [moveAxis] at h ⊢
  split_ifs at h ⊢
  rfl

theorem Inv.velX_bounds (h : Inv b) : -360 ≤ b.velX ∧ b.velX ≤ 360 := by
  rw [h.velX]
  exact velocity_bounds _ h.energy.vx_le

theorem Inv.velY_bounds (h : Inv b) : -360 ≤ b.velY ∧ b.velY ≤ 360 := by
  rw [h.velY]
  exact velocity_bounds _ h.energy.vy_le

theorem maxX_eq : maxX = 7936 := by decide

theorem maxY_eq : maxY = 5888 := by decide

theorem cell_lt {n : Nat} (h : 0 ≤ pos ∧ pos ≤ (n : Int) * 256) (hn : n < 256) :
    toUint16 (pos / 256) < n + 1 := by
  rw [toUint16_eq (by omega) (by omega)]
  omega

/-- The ball as the body of the `if` leaves it. -/
theorem bounce_turn (draws : Nat → Word) (h : Inv b) (bouncedX bouncedY : Bool) :
    Energy (bounce draws bouncedX bouncedY (turn b)) ∧
      (bounce draws bouncedX bouncedY (turn b)).velX =
        velocity (turn b).signX (bounce draws bouncedX bouncedY (turn b)).vxS ∧
      (bounce draws bouncedX bouncedY (turn b)).velY =
        velocity (turn b).signY (bounce draws bouncedX bouncedY (turn b)).vyS ∧
      (bounce draws bouncedX bouncedY (turn b)).signX = (turn b).signX ∧
      (bounce draws bouncedX bouncedY (turn b)).signY = (turn b).signY := by
  rw [bounce, readSpeeds_turn h]
  rcases hadj : adjustment draws (turn b) bouncedX bouncedY with ⟨change, calls⟩
  have hv : ∀ axis v, change = some (axis, v) → v ≤ 90 := fun axis v hc =>
    h.energy.turn.adjustment_le (by rw [hadj, hc])
  have hturn : Energy { turn b with calls := calls } :=
    ⟨h.energy.delta, h.energy.maxAxis, h.energy.speed2, h.energy.shared, h.energy.moving⟩
  have henergy := hturn.setSpeeds hv
  have hsign : (setSpeeds { turn b with calls := calls } change).signX = (turn b).signX ∧
      (setSpeeds { turn b with calls := calls } change).signY = (turn b).signY := by
    rcases change with - | ⟨axis | axis, v⟩ <;> exact ⟨rfl, rfl⟩
  dsimp only
  rw [hsign.1, hsign.2]
  exact ⟨⟨henergy.delta, henergy.maxAxis, henergy.speed2, henergy.shared, henergy.moving⟩, rfl, rfl,
    rfl, rfl⟩

/-- The velocities after an iteration have the signs after the move. -/
theorem moveBall_spec (draws : Nat → Word) (h : Inv b) :
    Energy (moveBall draws b) ∧
      (moveBall draws b).velX = velocity (moveX b).2.1 (moveBall draws b).vxS ∧
      (moveBall draws b).velY = velocity (moveY b).2.1 (moveBall draws b).vyS ∧
      (moveBall draws b).signX = (moveX b).2.1 ∧ (moveBall draws b).signY = (moveY b).2.1 := by
  by_cases hb : ((moveX b).2.2 || (moveY b).2.2) = true
  · obtain ⟨henergy, hx, hy, hsx, hsy⟩ := bounce_turn draws h (moveX b).2.2 (moveY b).2.2
    simp only [moveBall, if_pos hb]
    exact ⟨⟨henergy.delta, henergy.maxAxis, henergy.speed2, henergy.shared, henergy.moving⟩, hx, hy,
      hsx, hsy⟩
  · -- both signs are the old ones
    have hno := hb
    simp only [Bool.or_eq_true, not_or, Bool.not_eq_true] at hno
    have hsx : (moveX b).2.1 = b.signX := moveAxis_sign hno.1
    have hsy : (moveY b).2.1 = b.signY := moveAxis_sign hno.2
    simp only [moveBall, if_neg hb]
    refine ⟨⟨h.energy.delta, h.energy.maxAxis, h.energy.speed2, h.energy.shared, h.energy.moving⟩,
      ?_, ?_, rfl, rfl⟩
    · rw [hsx]
      exact h.velX
    · rw [hsy]
      exact h.velY

/-- An iteration keeps the invariant. -/
theorem moveBall_inv (h : Inv b) : Inv (moveBall draws b) := by
  obtain ⟨henergy, hx, hy, hsx, hsy⟩ := moveBall_spec draws h
  have hposX : 0 ≤ (moveX b).1 ∧ (moveX b).1 ≤ maxX :=
    moveAxis_inside (by rw [maxX_eq]) h.posX h.velX_bounds
  have hposY : 0 ≤ (moveY b).1 ∧ (moveY b).1 ≤ maxY :=
    moveAxis_inside (by rw [maxY_eq]; decide) h.posY h.velY_bounds
  refine ⟨henergy, hposX, hposY, ?_, ?_, ?_, ?_⟩
  · rw [hx, hsx]
  · rw [hy, hsy]
  · exact cell_lt (n := 31) hposX (by decide)
  · exact cell_lt (n := 23) hposY (by decide)

theorem startBall_inv (calls : Nat) : Inv (startBall calls) := by
  have hroot : isqrt16 8192 = 90 := by
    rw [isqrt16_eq (by decide)]
    exact (Nat.eq_sqrt.2 (by decide)).symm
  have hmax : (startBall calls).maxAxisS = 90 := hroot
  have hspeeds : (startBall calls).vxS = 64 ∧ (startBall calls).vyS = 64 := ⟨rfl, rfl⟩
  have henergy : Energy (startBall calls) := by
    refine ⟨rfl, hmax, rfl, ?_, ?_⟩
    · rw [hspeeds.1, hspeeds.2]
      exact Nat.le_refl 8192
    · rw [hspeeds.1]
      exact fun hno => absurd hno.1 (by decide)
  have hpos : (startBall calls).posX = 4096 ∧ (startBall calls).posY = 3072 := ⟨rfl, rfl⟩
  have hcell : (startBall calls).ballX = 16 ∧ (startBall calls).ballY = 12 := ⟨rfl, rfl⟩
  refine ⟨henergy, ?_, ?_, ?_, ?_, ?_, ?_⟩
  · rw [hpos.1]
    decide
  · rw [hpos.2]
    decide
  · simp only [startBall]
  · simp only [startBall]
  · rw [hcell.1]
    decide
  · rw [hcell.2]
    decide

end Move

/-! ## The border -/

def OnBorder (row col : Nat) : Prop :=
  row = 0 ∨ row = screenRows - 1 ∨ col = 0 ∨ col = screenCols - 1

/-- The index by the four sides. -/
theorem borderIndex_cases {row col : Nat} (hrow : row < screenRows) (hcol : col < screenCols) :
    (row = 0 ∧ borderIndex row col = col) ∨
      (row = 23 ∧ borderIndex row col = 54 + col) ∨
      (0 < row ∧ row < 23 ∧ col = 31 ∧ borderIndex row col = 31 + row) ∨
      (0 < row ∧ row < 23 ∧ col = 0 ∧ borderIndex row col = 85 + row) ∨
      (0 < row ∧ row < 23 ∧ 0 < col ∧ col < 31 ∧ borderIndex row col = -1) := by
  have hR : screenRows = 24 := rfl
  have hC : screenCols = 32 := rfl
  have hT : borderTopLen = 32 := rfl
  have hS : borderSideLen = 22 := rfl
  have hcast (n : Nat) (hn : n < 108) : toInt16 n = n := toInt16_eq (by omega) (by omega)
  rw [borderIndex]
  by_cases h0 : row = 0
  · rw [if_pos h0, hcast col (by omega)]
    exact Or.inl ⟨h0, rfl⟩
  by_cases h23 : row = screenRows - 1
  · rw [if_neg h0, if_pos h23, hcast _ (by omega)]
    omega
  by_cases h31 : col = screenCols - 1
  · rw [if_neg h0, if_neg h23, if_pos (by omega), hcast _ (by omega)]
    omega
  by_cases hleft : col = 0
  · rw [if_neg h0, if_neg h23, if_neg (by omega), if_pos (by omega), hcast _ (by omega)]
    omega
  · rw [if_neg h0, if_neg h23, if_neg (by omega), if_neg (by omega)]
    omega

theorem borderIndex_range {row col : Nat} (hrow : row < screenRows) (hcol : col < screenCols) :
    borderIndex row col = -1 ∨ 0 ≤ borderIndex row col ∧ borderIndex row col < borderTotal := by
  have htotal : (borderTotal : Int) = 108 := rfl
  have h := borderIndex_cases hrow hcol
  simp only [screenRows, screenCols] at hrow hcol
  omega

theorem borderIndex_inj {row col row' col' : Nat} (hrow : row < screenRows)
    (hcol : col < screenCols) (hrow' : row' < screenRows) (hcol' : col' < screenCols)
    (hb : OnBorder row' col') (heq : borderIndex row col = borderIndex row' col') :
    row = row' ∧ col = col' := by
  have h := borderIndex_cases hrow hcol
  have h' := borderIndex_cases hrow' hcol'
  simp only [OnBorder, screenRows, screenCols] at hb hrow hcol hrow' hcol'
  omega

/-! ## Whole runs -/

/-- What the next iteration relies on, and where it sends the ball. -/
structure Sound (draws : Nat → Word) (b : Ball) : Prop where
  posX : 0 ≤ b.posX ∧ b.posX ≤ maxX
  posY : 0 ≤ b.posY ∧ b.posY ≤ maxY
  sumX : -32768 ≤ b.posX + b.velX ∧ b.posX + b.velX ≤ 32767
  sumY : -32768 ≤ b.posY + b.velY ∧ b.posY + b.velY ≤ 32767
  index : borderIndex b.ballY b.ballX = -1 ∨
    0 ≤ borderIndex b.ballY b.ballX ∧ borderIndex b.ballY b.ballX < borderTotal
  shared : b.vxS * b.vxS + b.vyS * b.vyS ≤ b.speed2S
  moving : ¬ (b.vxS = 0 ∧ b.vyS = 0)
  /-- The square that is taken from the energy is not larger. -/
  left : ∀ axis v,
    (adjustment draws (readSpeeds (turn b)) (moveX b).2.2 (moveY b).2.2).1 = some (axis, v) →
      v * v < 65536 ∧ v * v ≤ b.speed2S
  inwardX : (b.posX + b.velX < 0 → 0 ≤ (moveBall draws b).velX) ∧
    (maxX < b.posX + b.velX → (moveBall draws b).velX ≤ 0)
  inwardY : (b.posY + b.velY < 0 → 0 ≤ (moveBall draws b).velY) ∧
    (maxY < b.posY + b.velY → (moveBall draws b).velY ≤ 0)

section Sound
variable {b : Ball} {draws : Nat → Word} {max pos vel sign : Int} {v : Nat}

/-- With the sign after the move the velocity points inward. -/
theorem velocity_inward (hmax : max ≤ 7936) (hpos : 0 ≤ pos ∧ pos ≤ max)
    (hvel : -360 ≤ vel ∧ vel ≤ 360) (hv : v ≤ 90) :
    (pos + vel < 0 → 0 ≤ velocity (moveAxis max pos vel sign).2.1 v) ∧
      (max < pos + vel → velocity (moveAxis max pos vel sign).2.1 v ≤ 0) := by
  rw [moveAxis_eq hmax hpos hvel]
  constructor
  · intro h
    rw [if_pos h, velocity_eq 1 hv, if_neg (by decide)]
    omega
  · intro h
    rw [if_neg (by omega), if_pos h, velocity_eq (-1) hv, if_pos (by decide)]
    omega

theorem Inv.sound (h : Inv b) : Sound draws b := by
  have hbx := h.velX_bounds
  have hby := h.velY_bounds
  have hx := h.posX
  have hy := h.posY
  rw [maxX_eq] at hx
  rw [maxY_eq] at hy
  obtain ⟨henergy, hvx, hvy, -, -⟩ := moveBall_spec draws h
  refine ⟨h.posX, h.posY, ⟨by omega, by omega⟩, ⟨by omega, by omega⟩, ?_, h.energy.shared,
    h.energy.moving, fun axis v hchange => ?_, ?_, ?_⟩
  · exact borderIndex_range h.cellY h.cellX
  · rw [readSpeeds_turn h] at hchange
    have hv := h.energy.turn.adjustment_le hchange
    have hsq : v * v ≤ 90 * 90 := Nat.mul_le_mul hv hv
    rw [h.energy.speed2]
    exact ⟨by omega, by omega⟩
  · rw [hvx]
    exact velocity_inward (by rw [maxX_eq]) h.posX hbx henergy.vx_le
  · rw [hvy]
    exact velocity_inward (by rw [maxY_eq]; decide) h.posY hby henergy.vy_le

end Sound

theorem leaveCell_ball (s : State) : (leaveCell s).ball = s.ball := by
  rw [leaveCell]
  dsimp only
  split_ifs <;> rfl

/-- The invariant holds before every iteration. -/
theorem run_inv (draws : Nat → Word) (border screen : Nat → Byte) (calls n : Nat) :
    Inv ((iterate draws)^[n] (start border screen calls)).ball := by
  induction n with
  | zero => exact startBall_inv calls
  | succ n ih =>
    rw [Function.iterate_succ_apply', iterate]
    dsimp only
    rw [leaveCell_ball]
    exact moveBall_inv ih

/-- Whatever `rng_next` returns, the ball stays on the screen and no sum or
difference leaves its type; the cells of the border have numbers of their own;
and the integer square root is the floor of the root. -/
theorem run_ball_sound :
    (∀ draws border screen calls n,
      Sound draws ((iterate draws)^[n] (start border screen calls)).ball) ∧
    (∀ row col row' col', row < screenRows → col < screenCols → row' < screenRows →
      col' < screenCols → OnBorder row' col' → borderIndex row col = borderIndex row' col' →
      row = row' ∧ col = col') ∧
    ∀ v, v < 65536 → isqrt16 v = Nat.sqrt v :=
  ⟨fun draws border screen calls n => (run_inv draws border screen calls n).sound,
    fun _ _ _ _ hrow hcol hrow' hcol' => borderIndex_inj hrow hcol hrow' hcol',
    fun _ => isqrt16_eq⟩

end LlvmTms9900.Cart.Ball2
