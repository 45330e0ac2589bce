import LlvmTms9900.Builtins.Div32Signed
import LlvmTms9900.Isa.Run

/-!
# The shape of the 32-bit shift routines

Both shift libraries treat the count in the same stages: counts of 32 and more
are answered at once, counts of 16 and more move one word into the other, and
the rest is a loop of one-bit shifts. What the stages do to the value in
`R0:R1` is a parameter, and so is the program.
-/

namespace LlvmTms9900.Builtins.Shift
open LlvmTms9900.Isa

variable {L : Type} [DecidableEq L] (ord : CompareOrder) (p : Program L)

/-- The code from offset `k` to offset `j` maps the value in `R0:R1` by `f` and
keeps the count and the return address. -/
def Piece (k j : Nat) (f : Nat → Nat) : Prop :=
  ∀ s : State, s.pc = BitVec.ofNat 16 k → ∃ t, Reaches ord p s t ∧ t.pc = BitVec.ofNat 16 j ∧
    t.regs .r2 = s.regs .r2 ∧ t.regs .r11 = s.regs .r11 ∧ t.pair .r0 .r1 = f (s.pair .r0 .r1)

/-- The stages of a routine: where they are and what they do. -/
structure Stages (f g h : Nat → Nat) where
  /-- answer to counts of 32 and more -/
  big : Nat
  /-- move one word into the other -/
  move : Nat
  /-- `AI R2,-16`, `JEQ done` -/
  after : Nat
  /-- the one-bit shift, ending at `DEC R2`, `JNE loop` -/
  head : Nat
  next : Nat
  loop : L
  done : L
  bigReturns : ∀ s : State, s.pc = BitVec.ofNat 16 big → ReturnsValue ord p s (h (s.pair .r0 .r1))
  movePiece : Piece ord p move after g
  afterBlock : blockAt p.text after 2 = some [.ai .r2 0xFFF0#16, .jump .eq done]
  headEq : after + 6 = head
  bitPiece : Piece ord p head next f
  nextBlock : blockAt p.text next 2 = some [.dec (.reg .r2), .jump .ne loop]
  loopTarget : p.target loop = BitVec.ofNat 16 head
  doneTarget : p.target done = BitVec.ofNat 16 (next + 4)
  doneFetch : fetch p.text (next + 4) = some (.b .r11)
  bigBound : big ≤ 65536
  bound : next + 4 < 65536
  moveOrder : move ≤ after
  order : head ≤ next

variable {ord p} {f g h : Nat → Nat}

theorem Stages.returns_done (P : Stages ord p f g h) {s : State}
    (hpc : s.pc = BitVec.ofNat 16 (P.next + 4)) : ReturnsValue ord p s (s.pair .r0 .r1) := by
  refine ⟨s, ⟨Reaches.refl _ _ _, ?_, rfl⟩, rfl⟩
  rw [hpc, BitVec.toNat_ofNat, Nat.mod_eq_of_lt P.bound]
  exact P.doneFetch

/-- The loop shifts once for every count left, by induction on the count. -/
theorem Stages.returns_loop (P : Stages ord p f g h) (n : Nat) {s : State}
    (hpc : s.pc = BitVec.ofNat 16 P.head) (hn : (s.regs .r2).toNat = n + 1) :
    ReturnsValue ord p s (f^[n + 1] (s.pair .r0 .r1)) := by
  have hb := P.bound
  induction n generalizing s with
  | zero =>
    obtain ⟨t, b1, hpc1, h2, h11, hval⟩ := P.bitPiece s hpc
    obtain ⟨u, b2, e2⟩ := exists_block ord p 2 hpc1 P.nextBlock rfl (by simp [blockSize]; omega)
    have hz : t.regs .r2 - 1#16 = 0#16 := by
      rw [h2]
      bv_omega
    have hpc2 : u.pc = BitVec.ofNat 16 (P.next + 4) := by
      simp [e2, hpc1, hz, BitVec.ofNat_add, BitVec.add_assoc]
    have hu11 : u.regs .r11 = s.regs .r11 := by simp [e2, hz, h11]
    have hp : u.pair .r0 .r1 = t.pair .r0 .r1 := by simp [State.pair, e2, hz]
    have hend := P.returns_done hpc2
    rw [hp, hval] at hend
    exact ReturnsValue.of_reaches (b1.trans b2) hu11 hend
  | succ n ih =>
    obtain ⟨t, b1, hpc1, h2, h11, hval⟩ := P.bitPiece s hpc
    obtain ⟨u, b2, e2⟩ := exists_block ord p 2 hpc1 P.nextBlock rfl (by simp [blockSize]; omega)
    have hz : t.regs .r2 - 1#16 ≠ 0#16 := by
      rw [h2]
      bv_omega
    have hpc2 : u.pc = BitVec.ofNat 16 P.head := by simp [e2, hz, P.loopTarget]
    have hu2 : u.regs .r2 = s.regs .r2 - 1#16 := by
      rw [← h2]
      simp [e2, hz]
    have hu11 : u.regs .r11 = s.regs .r11 := by simp [e2, hz, h11]
    have hp : u.pair .r0 .r1 = t.pair .r0 .r1 := by simp [State.pair, e2, hz]
    have hend := ih hpc2 (by rw [hu2]; bv_omega)
    rw [hp, hval, ← Function.iterate_succ_apply] at hend
    exact ReturnsValue.of_reaches (b1.trans b2) hu11 hend

/-- What a routine with these stages returns. -/
def shiftValue (f g h : Nat → Nat) (c v : Nat) : Nat :=
  if 32 ≤ c then h v else if c < 16 then f^[c] v else f^[c - 16] (g v)

theorem Stages.returns_moved (P : Stages ord p f g h) {s : State}
    (hpc : s.pc = BitVec.ofNat 16 P.move) (h16 : 16 ≤ (s.regs .r2).toNat) :
    ReturnsValue ord p s (f^[(s.regs .r2).toNat - 16] (g (s.pair .r0 .r1))) := by
  have hb := P.bound
  have ho := P.order
  have hh := P.headEq
  obtain ⟨t, b1, hpc1, h2, h11, hval⟩ := P.movePiece s hpc
  obtain ⟨u, b2, e2⟩ := exists_block ord p 2 hpc1 P.afterBlock rfl (by simp [blockSize]; omega)
  by_cases hz : t.regs .r2 + 0xFFF0#16 = 0#16
  · have hpc2 : u.pc = BitVec.ofNat 16 (P.next + 4) := by simp [e2, hz, P.doneTarget]
    have hu11 : u.regs .r11 = s.regs .r11 := by simp [e2, hz, h11]
    have hp : u.pair .r0 .r1 = t.pair .r0 .r1 := by simp [State.pair, e2, hz]
    have hc : (s.regs .r2).toNat - 16 = 0 := by
      rw [h2] at hz
      bv_omega
    have hend := P.returns_done hpc2
    rw [hp, hval] at hend
    rw [hc, Function.iterate_zero_apply]
    exact ReturnsValue.of_reaches (b1.trans b2) hu11 hend
  · have hpc2 : u.pc = BitVec.ofNat 16 P.head := by
      rw [← hh]
      simp [e2, hpc1, hz, BitVec.ofNat_add, BitVec.add_assoc]
    have hu2 : u.regs .r2 = s.regs .r2 + 0xFFF0#16 := by
      rw [← h2]
      simp [e2, hz]
    have hu11 : u.regs .r11 = s.regs .r11 := by simp [e2, hz, h11]
    have hp : u.pair .r0 .r1 = t.pair .r0 .r1 := by simp [State.pair, e2, hz]
    rw [h2] at hz
    obtain ⟨n, hn⟩ : ∃ n, (s.regs .r2).toNat - 16 = n + 1 :=
      ⟨(s.regs .r2).toNat - 17, by bv_omega⟩
    have hend := P.returns_loop n hpc2 (by rw [hu2]; bv_omega)
    rw [hp, hval] at hend
    rw [hn]
    exact ReturnsValue.of_reaches (b1.trans b2) hu11 hend

/-- `CI R2,16`, `JL loop`, in front of the word move. -/
theorem Stages.returns_small (P : Stages ord p f g h) {m : Nat} (hm : m + 6 = P.move)
    (hblock : blockAt p.text m 2 = some [.ci .r2 16#16, .jump .l P.loop]) {s : State}
    (hpc : s.pc = BitVec.ofNat 16 m) (hpos : 0 < (s.regs .r2).toNat)
    (hlt : (s.regs .r2).toNat < 32) :
    ReturnsValue ord p s (shiftValue f g h (s.regs .r2).toNat (s.pair .r0 .r1)) := by
  have hb := P.bound
  have ho := P.order
  have hmove := P.moveOrder
  have hh := P.headEq
  rw [shiftValue, if_neg (by omega)]
  obtain ⟨t, b1, e1⟩ := exists_block ord p 2 hpc hblock rfl (by simp [blockSize]; omega)
  by_cases h16 : (s.regs .r2).toNat < 16
  · have hc1 : ¬ 16#16 < s.regs .r2 := by bv_omega
    have hc2 : s.regs .r2 ≠ 16#16 := by bv_omega
    have hpc1 : t.pc = BitVec.ofNat 16 P.head := by simp [e1, hc1, hc2, P.loopTarget]
    have ht : t.regs = s.regs := by simp [e1, hc1, hc2]
    obtain ⟨n, hn⟩ : ∃ n, (s.regs .r2).toNat = n + 1 := ⟨(s.regs .r2).toNat - 1, by omega⟩
    have hend := P.returns_loop n hpc1 (by rw [ht]; exact hn)
    rw [if_pos h16, hn]
    simp only [State.pair, ht] at hend
    exact ReturnsValue.of_reaches b1 (by rw [ht]) hend
  · have hpc1 : t.pc = BitVec.ofNat 16 P.move := by
      rw [← hm]
      by_cases hgt : 16#16 < s.regs .r2
      · simp [e1, hpc, hgt, BitVec.ofNat_add, BitVec.add_assoc]
      · have heq : s.regs .r2 = 16#16 := by bv_omega
        simp [e1, hpc, heq, BitVec.ofNat_add, BitVec.add_assoc]
    have ht : t.regs = s.regs := by
      by_cases hgt : 16#16 < s.regs .r2
      · simp [e1, hgt]
      · have heq : s.regs .r2 = 16#16 := by bv_omega
        simp [e1, heq]
    have hend := P.returns_moved hpc1 (by rw [ht]; omega)
    rw [if_neg h16]
    simp only [State.pair, ht] at hend
    exact ReturnsValue.of_reaches b1 (by rw [ht]) hend

/-- `CI R2,32`, `JL ok`, in front of the answer to large counts: either the
routine is over, or it goes on at `ok` with registers as they were. -/
theorem Stages.split_big (P : Stages ord p f g h) {m j : Nat} {ok : L} (hm : m + 6 = P.big)
    (hok : p.target ok = BitVec.ofNat 16 j)
    (hblock : blockAt p.text m 2 = some [.ci .r2 32#16, .jump .l ok]) {s : State}
    (hpc : s.pc = BitVec.ofNat 16 m) :
    ReturnsValue ord p s (shiftValue f g h (s.regs .r2).toNat (s.pair .r0 .r1)) ∨
      ((s.regs .r2).toNat < 32 ∧ ∃ t, Reaches ord p s t ∧ t.pc = BitVec.ofNat 16 j ∧
        t.regs = s.regs) := by
  have hbig := P.bigBound
  obtain ⟨t, b1, e1⟩ := exists_block ord p 2 hpc hblock rfl (by simp [blockSize]; omega)
  by_cases h32 : (s.regs .r2).toNat < 32
  · have hc1 : ¬ 32#16 < s.regs .r2 := by bv_omega
    have hc2 : s.regs .r2 ≠ 32#16 := by bv_omega
    exact .inr ⟨h32, t, b1, by simp [e1, hc1, hc2, hok], by simp [e1, hc1, hc2]⟩
  · have hgt : 32#16 < s.regs .r2 ∨ s.regs .r2 = 32#16 := by bv_omega
    have hpc1 : t.pc = BitVec.ofNat 16 P.big := by
      rw [← hm]
      rcases hgt with hgt | heq
      · simp [e1, hpc, hgt, BitVec.ofNat_add, BitVec.add_assoc]
      · simp [e1, hpc, heq, BitVec.ofNat_add, BitVec.add_assoc]
    have ht : t.regs = s.regs := by
      rcases hgt with hgt | heq
      · simp [e1, hgt]
      · simp [e1, heq]
    have hend := P.bigReturns t hpc1
    simp only [State.pair, ht] at hend
    refine .inl (ReturnsValue.of_reaches b1 (by rw [ht]) ?_)
    rw [shiftValue, if_pos (by omega)]
    exact hend

/-- `MOV R2,R2`, `JEQ done`: a count of zero leaves the value alone. -/
theorem Stages.split_zero (P : Stages ord p f g h) {m : Nat} (hm : m + 4 ≤ 65536)
    (hblock : blockAt p.text m 2 = some [.mov (.reg .r2) (.reg .r2), .jump .eq P.done]) {s : State}
    (hpc : s.pc = BitVec.ofNat 16 m) :
    ReturnsValue ord p s (shiftValue f g h (s.regs .r2).toNat (s.pair .r0 .r1)) ∨
      (0 < (s.regs .r2).toNat ∧ ∃ t, Reaches ord p s t ∧ t.pc = BitVec.ofNat 16 (m + 4) ∧
        t.regs = s.regs) := by
  obtain ⟨t, b1, e1⟩ := exists_block ord p 2 hpc hblock rfl (by simp [blockSize]; omega)
  by_cases hz : s.regs .r2 = 0#16
  · have hpc1 : t.pc = BitVec.ofNat 16 (P.next + 4) := by simp [e1, hz, P.doneTarget]
    have ht11 : t.regs .r11 = s.regs .r11 := by simp [e1, hz]
    have hp : t.pair .r0 .r1 = s.pair .r0 .r1 := by simp [State.pair, e1, hz]
    have hend := P.returns_done hpc1
    rw [hp] at hend
    have hv : shiftValue f g h (s.regs .r2).toNat (s.pair .r0 .r1) = s.pair .r0 .r1 := by
      simp [shiftValue, hz]
    rw [hv]
    exact .inl (ReturnsValue.of_reaches b1 ht11 hend)
  · refine .inr ⟨by bv_omega, t, b1, ?_, ?_⟩
    · simp [e1, hpc, hz, BitVec.ofNat_add, BitVec.add_assoc]
    · funext r
      by_cases hr : r = .r2 <;> simp [e1, hz, hr]

/-- The large counts tested first, then a count of zero. -/
theorem Stages.returns_count_first (P : Stages ord p f g h) (ok : L) {m j : Nat}
    (hm : m + 6 = P.big) (hj : j + 10 = P.move) (hok : p.target ok = BitVec.ofNat 16 j)
    (hb1 : blockAt p.text m 2 = some [.ci .r2 32#16, .jump .l ok])
    (hb2 : blockAt p.text j 2 = some [.mov (.reg .r2) (.reg .r2), .jump .eq P.done])
    (hb3 : blockAt p.text (j + 4) 2 = some [.ci .r2 16#16, .jump .l P.loop]) {s : State}
    (hpc : s.pc = BitVec.ofNat 16 m) :
    ReturnsValue ord p s (shiftValue f g h (s.regs .r2).toNat (s.pair .r0 .r1)) := by
  have hb := P.bound
  have hmove := P.moveOrder
  have ho := P.order
  have hh := P.headEq
  rcases P.split_big hm hok hb1 hpc with hend | ⟨hlt, t, b1, hpc1, ht⟩
  · exact hend
  refine ReturnsValue.of_reaches b1 (by rw [ht]) ?_
  rw [State.pair, ← ht, ← State.pair]
  rcases P.split_zero (by omega) hb2 hpc1 with hend | ⟨hpos, u, b2, hpc2, hu⟩
  · exact hend
  refine ReturnsValue.of_reaches b2 (by rw [hu]) ?_
  rw [State.pair, ← hu, ← State.pair]
  exact P.returns_small (by omega) hb3 hpc2 (by rw [hu]; exact hpos)
    (by rw [hu, ht]; exact hlt)

/-- A count of zero tested first, then the large counts. -/
theorem Stages.returns_zero_first (P : Stages ord p f g h) (ok : L) {m j : Nat}
    (hm : m + 10 = P.big) (hj : j + 6 = P.move) (hok : p.target ok = BitVec.ofNat 16 j)
    (hb1 : blockAt p.text m 2 = some [.mov (.reg .r2) (.reg .r2), .jump .eq P.done])
    (hb2 : blockAt p.text (m + 4) 2 = some [.ci .r2 32#16, .jump .l ok])
    (hb3 : blockAt p.text j 2 = some [.ci .r2 16#16, .jump .l P.loop]) {s : State}
    (hpc : s.pc = BitVec.ofNat 16 m) :
    ReturnsValue ord p s (shiftValue f g h (s.regs .r2).toNat (s.pair .r0 .r1)) := by
  have hbig := P.bigBound
  rcases P.split_zero (by omega) hb1 hpc with hend | ⟨hpos, t, b1, hpc1, ht⟩
  · exact hend
  refine ReturnsValue.of_reaches b1 (by rw [ht]) ?_
  rw [State.pair, ← ht, ← State.pair]
  rcases P.split_big (by omega) hok hb2 hpc1 with hend | ⟨hlt, u, b2, hpc2, hu⟩
  · exact hend
  refine ReturnsValue.of_reaches b2 (by rw [hu]) ?_
  rw [State.pair, ← hu, ← State.pair]
  exact P.returns_small hj hb3 hpc2 (by rw [hu, ht]; exact hpos) (by rw [hu]; exact hlt)

/-- The one-bit shifts, the word moves and the answers for large counts. -/
def shl1 (v : Nat) : Nat := 2 * v % 2 ^ 32
def shl16 (v : Nat) : Nat := 2 ^ 16 * v % 2 ^ 32
def sar1 (v : Nat) : Nat := Div32.word32 (Div32.signed32 v / 2)
def sar16 (v : Nat) : Nat := Div32.word32 (Div32.signed32 v / 2 ^ 16)
def signFill (v : Nat) : Nat := if Div32.isNeg v then 2 ^ 32 - 1 else 0

theorem iterate_shl1 (c v : Nat) (hv : v < 2 ^ 32) : shl1^[c] v = v * 2 ^ c % 2 ^ 32 := by
  induction c with
  | zero => rw [Function.iterate_zero_apply, pow_zero, Nat.mul_one, Nat.mod_eq_of_lt hv]
  | succ c ih =>
    rw [Function.iterate_succ_apply', ih, shl1, Nat.mul_mod_mod, pow_succ]
    ring_nf

theorem iterate_half (c v : Nat) : (· / 2)^[c] v = v / 2 ^ c := by
  induction c with
  | zero => simp
  | succ c ih => rw [Function.iterate_succ_apply', ih, Nat.div_div_eq_div_mul, pow_succ]

theorem shiftValue_shl (c v : Nat) (hv : v < 2 ^ 32) :
    shiftValue shl1 shl16 (fun _ => 0) c v = v * 2 ^ c % 2 ^ 32 := by
  unfold shiftValue
  by_cases h32 : 32 ≤ c
  · rw [if_pos h32]
    obtain ⟨k, rfl⟩ := Nat.exists_eq_add_of_le h32
    rw [pow_add, Nat.mul_comm (2 ^ 32), ← Nat.mul_assoc, Nat.mul_mod_left]
  · rw [if_neg h32]
    by_cases h16 : c < 16
    · rw [if_pos h16, iterate_shl1 c v hv]
    · obtain ⟨k, rfl⟩ := Nat.exists_eq_add_of_le (Nat.le_of_not_lt h16)
      have hlt : shl16 v < 2 ^ 32 := Nat.mod_lt _ (by norm_num)
      rw [if_neg h16, iterate_shl1 _ _ hlt, shl16, Nat.add_sub_cancel_left,
        Nat.mod_mul_mod, pow_add]
      ring_nf

theorem shiftValue_shr (c v : Nat) (hv : v < 2 ^ 32) :
    shiftValue (· / 2) (· / 2 ^ 16) (fun _ => 0) c v = v / 2 ^ c := by
  unfold shiftValue
  by_cases h32 : 32 ≤ c
  · have hle : 2 ^ 32 ≤ 2 ^ c := Nat.pow_le_pow_right (by norm_num) h32
    rw [if_pos h32, Nat.div_eq_of_lt (hv.trans_le hle)]
  · rw [if_neg h32]
    by_cases h16 : c < 16
    · rw [if_pos h16, iterate_half]
    · obtain ⟨k, rfl⟩ := Nat.exists_eq_add_of_le (Nat.le_of_not_lt h16)
      rw [if_neg h16, iterate_half, Nat.div_div_eq_div_mul, ← pow_add, Nat.add_sub_cancel_left]

theorem signed32_word32 {z : Int} (h1 : -2 ^ 31 ≤ z) (h2 : z < 2 ^ 31) :
    Div32.signed32 (Div32.word32 z) = z := by
  unfold Div32.signed32 Div32.word32 Div32.isNeg
  split <;> rename_i hn <;> simp only [decide_eq_true_eq] at hn <;> omega

theorem signed32_range {v : Nat} (hv : v < 2 ^ 32) :
    -2 ^ 31 ≤ Div32.signed32 v ∧ Div32.signed32 v < 2 ^ 31 := by
  unfold Div32.signed32 Div32.isNeg
  split <;> rename_i hn <;> simp only [decide_eq_true_eq] at hn <;> omega

theorem word32_signed32 {v : Nat} (hv : v < 2 ^ 32) : Div32.word32 (Div32.signed32 v) = v := by
  unfold Div32.signed32 Div32.word32 Div32.isNeg
  split <;> omega

/-- A floor division by a power of two stays in the range. -/
theorem ediv_pow_range {z : Int} (c : Nat) (h1 : -2 ^ 31 ≤ z) (h2 : z < 2 ^ 31) :
    -2 ^ 31 ≤ z / 2 ^ c ∧ z / 2 ^ c < 2 ^ 31 := by
  have hpos : (0 : Int) < 2 ^ c := by positivity
  have hone : (1 : Int) ≤ 2 ^ c := hpos
  constructor
  · rw [Int.le_ediv_iff_mul_le hpos]
    nlinarith
  · rw [Int.ediv_lt_iff_lt_mul hpos]
    nlinarith

theorem iterate_sar1 (c v : Nat) (hv : v < 2 ^ 32) :
    sar1^[c] v = Div32.word32 (Div32.signed32 v / 2 ^ c) := by
  induction c with
  | zero => simp [word32_signed32 hv]
  | succ c ih =>
    have hr := signed32_range hv
    have hc := ediv_pow_range c hr.1 hr.2
    rw [Function.iterate_succ_apply', ih, sar1, signed32_word32 hc.1 hc.2, pow_succ,
      Int.ediv_ediv_of_nonneg (by positivity)]

theorem shiftValue_sar (c v : Nat) (hv : v < 2 ^ 32) :
    shiftValue sar1 sar16 signFill c v = Div32.word32 (Div32.signed32 v / 2 ^ c) := by
  have hr := signed32_range hv
  unfold shiftValue
  by_cases h32 : 32 ≤ c
  · have hle : (2 : Int) ^ 32 ≤ 2 ^ c := pow_le_pow_right₀ (by norm_num) h32
    rw [if_pos h32, signFill]
    by_cases hn : Div32.isNeg v = true
    · have hneg : Div32.signed32 v < 0 := by
        have hge := (Div32.isNeg_iff v).1 hn
        simp only [Div32.signed32, hn, if_true]
        omega
      rw [if_pos hn, Int.ediv_eq_neg_one_of_neg_of_le hneg (by linarith)]
      decide
    · have hnonneg : 0 ≤ Div32.signed32 v := by
        simp only [Div32.signed32, hn, if_false, Bool.false_eq_true]
        omega
      rw [if_neg hn, Int.ediv_eq_zero_of_lt hnonneg (by linarith)]
      rfl
  · rw [if_neg h32]
    by_cases h16 : c < 16
    · rw [if_pos h16, iterate_sar1 c v hv]
    · obtain ⟨k, rfl⟩ := Nat.exists_eq_add_of_le (Nat.le_of_not_lt h16)
      have h16r := ediv_pow_range 16 hr.1 hr.2
      have hlt : sar16 v < 2 ^ 32 := by
        unfold sar16 Div32.word32
        omega
      rw [if_neg h16, iterate_sar1 _ _ hlt, sar16, signed32_word32 h16r.1 h16r.2,
        Int.ediv_ediv_of_nonneg (by positivity), ← pow_add, Nat.add_sub_cancel_left]

end LlvmTms9900.Builtins.Shift
