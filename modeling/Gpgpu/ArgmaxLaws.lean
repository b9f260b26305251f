-- The law of argmax.S: what its warp leaves in memory is the vector function of `Kernels`. Each
-- lane scans its own logits, five rounds of exchanges follow, and after each of them a lane
-- notes its index in the debug area.
import Gpgpu.LaunchLaws
import Gpgpu.Sources
import Gpgpu.Formats

open memory words cells

namespace gpgpu.argmax

open core X F kernels

/-- `struct argmax_args`. -/
structure argmax_args where
  logits_base : Nat
  V : Nat
  out_base : Nat
  debug_base : Nat

variable {fpu : Fpu} {fcvt : Int → Word} {m m1 : Mem} {a : argmax_args} {logits : List Word}
  {args t k : Nat} {i : Fin 32} {l : Lane Word}

/-! ## The scan and the rounds -/

def argmax_args.words (a : argmax_args) : List Nat := [a.logits_base, a.V, a.out_base, a.debug_base]

/-- The masks of the rounds. -/
def masks : List Nat := [16, 8, 4, 2, 1]

theorem shuffle_concat {α : Type} (op : α → α → α) (ms : List Nat) (mask : Nat) (f : Nat → α) (lane : Nat) :
    shuffle op (ms ++ [mask]) f lane = op (shuffle op ms f lane) (shuffle op ms f (lane ^^^ mask)) := by
  induction ms generalizing f with
  | nil => rfl
  | cons m ms ih => exact ih _

/-- What a lane has after a round, from what it and its mate had before. -/
theorem after_shuffles_succ (V : Nat) (hk : k < 5) (lane : Nat) :
    after_shuffles fpu V logits (k + 1) lane = reduce_step fpu (after_shuffles fpu V logits k lane)
      (after_shuffles fpu V logits k (lane ^^^ masks.getD k 0)) := by
  have htake : [16, 8, 4, 2, 1].take (k + 1) = [16, 8, 4, 2, 1].take k ++ [masks.getD k 0] := by
    interval_cases k <;> rfl
  unfold after_shuffles
  rw [htake, shuffle_concat]

theorem mate_val (hk : k < 5) (i : Fin 32) : (mate (masks.getD k 0) i).val = i ^^^ masks.getD k 0 := by
  have hlt : masks.getD k 0 < 2 ^ 5 := by interval_cases k <;> decide
  unfold mate
  rw [Fin.val_ofNat, Nat.mod_eq_of_lt (Nat.xor_lt_two_pow i.isLt hlt)]

/-! ## The buffers -/

/-- The arguments are there, and the buffers lie in the address space. -/
structure Ready (fpu : Fpu) (fcvt : Int → Word) (m : Mem) (args : Nat) (a : argmax_args) : Prop where
  loaded : Args (wordFormat fpu fcvt) m args a.words
  args_end : args + 16 ≤ 2 ^ 32
  some_logit : 0 < a.V
  logits_end : a.logits_base + 4 * a.V ≤ 2 ^ 32
  out_end : a.out_base + 4 ≤ 2 ^ 32
  debug_end : a.debug_base + 1024 ≤ 2 ^ 32

/-- The logits, the output word and the debug area lie apart, and the arguments are not
written. -/
structure Clear (args : Nat) (a : argmax_args) : Prop where
  out_logits : a.out_base + 4 ≤ a.logits_base ∨ a.logits_base + 4 * a.V ≤ a.out_base
  out_debug : a.out_base + 4 ≤ a.debug_base ∨ a.debug_base + 1024 ≤ a.out_base
  out_args : a.out_base + 4 ≤ args ∨ args + 16 ≤ a.out_base
  debug_logits : a.debug_base + 1024 ≤ a.logits_base ∨ a.logits_base + 4 * a.V ≤ a.debug_base
  debug_args : a.debug_base + 1024 ≤ args ∨ args + 16 ≤ a.debug_base

/-- What a lane reads. -/
def Reads (args : Nat) (a : argmax_args) (x : Nat) : Prop :=
  InBuf args 16 x ∨ InBuf a.logits_base (4 * a.V) x

/-- The logits as they lie in memory. -/
def LogitsAre (m : Mem) (a : argmax_args) (logits : List Word) : Prop :=
  ∀ j < a.V, word m (a.logits_base + 4 * j) = logits.getD j 0

/-- The index that lane `i` notes in slot `s`, and where. -/
def dump (fpu : Fpu) (a : argmax_args) (logits : List Word) (i : Fin 32) (s : Nat) : List (Nat × Word) :=
  [(a.debug_base + 4 * (i * 8 + s), (after_shuffles fpu a.V logits s i).index)]

section

variable (w v : Word)

@[simp] theorem ofBits_word : (wordFormat fpu fcvt).ofBits w = w := rfl
@[simp] theorem toBits_word : (wordFormat fpu fcvt).toBits w = w := rfl
@[simp] theorem flt_word : (wordFormat fpu fcvt).flt w v = fpu.flt w v := rfl
@[simp] theorem feq_word : (wordFormat fpu fcvt).feq w v = fpu.feq w v := rfl

end

/-! ## The scan -/

/-- In `phaseA_loop`, with the best element so far. -/
structure AtScan (fpu : Fpu) (fcvt : Int → Word) (m : Mem) (args : Nat) (a : argmax_args) (i : Fin 32)
    (best : Best) (t pc : Nat) (l : Lane Word) : Prop where
  pc : l.pc = pc
  active : l.active = true
  a0 : l.x a0 = num a.logits_base
  a1 : l.x a1 = num a.V
  a2 : l.x a2 = num a.out_base
  a6 : l.x a6 = num a.debug_base
  t0 : l.x t0 = num i
  t1 : l.x t1 = num t
  t3 : l.x t3 = num ((a.V + 31) / 32)
  s0 : l.x s0 = best.index
  ft1 : l.f ft1 = best.value
  log : Trace (wordFormat fpu fcvt) m (Reads args a) [] l.log

theorem AtScan.goto {best : Best} {pc : Nat} (hl : AtScan fpu fcvt m args a i best t pc l) (pc' : Nat) :
    AtScan fpu fcvt m args a i best t pc' (l.goto pc') :=
  { hl with pc := rfl }

theorem starts (hready : Ready fpu fcvt m args a) (logits : List Word) (regs : Regs Word) (i : Fin 32) :
    Leads (wordFormat fpu fcvt) (assemble source.argmax) m 30 (begin_lane regs 0 (num args) i)
      (AtScan fpu fcvt m args a i (phaseA_loop fpu a.V logits i 0) 0 12) := by
  have hend := hready.logits_end
  have hargs := hready.args_end
  refine (leads_loads (n := 16) [(a1, 1), (a2, 2), (a6, 3)] hready.loaded hready.args_end (Nat.le_refl _)
    ⟨by decide, by simp [argmax_args.words]⟩ rfl (by decide)).trans fun l hl => ?_
  have hregs := hl.regs
  simp [argmax_args.words] at hregs
  obtain ⟨ha1, ha2, ha6⟩ := hregs
  have hview : view (wordFormat fpu fcvt) m l = m := view_of_reads hl.log
  have hbase : (wordFormat fpu fcvt).get m args = num a.logits_base := hready.loaded.1
  refine leads_straight [.lw a0 0 a0, .csrr_mhartid t0, .opi .and t0 t0 0x1F, .li s0 0x7F7FFFFF,
    .li a3 0xFF800000, .fmv_s_x ft1 a3, .opi .add t3 a1 31, .opi .srl t3 t3 5, .li t1 0] 3 rfl rfl
    hl.pc hl.active (by decide) fun hpc hactive => ?_
  refine leads_refl ⟨hpc, hactive, ?_, ?_, ?_, ?_, ?_, ?_, ?_, ?_, ?_, ?_⟩ <;>
    simp (disch := omega) [straight, act, Act.lane, ha1, ha2, ha6, hl.a0, hl.mhartid, hview, hbase]
  · rfl
  · rfl
  · rfl
  · exact ⟨.inl ⟨by omega, by omega⟩, trace_nil (hl.log.mono (fun x hx => .inl hx) fun _ hx => hx)⟩

/-- A turn takes its logit in if there is one and it is larger. -/
theorem takes (hready : Ready fpu fcvt m args a) (hlogits : LogitsAre m a logits)
    (ht : t < (a.V + 31) / 32) (hl : AtScan fpu fcvt m args a i (phaseA_loop fpu a.V logits i t) t 12 l) :
    Leads (wordFormat fpu fcvt) (assemble source.argmax) m 30 l
      (AtScan fpu fcvt m args a i (phaseA_loop fpu a.V logits i (t + 1)) t 22) := by
  have hend := hready.logits_end
  have hilt := i.isLt
  rw [phaseA_loop_succ]
  refine leads_line [.opi .sll t2 t1 5, .op .add t2 t2 t0] 12 rfl rfl hl.pc hl.active (by decide)
    fun l1 hl1 hpc hactive => ?_
  have hat1 : AtScan fpu fcvt m args a i (phaseA_loop fpu a.V logits i t) t 14 l1 ∧
      l1.x t2 = num (t * 32 + i) := by
    subst hl1
    refine ⟨⟨hpc, hactive, ?_, ?_, ?_, ?_, ?_, ?_, ?_, ?_, ?_, ?_⟩, ?_⟩ <;>
      simp [straight, act, Act.lane, hl.a0, hl.a1, hl.a2, hl.a6, hl.t0, hl.t1, hl.t3, hl.s0, hl.ft1, hl.log]
  obtain ⟨hl, ht2⟩ := hat1
  clear hl1 hpc hactive
  refine leads_test 14 rfl hl.pc hl.active (by decide)
    (by rw [ht2, hl.a1, geu_num (by omega) (by omega)]) (fun hout => ?_) fun hin => ?_
  · rw [if_neg (by omega)]
    exact leads_refl (hl.goto 22)
  have hjlt : t * 32 + i.val < a.V := by omega
  have hread : Reads args a (a.logits_base + 4 * (t * 32 + i)) := .inr ⟨by omega, by omega⟩
  have haddr : (t * 32 + i) * 4 + a.logits_base = a.logits_base + 4 * (t * 32 + i) := by ring
  have hget : (wordFormat fpu fcvt).get (view (wordFormat fpu fcvt) m l1) (a.logits_base + 4 * (t * 32 + i)) =
      logits.getD (t * 32 + i) 0 := (hl.log.get (by simp)).trans (hlogits _ hjlt)
  generalize hw : logits.getD (t * 32 + i) 0 = w at hget ⊢
  refine leads_line [.opi .sll t4 t2 2, .op .add t4 t4 a0, .flw ft0 0 t4, .fcmp .flt t5 ft1 ft0] 15 rfl rfl
    rfl ((active_goto ..).trans hl.active) (by decide) fun l2 hl2 hpc hactive => ?_
  have hat2 : AtScan fpu fcvt m args a i (phaseA_loop fpu a.V logits i t) t 19 l2 ∧
      l2.x t2 = num (t * 32 + i) ∧ l2.f ft0 = w ∧
      l2.x t5 = if fpu.flt (phaseA_loop fpu a.V logits i t).value w then 1 else 0 := by
    subst hl2
    refine ⟨⟨hpc, hactive, ?_, ?_, ?_, ?_, ?_, ?_, ?_, ?_, ?_, ?_⟩, ?_, ?_, ?_⟩ <;>
      simp (disch := omega) [straight, act, Act.lane, FCmp.eval, hl.a0, hl.a1, hl.a2, hl.a6, hl.t0, hl.t1,
        hl.t3, hl.s0, hl.ft1, hl.log, ht2, haddr, hget, hread]
  obtain ⟨hl, ht2, hft0, ht5⟩ := hat2
  clear hl2 hpc hactive
  refine leads_test (p := ¬ fpu.flt (phaseA_loop fpu a.V logits i t).value w = true) 19 rfl hl.pc hl.active
    (by decide) (by rw [ht5, x_zero]; split <;> simp [Cond.eval, *]) (fun hless => ?_) fun hmore => ?_
  · rw [if_neg (fun h => hless h.2)]
    exact leads_refl (hl.goto 22)
  · rw [not_not] at hmore
    rw [if_pos ⟨hjlt, hmore⟩, show UInt32.ofNat (t * 32 + i) = num (t * 32 + i) from rfl]
    refine leads_straight [.fmv_s ft1 ft0, .opi .add s0 t2 0] 20 rfl rfl rfl
      ((active_goto ..).trans hl.active) (by decide) fun hpc hactive => ?_
    refine leads_refl ⟨hpc, hactive, ?_, ?_, ?_, ?_, ?_, ?_, ?_, ?_, ?_, ?_⟩ <;>
      simp [straight, act, Act.lane, hl.a0, hl.a1, hl.a2, hl.a6, hl.t0, hl.t1, hl.t3, hl.log, ht2, hft0]

def scan_pc (a : argmax_args) (t : Nat) : Nat := if t < (a.V + 31) / 32 then 12 else 24

/-- A whole turn. -/
theorem scan_turn (hready : Ready fpu fcvt m args a) (hlogits : LogitsAre m a logits)
    (ht : t < (a.V + 31) / 32) (hl : AtScan fpu fcvt m args a i (phaseA_loop fpu a.V logits i t) t 12 l) :
    Leads (wordFormat fpu fcvt) (assemble source.argmax) m 30 l
      (AtScan fpu fcvt m args a i (phaseA_loop fpu a.V logits i (t + 1)) (t + 1) (scan_pc a (t + 1))) := by
  have hend := hready.logits_end
  refine (takes hready hlogits ht hl).trans fun l hl => ?_
  refine leads_line [.opi .add t1 t1 1] 22 rfl rfl hl.pc hl.active (by decide)
    fun l1 hl1 hpc hactive => ?_
  have hbody : AtScan fpu fcvt m args a i (phaseA_loop fpu a.V logits i (t + 1)) (t + 1) 23 l1 := by
    subst hl1
    refine ⟨hpc, hactive, ?_, ?_, ?_, ?_, ?_, ?_, ?_, ?_, ?_, hl.log⟩ <;>
      simp [straight, act, Act.lane, hl.a0, hl.a1, hl.a2, hl.a6, hl.t0, hl.t1, hl.t3, hl.s0, hl.ft1]
  refine leads_test 23 rfl hbody.pc hactive (by decide)
    (by rw [hbody.t1, hbody.t3, ne_num (by omega) (by omega)]) (fun hmore => ?_) fun hlast => ?_
  · rw [scan_pc, if_pos (by omega)]
    exact leads_refl (hbody.goto 12)
  · rw [scan_pc, if_neg (by omega)]
    exact leads_refl (hbody.goto 24)

/-! ## The rounds -/

/-- A lane with a best element, whose index is also in `ft2`, after its notes `ps`. -/
structure AtBest (fpu : Fpu) (fcvt : Int → Word) (m : Mem) (args : Nat) (a : argmax_args) (i : Fin 32)
    (best : Best) (ps : List (Nat × Word)) (pc : Nat) (l : Lane Word) : Prop where
  pc : l.pc = pc
  active : l.active = true
  a2 : l.x a2 = num a.out_base
  a6 : l.x a6 = num a.debug_base
  t0 : l.x t0 = num i
  s0 : l.x s0 = best.index
  ft1 : l.f ft1 = best.value
  ft2 : l.f ft2 = best.index
  log : Trace (wordFormat fpu fcvt) m (Reads args a) ps l.log

theorem AtBest.goto {best : Best} {ps : List (Nat × Word)} {pc : Nat}
    (hl : AtBest fpu fcvt m args a i best ps pc l) (pc' : Nat) :
    AtBest fpu fcvt m args a i best ps pc' (l.goto pc') :=
  { hl with pc := rfl }

/-- `DUMP_FT2`. -/
def dump_code (slot : Nat) : List (Instr Nat) :=
  [.opi .sll t6 t0 5, .opi .add t6 t6 (num (4 * slot)), .op .add t6 t6 a6, .fmv_x_s a7 ft2, .sw a7 0 t6]

/-- A note in slot `s`. -/
theorem dumps {code : List (Instr Nat)} {pc hi s : Nat} (hready : Ready fpu fcvt m args a) (hs : s < 8)
    (hcode : (code.drop pc).take 5 = dump_code s) (hhi : pc + 5 ≤ hi)
    (hl : AtBest fpu fcvt m args a i (after_shuffles fpu a.V logits s i)
      (rounds (dump fpu a logits i) s) pc l) :
    Leads (wordFormat fpu fcvt) code m hi l (AtBest fpu fcvt m args a i (after_shuffles fpu a.V logits s i)
      (rounds (dump fpu a logits i) (s + 1)) (pc + 5)) := by
  have hend := hready.debug_end
  have hilt := i.isLt
  have haddr : i * 32 + 4 * s + a.debug_base = a.debug_base + 4 * (i * 8 + s) := by ring
  refine leads_straight (dump_code s) pc rfl hcode hl.pc hl.active hhi fun hpc hactive => ?_
  refine leads_refl ⟨hpc, hactive, ?_, ?_, ?_, ?_, ?_, ?_, ?_⟩ <;>
    simp (disch := omega) [dump_code, straight, act, Act.lane, hl.a2, hl.a6, hl.t0, hl.s0, hl.ft1,
      hl.ft2, haddr]
  rw [rounds_succ]
  refine hl.log.store rfl rfl fun p hp => ?_
  obtain ⟨s', hs', hp⟩ := mem_rounds.mp hp
  obtain rfl := List.mem_singleton.mp hp
  dsimp only
  omega

/-- The scan of a lane and its first note. -/
theorem scans (hready : Ready fpu fcvt m args a) (hlogits : LogitsAre m a logits) (regs : Regs Word)
    (i : Fin 32) :
    Leads (wordFormat fpu fcvt) (assemble source.argmax) m 30 (begin_lane regs 0 (num args) i)
      (AtBest fpu fcvt m args a i (after_shuffles fpu a.V logits 0 i)
        (rounds (dump fpu a logits i) 1) 30) := by
  have hsome := hready.some_logit
  refine (starts hready logits regs i).trans fun l hl => ?_
  have hbegin : scan_pc a 0 = 12 := if_pos (by omega)
  rw [← hbegin] at hl
  refine (leads_turns (fun t => AtScan fpu fcvt m args a i (phaseA_loop fpu a.V logits i t) t (scan_pc a t))
    (Nat.zero_le ((a.V + 31) / 32)) hl fun t ht l hl => ?_).trans fun l hl => ?_
  · rw [scan_pc, if_pos ht] at hl
    exact scan_turn hready hlogits ht hl
  · have hscan : phaseA_loop fpu a.V logits i ((a.V + 31) / 32) = after_shuffles fpu a.V logits 0 i := rfl
    rw [scan_pc, if_neg (Nat.lt_irrefl _), hscan] at hl
    refine leads_straight [.fmv_s_x ft2 s0] 24 rfl rfl hl.pc hl.active (by decide) fun hpc hactive => ?_
    refine dumps (s := 0) hready (by decide) rfl (by decide)
      ⟨hpc, hactive, ?_, ?_, ?_, ?_, ?_, ?_, hl.log⟩ <;>
      simp [straight, act, Act.lane, hl.a2, hl.a6, hl.t0, hl.s0, hl.ft1]

/-- The code of a round at `pc`: two exchanges, `REDUCE_STEP` and `DUMP_FT2`. -/
def round_code (pc mask slot : Nat) : List (Instr Nat) :=
  [.vshfl_xor ft3 ft1 mask, .vshfl_xor ft4 ft2 mask,
    .fmv_x_s a5 ft4, .fcmp .flt t5 ft1 ft3, .branch .ne t5 zero (pc + 8), .fcmp .feq t5 ft1 ft3,
    .branch .eq t5 zero (pc + 11), .branch .geu a5 s0 (pc + 11), .fmv_s ft1 ft3, .fmv_s ft2 ft4,
    .opi .add s0 a5 0] ++ dump_code slot

/-- A piece of a stretch of code. -/
theorem piece (stretch : List (Instr Nat)) {code : List (Instr Nat)} {pc : Nat}
    (h : (code.drop pc).take stretch.length = stretch) (j n : Nat) (hn : j + n ≤ stretch.length) :
    (code.drop (pc + j)).take n = (stretch.drop j).take n := by
  rw [← h, List.drop_take, List.take_take, List.drop_drop, Nat.min_eq_left (by omega)]

theorem piece_get (stretch : List (Instr Nat)) {code : List (Instr Nat)} {pc : Nat}
    (h : (code.drop pc).take stretch.length = stretch) (j : Nat) (hj : j < stretch.length) :
    code[pc + j]? = stretch[j]? := by
  rw [← List.getElem?_drop, ← List.getElem?_take_of_lt hj, h]

/-- `REDUCE_STEP`: a lane that has got what its mate has. -/
theorem reduces {code : List (Instr Nat)} {pc mask slot hi : Nat} {mine other : Best}
    {ps : List (Nat × Word)} (hcode : (code.drop pc).take 16 = round_code pc mask slot)
    (hhi : pc + 16 ≤ hi) (hl : AtBest fpu fcvt m args a i mine ps (pc + 2) l)
    (hft3 : l.f ft3 = other.value) (hft4 : l.f ft4 = other.index) :
    Leads (wordFormat fpu fcvt) code m hi l
      (AtBest fpu fcvt m args a i (reduce_step fpu mine other) ps (pc + 11)) := by
  have hget := piece_get (round_code pc mask slot) hcode
  have hpiece := piece (round_code pc mask slot) hcode
  have hzero : Alu.eval other.index 0 .add = other.index := UInt32.add_zero _
  -- The other one is taken over.
  have htake : ∀ l', AtBest fpu fcvt m args a i mine ps (pc + 8) l' → l'.f ft3 = other.value →
      l'.f ft4 = other.index → l'.x a5 = other.index →
      Leads (wordFormat fpu fcvt) code m hi l' (AtBest fpu fcvt m args a i other ps (pc + 11)) := by
    intro l' hl' hft3 hft4 ha5
    refine leads_straight [.fmv_s ft1 ft3, .fmv_s ft2 ft4, .opi .add s0 a5 0] (pc + 8) rfl
      (hpiece 8 3 (by simp [round_code, dump_code])) hl'.pc hl'.active (by simp; omega) fun hpc hactive => ?_
    refine leads_refl ⟨hpc, hactive, ?_, ?_, ?_, ?_, ?_, ?_, hl'.log⟩ <;>
      simp [straight, act, Act.lane, hl'.a2, hl'.a6, hl'.t0, hft3, hft4, ha5, hzero]
  refine leads_line [.fmv_x_s a5 ft4, .fcmp .flt t5 ft1 ft3] (pc + 2) rfl
    (hpiece 2 2 (by simp [round_code, dump_code])) hl.pc hl.active (by simp; omega)
    fun l1 hl1 hpc hactive => ?_
  have hat1 : AtBest fpu fcvt m args a i mine ps (pc + 4) l1 ∧ l1.f ft3 = other.value ∧
      l1.f ft4 = other.index ∧ l1.x a5 = other.index ∧
      l1.x t5 = if fpu.flt mine.value other.value then 1 else 0 := by
    subst hl1
    refine ⟨⟨hpc, hactive, ?_, ?_, ?_, ?_, ?_, ?_, hl.log⟩, ?_, ?_, ?_, ?_⟩ <;>
      simp [straight, act, Act.lane, FCmp.eval, hl.a2, hl.a6, hl.t0, hl.s0, hl.ft1, hl.ft2, hft3, hft4]
  obtain ⟨hl1', hft3', hft4', ha5, ht5⟩ := hat1
  clear hl1 hpc hactive
  refine leads_test (p := fpu.flt mine.value other.value = true) (pc + 4)
    (hget 4 (by simp [round_code, dump_code])) hl1'.pc hl1'.active (by omega)
    (by rw [ht5, x_zero]; split <;> simp [Cond.eval, *]) (fun hless => ?_) fun hnot => ?_
  · rw [reduce_step, if_pos hless]
    exact htake _ (hl1'.goto _) hft3' hft4' ha5
  rw [reduce_step, if_neg hnot]
  refine leads_line [.fcmp .feq t5 ft1 ft3] (pc + 5) rfl
    (hpiece 5 1 (by simp [round_code, dump_code])) rfl ((active_goto ..).trans hl1'.active)
    (by simp; omega) fun l2 hl2 hpc hactive => ?_
  have hat2 : AtBest fpu fcvt m args a i mine ps (pc + 6) l2 ∧ l2.f ft3 = other.value ∧
      l2.f ft4 = other.index ∧ l2.x a5 = other.index ∧
      l2.x t5 = if fpu.feq mine.value other.value then 1 else 0 := by
    subst hl2
    refine ⟨⟨hpc, hactive, ?_, ?_, ?_, ?_, ?_, ?_, hl1'.log⟩, ?_, ?_, ?_, ?_⟩ <;>
      simp [straight, act, Act.lane, FCmp.eval, hl1'.a2, hl1'.a6, hl1'.t0, hl1'.s0, hl1'.ft1, hl1'.ft2,
        hft3', hft4', ha5]
  obtain ⟨hl2', hft3'', hft4'', ha5', ht5'⟩ := hat2
  clear hl2 hpc hactive
  refine leads_test (p := ¬ fpu.feq mine.value other.value = true) (pc + 6)
    (hget 6 (by simp [round_code, dump_code])) hl2'.pc hl2'.active (by omega)
    (by rw [ht5', x_zero]; split <;> simp [Cond.eval, *]) (fun hother => ?_) fun hsame => ?_
  · rw [if_neg (fun h => hother h.1)]
    exact leads_refl (hl2'.goto _)
  · rw [not_not] at hsame
    refine leads_test (p := ¬ other.index < mine.index) (pc + 7)
      (hget 7 (by simp [round_code, dump_code])) rfl ((active_goto ..).trans hl2'.active) (by omega)
      (by simp [ha5', hl2'.s0, Cond.eval, UInt32.lt_iff_toNat_lt]) (fun hge => ?_) fun hlt => ?_
    · rw [if_neg (fun h => hge h.2)]
      exact leads_refl ((hl2'.goto _).goto _)
    · rw [if_pos ⟨hsame, not_not.mp hlt⟩]
      exact htake _ ((hl2'.goto _).goto _) hft3'' hft4'' ha5'

/-! ## The warp -/

/-- The places of the notes. -/
theorem mem_dumps {n : Nat} {p : Nat × Word} (hp : p ∈ rounds (dump fpu a logits i) n) :
    ∃ s < n, p = (a.debug_base + 4 * (i * 8 + s), (after_shuffles fpu a.V logits s i).index) := by
  obtain ⟨s, hs, hp⟩ := mem_rounds.mp hp
  exact ⟨s, hs, List.mem_singleton.mp hp⟩

theorem dumps_apart {lanes : Fin 32 → Lane Word} {n : Nat} (hclear : Clear args a) (hn : n ≤ 8)
    (htrace : ∀ i, Trace (wordFormat fpu fcvt) m (Reads args a) (rounds (dump fpu a logits i) n)
      (lanes i).log) : Apart (logs lanes) := by
  refine apart_of_traces htrace (fun i j hij p hp p' hp' => ?_) fun i j hij p hp x hx => ?_
  · obtain ⟨s, hs, rfl⟩ := mem_dumps hp
    obtain ⟨s', hs', rfl⟩ := mem_dumps hp'
    have hval : i.val ≠ j.val := fun he => hij (Fin.ext he)
    dsimp only
    omega
  · obtain ⟨s, hs, rfl⟩ := mem_dumps hp
    have hlogits := hclear.debug_logits
    have hargs := hclear.debug_args
    have hilt := i.isLt
    unfold Reads InBuf at hx
    dsimp only
    omega

/-- All lanes after `k` rounds. -/
def After (fpu : Fpu) (fcvt : Int → Word) (m : Mem) (args : Nat) (a : argmax_args) (logits : List Word)
    (k : Nat) (lanes : Fin 32 → Lane Word) : Prop :=
  ∀ i, AtBest fpu fcvt m args a i (after_shuffles fpu a.V logits k i)
    (rounds (dump fpu a logits i) (k + 1)) (30 + 16 * k) (lanes i)

/-- A round. -/
theorem gets_round (hready : Ready fpu fcvt m args a) (hclear : Clear args a) (hk : k < 5)
    {lanes : Fin 32 → Lane Word} (hlanes : After fpu fcvt m args a logits k lanes) :
    ∃ lanes', Gets (wordFormat fpu fcvt) (assemble source.argmax) m lanes lanes' ∧
      After fpu fcvt m args a logits (k + 1) lanes' := by
  have hcode : ((assemble source.argmax).drop (30 + 16 * k)).take 16 =
      round_code (30 + 16 * k) (masks.getD k 0) (k + 1) := by
    interval_cases k <;> rfl
  have hget := piece_get (round_code (30 + 16 * k) (masks.getD k 0) (k + 1)) hcode
  have hdump := piece (round_code (30 + 16 * k) (masks.getD k 0) (k + 1)) hcode 11 5 (Nat.le_refl _)
  -- The two exchanges.
  let lanes1 := fun i => ((lanes i).setF ft3 ((lanes (mate (masks.getD k 0) i)).f ft1)).next
  let lanes2 := fun i => ((lanes1 i).setF ft4 ((lanes1 (mate (masks.getD k 0) i)).f ft2)).next
  have hshuffle1 : Gets (wordFormat fpu fcvt) (assemble source.argmax) m lanes lanes1 :=
    gets_shuffle (hget 0 (by simp [round_code])) (fun i => (hlanes i).pc) fun i => (hlanes i).active
  have hshuffle2 : Gets (wordFormat fpu fcvt) (assemble source.argmax) m lanes1 lanes2 :=
    gets_shuffle (hget 1 (by simp [round_code])) (fun i => congrArg (· + 1) (hlanes i).pc)
      fun i => (hlanes i).active
  have hlanes2 : ∀ i, AtBest fpu fcvt m args a i (after_shuffles fpu a.V logits k i)
      (rounds (dump fpu a logits i) (k + 1)) (30 + 16 * k + 2) (lanes2 i) := fun i => by
    have hl := hlanes i
    refine ⟨congrArg (· + 2) hl.pc, hl.active, hl.a2, hl.a6, hl.t0, hl.s0, ?_, ?_, hl.log⟩
    · simp [lanes1, lanes2, hl.ft1]
    · simp [lanes1, lanes2, hl.ft2]
  have hother : ∀ i, (lanes2 i).f ft3 =
        (after_shuffles fpu a.V logits k (i.val ^^^ masks.getD k 0)).value ∧
      (lanes2 i).f ft4 = (after_shuffles fpu a.V logits k (i.val ^^^ masks.getD k 0)).index := fun i => by
    have hl := hlanes (mate (masks.getD k 0) i)
    rw [mate_val hk] at hl
    exact ⟨hl.ft1, hl.ft2⟩
  have hlane : ∀ i, Leads (wordFormat fpu fcvt) (assemble source.argmax) m (30 + 16 * (k + 1)) (lanes2 i)
      (AtBest fpu fcvt m args a i (after_shuffles fpu a.V logits (k + 1) i)
        (rounds (dump fpu a logits i) (k + 1 + 1)) (30 + 16 * (k + 1))) := fun i => by
    have hnext : 30 + 16 * (k + 1) = 30 + 16 * k + 11 + 5 := by ring
    rw [hnext]
    refine (reduces hcode (Nat.le_refl _) (hlanes2 i) (hother i).1 (hother i).2).trans fun l hl => ?_
    rw [← after_shuffles_succ a.V hk] at hl
    exact dumps hready (by omega) hdump (Nat.le_refl _) hl
  obtain ⟨lanes3, hgets, hlanes3⟩ := gets_leads hlane (fun i l hl _ => hl.pc ▸ Nat.le_refl _)
    fun lanes hlanes => dumps_apart hclear (by omega) fun i => (hlanes i).log
  exact ⟨lanes3, (hshuffle1.trans hshuffle2).trans hgets, hlanes3⟩

/-- The scan of all lanes and the five rounds. -/
theorem gets_rounds (hready : Ready fpu fcvt m args a) (hclear : Clear args a)
    (hlogits : LogitsAre m a logits) (regs : Fin 32 → Regs Word) :
    ∃ lanes, Gets (wordFormat fpu fcvt) (assemble source.argmax) m
      (fun i => begin_lane (regs i) 0 (num args) i) lanes ∧ After fpu fcvt m args a logits 5 lanes := by
  have hall : ∀ k ≤ 5, ∃ lanes, Gets (wordFormat fpu fcvt) (assemble source.argmax) m
      (fun i => begin_lane (regs i) 0 (num args) i) lanes ∧ After fpu fcvt m args a logits k lanes := by
    intro k hk
    induction k with
    | zero =>
      exact gets_leads (fun i => scans hready hlogits (regs i) i) (fun i l hl _ => hl.pc ▸ Nat.le_refl _)
        fun lanes hlanes => dumps_apart hclear (by decide) fun i => (hlanes i).log
    | succ k ih =>
      obtain ⟨lanes, hgets, hlanes⟩ := ih (by omega)
      obtain ⟨lanes', hgets', hlanes'⟩ := gets_round hready hclear hk hlanes
      exact ⟨lanes', hgets.trans hgets', hlanes'⟩
  exact hall 5 (Nat.le_refl 5)

/-- What lane `i` writes: its notes, the last index once more, and for lane 0 the result. -/
def places (fpu : Fpu) (a : argmax_args) (logits : List Word) (i : Fin 32) : List (Nat × Word) :=
  (if i.val = 0 then [(a.out_base, kernels.argmax fpu a.V logits)] else []) ++
    (a.debug_base + 4 * (i * 8 + 6), (after_shuffles fpu a.V logits 5 i).index) ::
      rounds (dump fpu a logits i) 6

/-- The end of a lane. -/
theorem ends (hready : Ready fpu fcvt m args a) (hclear : Clear args a)
    (hl : AtBest fpu fcvt m args a i (after_shuffles fpu a.V logits 5 i)
      (rounds (dump fpu a logits i) 6) 110 l) :
    Leads (wordFormat fpu fcvt) (assemble source.argmax) m 118 l
      (LaneDone (wordFormat fpu fcvt) m (Reads args a) (places fpu a logits i)) := by
  have hdebug := hready.debug_end
  have hout := hready.out_end
  have hilt := i.isLt
  have haddr : i * 32 + 24 + a.debug_base = a.debug_base + 4 * (i * 8 + 6) := by ring
  refine leads_line [.opi .sll t6 t0 5, .opi .add t6 t6 24, .op .add t6 t6 a6, .sw s0 0 t6] 110 rfl rfl
    hl.pc hl.active (by decide) fun l1 hl1 hpc hactive => ?_
  have hat1 : AtBest fpu fcvt m args a i (after_shuffles fpu a.V logits 5 i)
      ((a.debug_base + 4 * (i * 8 + 6), (after_shuffles fpu a.V logits 5 i).index) ::
        rounds (dump fpu a logits i) 6) 114 l1 := by
    subst hl1
    refine ⟨hpc, hactive, ?_, ?_, ?_, ?_, ?_, ?_, ?_⟩ <;>
      simp (disch := omega) [straight, act, Act.lane, hl.a2, hl.a6, hl.t0, hl.s0, hl.ft1, hl.ft2, haddr]
    refine hl.log.store rfl rfl fun p hp => ?_
    obtain ⟨s, hs, rfl⟩ := mem_dumps hp
    dsimp only
    omega
  refine leads_test 114 rfl hat1.pc hat1.active (by decide)
    (by rw [hat1.t0, x_zero, ne_zero_num (by omega)]) (fun hother => ?_) fun hzero => ?_
  · refine leads_ebreak 117 rfl rfl ((active_goto ..).trans hat1.active) (by decide) ⟨rfl, ?_⟩
    rw [places, if_neg hother]
    exact hat1.log
  · obtain rfl : i = 0 := Fin.ext (not_not.mp hzero)
    refine leads_straight [.fmv_x_s a4 ft2, .sw a4 0 a2] 115 rfl rfl rfl
      ((active_goto ..).trans hat1.active) (by decide) fun hpc hactive => ?_
    refine leads_ebreak 117 rfl hpc hactive (by decide) ⟨rfl, ?_⟩
    rw [places, if_pos (show ((0 : Fin 32) : Nat) = 0 from rfl)]
    refine hat1.log.store ?_ ?_ fun p hp => ?_
    · simp (disch := omega) [act, Act.lane, hat1.a2]
    · simp [act, Act.lane, hat1.ft2]
      rfl
    · have hapart := hclear.out_debug
      rcases List.mem_cons.mp hp with rfl | hp
      · dsimp only
        omega
      · obtain ⟨s, hs, rfl⟩ := mem_dumps hp
        dsimp only
        omega

/-! ## The launch -/

theorem mem_places {p : Nat × Word} (hp : p ∈ places fpu a logits i) :
    (i.val = 0 ∧ p.1 = a.out_base) ∨ ∃ s < 7, p.1 = a.debug_base + 4 * (i * 8 + s) := by
  unfold places at hp
  rcases List.mem_append.mp hp with hp | hp
  · by_cases hi : i.val = 0
    · rw [if_pos hi] at hp
      exact .inl ⟨hi, congrArg Prod.fst (List.mem_singleton.mp hp)⟩
    · rw [if_neg hi] at hp
      cases hp
  · rcases List.mem_cons.mp hp with rfl | hp
    · exact .inr ⟨6, by decide, rfl⟩
    · obtain ⟨s, hs, rfl⟩ := mem_dumps hp
      exact .inr ⟨s, by omega, rfl⟩

theorem places_apart (hclear : Clear args a) {i' : Fin 32} (hne : i ≠ i') {p p' : Nat × Word}
    (hp : p ∈ places fpu a logits i) (hp' : p' ∈ places fpu a logits i') :
    p.1 + 4 ≤ p'.1 ∨ p'.1 + 4 ≤ p.1 := by
  have hout := hclear.out_debug
  have hval : i.val ≠ i'.val := fun he => hne (Fin.ext he)
  have hilt := i.isLt
  have hilt' := i'.isLt
  rcases mem_places hp with ⟨hi, hp1⟩ | ⟨s, hs, hp1⟩
  · rcases mem_places hp' with ⟨hi', hp1'⟩ | ⟨s', hs', hp1'⟩
    · exact absurd (hi.trans hi'.symm) hval
    · omega
  · rcases mem_places hp' with ⟨hi', hp1'⟩ | ⟨s', hs', hp1'⟩ <;> omega

/-- The places lie apart from what is read. -/
theorem reads_apart (hclear : Clear args a) {p : Nat × Word} (hp : p ∈ places fpu a logits i) {x : Nat}
    (hx : Reads args a x) : p.1 + 4 ≤ x ∨ x + 4 ≤ p.1 := by
  obtain ⟨h1, h2, h3, h4, h5⟩ := hclear
  have hilt := i.isLt
  unfold Reads InBuf at hx
  rcases mem_places hp with ⟨-, hp1⟩ | ⟨s, hs, hp1⟩ <;> omega

theorem block_ends (hready : Ready fpu fcvt m args a) (hclear : Clear args a)
    (hlogits : LogitsAre m a logits) (regs : Fin 32 → Regs Word) :
    BlockEnds (wordFormat fpu fcvt) (assemble source.argmax) regs (num args) (fun _ _ => Reads args a)
      (fun _ i => places fpu a logits i) 0 m := by
  obtain ⟨lanes, hgets, hlanes⟩ := gets_rounds hready hclear hlogits regs
  obtain ⟨lanes', hgets', hdone⟩ := gets_leads (fun i => ends hready hclear (hlanes i))
    (fun i l hl hactive => by rw [hl.ended] at hactive; cases hactive) fun lanes hlanes =>
      apart_of_traces (fun i => (hlanes i).log) (fun i j hij p hp p' hp' => places_apart hclear hij hp hp')
        fun i j hij p hp x hx => reads_apart hclear hp hx
  exact ⟨lanes', hgets.trans hgets', hdone⟩

/-- What the launch reads and writes. -/
theorem argmax_effect (hready : Ready fpu fcvt m args a) (hclear : Clear args a)
    (hlogits : LogitsAre m a logits) (regs : Nat → Fin 32 → Regs Word) :
    Ends (wordFormat fpu fcvt) (assemble source.argmax) regs (num args) [0] m
      (Effect (wordFormat fpu fcvt) (fun _ _ => Reads args a) (fun _ i => places fpu a logits i) [0] m) :=
  launch_spec (List.nodup_singleton 0)
    (fun b hb b' hb' i i' hne p hp p' hp' => by
      obtain rfl := List.mem_singleton.mp hb
      obtain rfl := List.mem_singleton.mp hb'
      exact places_apart hclear (fun he => hne (congrArg _ he)) hp hp')
    (fun b hb m1 hm1 => by
      obtain rfl := List.mem_singleton.mp hb
      obtain rfl : m1 = m := funext fun y => hm1 y fun b' hb' hne => absurd (List.mem_singleton.mp hb') hne
      exact block_ends hready hclear hlogits (regs 0))

/-- What the launch leaves: the index of `kernels.argmax` at `out_base`, notes in the debug area
and nothing else. -/
theorem argmax_spec (hready : Ready fpu fcvt m args a) (hclear : Clear args a)
    (hlogits : LogitsAre m a logits) (regs : Nat → Fin 32 → Regs Word) :
    Ends (wordFormat fpu fcvt) (assemble source.argmax) regs (num args) [0] m fun m' logs =>
      (∀ log ∈ logs, Within (Reads args a)
        (fun x => x = a.out_base ∨ InBuf a.debug_base 1024 x) log) ∧
      word m' a.out_base = kernels.argmax fpu a.V logits ∧
      (∀ i : Fin 32, ∀ s < 7, word m' (a.debug_base + 4 * (i * 8 + s)) =
        (argmax_debug fpu a.V logits i).getD s 0) ∧
      ∀ y, (y < a.out_base ∨ a.out_base + 4 ≤ y) → (y < a.debug_base ∨ a.debug_base + 1024 ≤ y) →
        m' y = m y := by
  refine (argmax_effect hready hclear hlogits regs).mono fun m' logs heff =>
    ⟨fun log hlog => ⟨fun x hx => ?_, fun x hx => ?_⟩, ?_, fun i s hs => ?_,
      fun y hout hdebug => heff.frame y ?_⟩
  · obtain ⟨_, _, _, hR⟩ := heff.reads log hlog x hx
    exact hR
  · obtain ⟨_, _, i, p, hp, rfl⟩ := heff.mem_written hlog hx
    have hilt := i.isLt
    rcases mem_places hp with ⟨-, hp1⟩ | ⟨s, hs, hp1⟩
    · exact .inl hp1
    · exact .inr ⟨by omega, by omega⟩
  · exact heff.values 0 (List.mem_singleton.mpr rfl) 0 (_, _) (List.mem_cons_self ..)
  · have hval := heff.values 0 (List.mem_singleton.mpr rfl) i
    by_cases hs6 : s = 6
    · subst hs6
      exact hval (_, _) (List.mem_append_right _ (List.mem_cons_self ..))
    · have hmem := hval (_, _) (List.mem_append_right _ (List.mem_cons_of_mem _
        (mem_rounds.mpr ⟨s, (by omega : s < 6), List.mem_singleton.mpr rfl⟩)))
      refine hmem.trans ?_
      have hs' : s < 6 := by omega
      interval_cases s <;> rfl
  · rintro b - ⟨i, p, hp, hin⟩
    have hilt := i.isLt
    rcases mem_places hp with ⟨-, hp1⟩ | ⟨s, hs, hp1⟩ <;> omega

end gpgpu.argmax
