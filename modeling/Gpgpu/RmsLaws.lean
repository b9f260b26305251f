-- The law of rmsnorm.S: each lane sums the squares of its 28 elements, the shuffles give every
-- lane the sum of all 896, and each lane scales its own elements by the same factor.
import Gpgpu.Shuffles
import Gpgpu.Sources

open memory words cells

namespace gpgpu.rmsnorm

open core X F

/-- `struct rmsnorm_args`. -/
structure rmsnorm_args (V : Type) where
  in_off : Nat
  out_off : Nat
  weight_off : Nat
  d : Nat
  inv_d : V
  eps : V

variable {V C : Type} {fm : Format V C} {m m1 : Nat → C} {a : rmsnorm_args V}
  {args t : Nat} {i : Fin 32} {l : Lane V}

/-! ## The elements -/

namespace rmsnorm_args

variable (a) (fm) (m)

def words : List Nat := [a.in_off, a.out_off, a.weight_off, a.d]

def x (j : Nat) : V := fm.get m (a.in_off + 4 * j)

def w (j : Nat) : V := fm.get m (a.weight_off + 4 * j)

/-- The sum of the first `t` squares of lane `i`. -/
def square_sum (i : Nat) : Nat → V
  | 0 => fm.ofBits 0
  | t + 1 => fm.fadd (square_sum i t) (fm.fmul (a.x fm m (i * 28 + t)) (a.x fm m (i * 28 + t)))

/-- The sum of all squares, as lane `i` has it after the shuffles. -/
def total (i : Fin 32) : V := butterfly.reduce fm.fadd upward (fun j => a.square_sum fm m j 28) i

/-- The factor that lane `i` scales by. -/
def rrms (i : Fin 32) : V :=
  fm.fdiv (fm.ofBits 0x3F800000) (fm.fsqrt (fm.fadd (fm.fmul (a.total fm m i) a.inv_d) a.eps))

/-- What lane `i` writes in turn `t`. -/
def out (i : Fin 32) (t : Nat) : V :=
  fm.fmul (fm.fmul (a.x fm m (i * 28 + t)) (a.rrms fm m i)) (a.w fm m (i * 28 + t))

/-- Where lane `i` writes it. -/
def place (i : Fin 32) (t : Nat) : List (Nat × V) :=
  [(a.out_off + 4 * (i * 28 + t), a.out fm m i t)]

end rmsnorm_args

/-- The arguments are there, and the vectors lie in the address space. -/
structure Ready (fm : Format V C) (m : Nat → C) (args : Nat) (a : rmsnorm_args V) : Prop where
  loaded : Args fm m args a.words
  inv_d : fm.get m (args + 16) = a.inv_d
  eps : fm.get m (args + 20) = a.eps
  args_end : args + 24 ≤ 2 ^ 32
  in_end : a.in_off + 4 * 896 ≤ 2 ^ 32
  out_end : a.out_off + 4 * 896 ≤ 2 ^ 32
  weight_end : a.weight_off + 4 * 896 ≤ 2 ^ 32

/-- The output is the input or lies apart from it, and it lies apart from the rest. -/
structure Clear (args : Nat) (a : rmsnorm_args V) : Prop where
  input : a.out_off = a.in_off ∨ a.out_off + 4 * 896 ≤ a.in_off ∨ a.in_off + 4 * 896 ≤ a.out_off
  weight : a.out_off + 4 * 896 ≤ a.weight_off ∨ a.weight_off + 4 * 896 ≤ a.out_off
  args : a.out_off + 4 * 896 ≤ args ∨ args + 24 ≤ a.out_off

/-- What lane `i` reads: beside the arguments and the weight only its own elements. -/
def Reads (args : Nat) (a : rmsnorm_args V) (i : Fin 32) (x : Nat) : Prop :=
  InBuf args 24 x ∨ InBuf a.weight_off (4 * 896) x ∨ ∃ t < 28, x = a.in_off + 4 * (i * 28 + t)

theorem Ready.congr (hready : Ready fm m args a)
    (hsame : ∀ x, InBuf args 24 x → fm.get m1 x = fm.get m x) : Ready fm m1 args a :=
  { hready with
    loaded := hready.loaded.of_get fun x hx => hsame x ⟨hx.1, hx.2.trans (by simp [rmsnorm_args.words])⟩
    inv_d := (hsame _ ⟨by omega, by omega⟩).trans hready.inv_d
    eps := (hsame _ ⟨by omega, by omega⟩).trans hready.eps }

/-! ## The sum of the squares -/

/-- At `pc`, with `t` squares summed. -/
structure AtSum (fm : Format V C) (m : Nat → C) (args : Nat) (a : rmsnorm_args V) (i : Fin 32)
    (t pc : Nat) (l : Lane V) : Prop where
  pc : l.pc = pc
  active : l.active = true
  a1 : l.x a1 = num a.in_off
  a2 : l.x a2 = num a.out_off
  a3 : l.x a3 = num a.weight_off
  t0 : l.x t0 = num (28 - t)
  t1 : l.x t1 = num (i * 112)
  t2 : l.x t2 = num (a.in_off + 4 * (i * 28 + t))
  fa1 : l.f fa1 = a.inv_d
  fa2 : l.f fa2 = a.eps
  ft1 : l.f ft1 = a.square_sum fm m i t
  log : Trace fm m (Reads args a i) [] l.log

theorem AtSum.goto {pc : Nat} (hl : AtSum fm m args a i t pc l) (pc' : Nat) :
    AtSum fm m args a i t pc' (l.goto pc') :=
  { hl with pc := rfl }

def sum_pc (t : Nat) : Nat := if t < 28 then 13 else 19

theorem starts (hready : Ready fm m args a) (regs : Regs V) (i : Fin 32) :
    Leads fm (assemble source.rmsnorm) m 20 (begin_lane regs 0 (num args) i)
      (AtSum fm m args a i 0 (sum_pc 0)) := by
  have hend := hready.args_end
  refine (leads_loads (n := 24) [(a1, 0), (a2, 1), (a3, 2), (a4, 3)] hready.loaded
    (by simp [rmsnorm_args.words]; omega) (by simp [rmsnorm_args.words])
    ⟨by decide, by simp [rmsnorm_args.words]⟩ rfl (by decide)).trans fun l hl => ?_
  have hregs := hl.regs
  simp [rmsnorm_args.words] at hregs
  obtain ⟨ha1, ha2, ha3, ha4⟩ := hregs
  have hview : view fm m l = m := view_of_reads hl.log
  have hslice : Alu.eval (num i) 112 .mul = num (i * 112) := mul_num ..
  have hfirst : a.in_off + i * 112 = a.in_off + 4 * (i * 28) := by ring
  refine leads_straight [.flw fa1 16 a0, .flw fa2 20 a0, .csrr_mhartid t0, .opi .and t0 t0 0x1F,
    .li t3 112, .op .mul t1 t0 t3, .op .add t2 a1 t1, .fmv_s_x ft1 zero, .li t0 28] 4 rfl rfl hl.pc
    hl.active (by decide) fun hpc hactive => ?_
  refine leads_refl ⟨hpc, hactive, ?_, ?_, ?_, ?_, ?_, ?_, ?_, ?_, ?_, ?_⟩ <;>
    simp (disch := omega) [straight, act, Act.lane, ha1, ha2, ha3, hl.a0, hl.mhartid, hview,
      hready.inv_d, hready.eps, hslice, hfirst]
  · rfl
  · rfl
  · exact ⟨.inl ⟨by omega, by omega⟩, .inl ⟨by omega, by omega⟩,
      trace_nil (hl.log.mono (fun x hx => .inl hx) fun _ hx => hx)⟩

/-- A turn of the first loop. -/
theorem sum_turn (hready : Ready fm m args a) (ht : t < 28) (hl : AtSum fm m args a i t 13 l) :
    Leads fm (assemble source.rmsnorm) m 20 l (AtSum fm m args a i (t + 1) (sum_pc (t + 1))) := by
  have hend := hready.in_end
  have hilt := i.isLt
  have hget : fm.get (view fm m l) (a.in_off + 4 * (i * 28 + t)) = a.x fm m (i * 28 + t) :=
    hl.log.get (by simp)
  have hnext : a.in_off + 4 * (i * 28 + t) + 4 = a.in_off + 4 * (i * 28 + (t + 1)) := by ring
  have hless : 28 - t - 1 = 27 - t := by omega
  refine leads_line [.flw ft0 0 t2, .fop .fmul ft0 ft0 ft0, .fop .fadd ft1 ft1 ft0, .opi .add t2 t2 4,
    .opi .add t0 t0 (-1)] 13 rfl rfl hl.pc hl.active (by decide) fun l1 hl1 hpc hactive => ?_
  have hbody : AtSum fm m args a i (t + 1) 18 l1 := by
    subst hl1
    have hread : Reads args a i (a.in_off + 4 * (i * 28 + t)) := .inr (.inr ⟨t, ht, rfl⟩)
    refine ⟨hpc, hactive, ?_, ?_, ?_, ?_, ?_, ?_, ?_, ?_, ?_, ?_⟩ <;>
      simp (disch := omega) [straight, act, Act.lane, FAlu.eval, hl.a1, hl.a2, hl.a3, hl.t0, hl.t1, hl.t2,
        hl.fa1, hl.fa2, hl.ft1, hl.log, hget, hnext, hless, hread]
    rfl
  refine leads_test 18 rfl hbody.pc hactive (by decide)
    (by rw [hbody.t0, x_zero, ne_zero_num (by omega)]) (fun hmore => ?_) fun hlast => ?_
  · rw [sum_pc, if_pos (by omega)]
    exact leads_refl (hbody.goto 13)
  · rw [sum_pc, if_neg (by omega)]
    exact leads_refl (hbody.goto 19)

/-- Before and after the shuffles, with a value in `ft0`. -/
structure AtShuffle (fm : Format V C) (m : Nat → C) (args : Nat) (a : rmsnorm_args V) (i : Fin 32)
    (v : V) (pc : Nat) (l : Lane V) : Prop where
  pc : l.pc = pc
  active : l.active = true
  a1 : l.x a1 = num a.in_off
  a2 : l.x a2 = num a.out_off
  a3 : l.x a3 = num a.weight_off
  t1 : l.x t1 = num (i * 112)
  fa1 : l.f fa1 = a.inv_d
  fa2 : l.f fa2 = a.eps
  ft0 : l.f ft0 = v
  log : Trace fm m (Reads args a i) [] l.log

/-- A lane comes to the shuffles with the sum of its squares. -/
theorem sums (hready : Ready fm m args a) (regs : Regs V) (i : Fin 32) :
    Leads fm (assemble source.rmsnorm) m 20 (begin_lane regs 0 (num args) i)
      (AtShuffle fm m args a i (a.square_sum fm m i 28) 20) := by
  refine (starts hready regs i).trans fun l hl => ?_
  refine (leads_turns (fun t => AtSum fm m args a i t (sum_pc t)) (Nat.zero_le 28) hl
    fun t ht l hl => ?_).trans fun l hl => ?_
  · rw [sum_pc, if_pos ht] at hl
    exact sum_turn hready ht hl
  · refine leads_straight [.fmv_s ft0 ft1] 19 rfl rfl hl.pc hl.active (by decide) fun hpc hactive =>
      leads_refl ⟨hpc, hactive, ?_, ?_, ?_, ?_, ?_, ?_, ?_, hl.log⟩ <;>
      simp [straight, act, Act.lane, hl.a1, hl.a2, hl.a3, hl.t1, hl.fa1, hl.fa2, hl.ft1]

/-! ## The scaling -/

/-- At `pc`, with `t` elements written. -/
structure AtNorm (fm : Format V C) (m : Nat → C) (args : Nat) (a : rmsnorm_args V) (i : Fin 32)
    (t pc : Nat) (l : Lane V) : Prop where
  pc : l.pc = pc
  active : l.active = true
  t0 : l.x t0 = num (28 - t)
  t2 : l.x t2 = num (a.in_off + 4 * (i * 28 + t))
  t3 : l.x t3 = num (a.weight_off + 4 * (i * 28 + t))
  t4 : l.x t4 = num (a.out_off + 4 * (i * 28 + t))
  ft1 : l.f ft1 = a.rrms fm m i
  log : Trace fm m (Reads args a i) (rounds (a.place fm m i) t) l.log

theorem AtNorm.goto {pc : Nat} (hl : AtNorm fm m args a i t pc l) (pc' : Nat) :
    AtNorm fm m args a i t pc' (l.goto pc') :=
  { hl with pc := rfl }

def norm_pc (t : Nat) : Nat := if t < 28 then 40 else 50

theorem scales (hl : AtShuffle fm m args a i (a.total fm m i) 30 l) :
    Leads fm (assemble source.rmsnorm) m 51 l (AtNorm fm m args a i 0 (norm_pc 0)) := by
  have hfirst : ∀ b : Nat, b + i * 112 = b + 4 * (i * 28) := fun b => by ring
  refine leads_straight [.fop .fmul ft1 ft0 fa1, .fop .fadd ft1 ft1 fa2, .fsqrt ft1 ft1, .li t5 0x3F800000,
    .fmv_s_x ft5 t5, .fop .fdiv ft1 ft5 ft1, .op .add t2 a1 t1, .op .add t3 a3 t1, .op .add t4 a2 t1,
    .li t0 28] 30 rfl rfl hl.pc hl.active (by decide) fun hpc hactive => ?_
  refine leads_refl ⟨hpc, hactive, ?_, ?_, ?_, ?_, ?_, hl.log⟩ <;>
    simp [straight, act, Act.lane, FAlu.eval, hl.a1, hl.a2, hl.a3, hl.t1, hl.fa1, hl.fa2, hl.ft0, hfirst]
  · rfl
  · rfl

/-- The earlier turns have touched neither this element nor the weight. -/
theorem rounds_apart (hclear : Clear args a) (ht : t < 28) {p : Nat × V}
    (hp : p ∈ rounds (a.place fm m i) t) :
    (p.1 + 4 ≤ a.in_off + 4 * (i * 28 + t) ∨ a.in_off + 4 * (i * 28 + t) + 4 ≤ p.1) ∧
      (p.1 + 4 ≤ a.weight_off + 4 * (i * 28 + t) ∨ a.weight_off + 4 * (i * 28 + t) + 4 ≤ p.1) ∧
      p.1 + 4 ≤ a.out_off + 4 * (i * 28 + t) := by
  obtain ⟨t', ht', hp⟩ := mem_rounds.mp hp
  obtain rfl := List.mem_singleton.mp hp
  have hinput := hclear.input
  have hweight := hclear.weight
  have hilt := i.isLt
  dsimp only
  omega

/-- A turn of the second loop. -/
theorem norm_turn (hready : Ready fm m args a) (hclear : Clear args a) (ht : t < 28)
    (hl : AtNorm fm m args a i t 40 l) :
    Leads fm (assemble source.rmsnorm) m 51 l (AtNorm fm m args a i (t + 1) (norm_pc (t + 1))) := by
  have hin := hready.in_end
  have hout := hready.out_end
  have hweight := hready.weight_end
  have hilt := i.isLt
  have hx : fm.get (view fm m l) (a.in_off + 4 * (i * 28 + t)) = a.x fm m (i * 28 + t) :=
    hl.log.get fun p hp => (rounds_apart hclear ht hp).1
  have hw : fm.get (view fm m l) (a.weight_off + 4 * (i * 28 + t)) = a.w fm m (i * 28 + t) :=
    hl.log.get fun p hp => (rounds_apart hclear ht hp).2.1
  have hnext : ∀ b : Nat, b + 4 * (i * 28 + t) + 4 = b + 4 * (i * 28 + (t + 1)) := fun b => by ring
  have hless : 28 - t - 1 = 27 - t := by omega
  refine leads_line [.flw ft2 0 t2, .flw ft3 0 t3, .fop .fmul ft4 ft2 ft1, .fop .fmul ft4 ft4 ft3,
    .fsw ft4 0 t4, .opi .add t2 t2 4, .opi .add t3 t3 4, .opi .add t4 t4 4, .opi .add t0 t0 (-1)] 40 rfl
    rfl hl.pc hl.active (by decide) fun l1 hl1 hpc hactive => ?_
  have hbody : AtNorm fm m args a i (t + 1) 49 l1 := by
    subst hl1
    refine ⟨hpc, hactive, ?_, ?_, ?_, ?_, ?_, ?_⟩ <;>
      simp (disch := omega) [straight, act, Act.lane, FAlu.eval, hl.t0, hl.t2, hl.t3, hl.t4, hl.ft1, hx,
        hw, hnext, hless]
    · have hread : Reads args a i (a.in_off + 4 * (i * 28 + t)) := .inr (.inr ⟨t, ht, rfl⟩)
      have hread' : Reads args a i (a.weight_off + 4 * (i * 28 + t)) := .inr (.inl ⟨by omega, by omega⟩)
      rw [rounds_succ]
      refine .store (by simp [hread, hread', hl.log]) rfl rfl fun p hp => ?_
      exact .inl (rounds_apart hclear ht hp).2.2
  refine leads_test 49 rfl hbody.pc hactive (by decide)
    (by rw [hbody.t0, x_zero, ne_zero_num (by omega)]) (fun hmore => ?_) fun hlast => ?_
  · rw [norm_pc, if_pos (by omega)]
    exact leads_refl (hbody.goto 40)
  · rw [norm_pc, if_neg (by omega)]
    exact leads_refl (hbody.goto 50)

/-- A lane from the shuffles to its end. -/
theorem norms (hready : Ready fm m args a) (hclear : Clear args a)
    (hl : AtShuffle fm m args a i (a.total fm m i) 30 l) :
    Leads fm (assemble source.rmsnorm) m 51 l
      (LaneDone fm m (Reads args a i) (rounds (a.place fm m i) 28)) := by
  refine (scales hl).trans fun l hl => ?_
  refine (leads_turns (fun t => AtNorm fm m args a i t (norm_pc t)) (Nat.zero_le 28) hl
    fun t ht l hl => ?_).trans fun l hl => ?_
  · rw [norm_pc, if_pos ht] at hl
    exact norm_turn hready hclear ht hl
  · exact leads_ebreak 50 rfl hl.pc hl.active (by decide) ⟨rfl, hl.log⟩

/-! ## The launch -/

theorem mem_places {p : Nat × V} (hp : p ∈ rounds (a.place fm m i) 28) :
    ∃ t < 28, p = (a.out_off + 4 * (i * 28 + t), a.out fm m i t) := by
  obtain ⟨t, ht, hp⟩ := mem_rounds.mp hp
  exact ⟨t, ht, List.mem_singleton.mp hp⟩

theorem places_apart {i' : Fin 32} {m' : Nat → C} (hne : i ≠ i') {p p' : Nat × V}
    (hp : p ∈ rounds (a.place fm m i) 28) (hp' : p' ∈ rounds (a.place fm m' i') 28) :
    p.1 + 4 ≤ p'.1 ∨ p'.1 + 4 ≤ p.1 := by
  obtain ⟨t, ht, rfl⟩ := mem_places hp
  obtain ⟨t', ht', rfl⟩ := mem_places hp'
  have hval : i.val ≠ i'.val := fun he => hne (Fin.ext he)
  dsimp only
  omega

/-- The places of a lane lie apart from what the others read. -/
theorem reads_apart (hclear : Clear args a) {i' : Fin 32} (hne : i ≠ i') {p : Nat × V}
    (hp : p ∈ rounds (a.place fm m i) 28) {x : Nat} (hx : Reads args a i' x) :
    p.1 + 4 ≤ x ∨ x + 4 ≤ p.1 := by
  obtain ⟨t, ht, rfl⟩ := mem_places hp
  have hval : i.val ≠ i'.val := fun he => hne (Fin.ext he)
  have hinput := hclear.input
  have hweight := hclear.weight
  have hargs := hclear.args
  have hilt := i.isLt
  have hilt' := i'.isLt
  unfold Reads InBuf at hx
  dsimp only
  rcases hx with hx | hx | ⟨t', ht', rfl⟩ <;> omega

/-- The warp: each lane sums, all shuffle, each lane scales. -/
theorem block_ends (hready : Ready fm m args a) (hclear : Clear args a) (regs : Fin 32 → Regs V) :
    BlockEnds fm (assemble source.rmsnorm) regs (num args) (fun _ i => Reads args a i)
      (fun _ i => rounds (a.place fm m i) 28) 0 m := by
  have hnone : ∀ {lanes : Fin 32 → Lane V}, (∀ i, Trace fm m (Reads args a i) [] (lanes i).log) →
      Apart (logs lanes) := fun h => apart_of_traces h (by simp) (by simp)
  obtain ⟨lanes1, hgets1, hlanes1⟩ := gets_leads (fun i => sums hready (regs i) i)
    (fun i l hl _ => hl.pc ▸ Nat.le_refl _) fun lanes hlanes => hnone fun i => (hlanes i).log
  obtain ⟨lanes2, hgets2, hred, hpc, hactive⟩ := gets_reduce fm (assemble source.rmsnorm) m .fadd ft2
    ft0 [1, 2, 4, 8, 16] (by decide) rfl (fun i => (hlanes1 i).pc) (fun i => (hlanes1 i).active)
    (hnone fun i => (hlanes1 i).log)
  have hlanes2 : ∀ i, AtShuffle fm m args a i (a.total fm m i) 30 (lanes2 i) := fun i => by
    have hl := hlanes1 i
    refine ⟨hpc i, hactive i, ?_, ?_, ?_, ?_, ?_, ?_, ?_, (hred.log i).symm ▸ hl.log⟩
    · rw [hred.x, hl.a1]
    · rw [hred.x, hl.a2]
    · rw [hred.x, hl.a3]
    · rw [hred.x, hl.t1]
    · rw [hred.f i fa1 (by decide) (by decide), hl.fa1]
    · rw [hred.f i fa2 (by decide) (by decide), hl.fa2]
    · rw [hred.value i, funext fun j => (hlanes1 j).ft0]
      rfl
  obtain ⟨lanes3, hgets3, hdone⟩ := gets_leads (fun i => norms hready hclear (hlanes2 i))
    (fun i l hl hactive => by rw [hl.ended] at hactive; cases hactive) fun lanes hlanes =>
      apart_of_traces (fun i => (hlanes i).log) (fun i j hij p hp p' hp' => places_apart hij hp hp')
        fun i j hij p hp x hx => reads_apart hclear hij hp hx
  exact ⟨lanes3, (hgets1.trans hgets2).trans hgets3, hdone⟩

/-- What one warp of `rmsnorm.S` leaves. -/
theorem rmsnorm_spec (hready : Ready fm m args a) (hclear : Clear args a)
    (regs : Nat → Fin 32 → Regs V) :
    Ends fm (assemble source.rmsnorm) regs (num args) [0] m fun m' logs =>
      (∀ log ∈ logs, Within (fun x => ∃ i, Reads args a i x) (InBuf a.out_off (4 * 896)) log) ∧
      (∀ i t, t < 28 → fm.get m' (a.out_off + 4 * (i.val * 28 + t)) = a.out fm m i t) ∧
      ∀ y, y < a.out_off ∨ a.out_off + 4 * 896 ≤ y → m' y = m y := by
  have hends : Ends fm (assemble source.rmsnorm) regs (num args) [0] m _ := launch_spec
    (R := fun _ i => Reads args a i) (P := fun _ i => rounds (a.place fm m i) 28)
    (List.nodup_singleton 0)
    (fun b hb b' hb' i i' hne p hp p' hp' => by
      obtain rfl := List.mem_singleton.mp hb
      obtain rfl := List.mem_singleton.mp hb'
      exact places_apart (fun he => hne (congrArg _ he)) hp hp')
    (fun b hb m1 hm1 => by
      obtain rfl := List.mem_singleton.mp hb
      obtain rfl : m1 = m := funext fun y => hm1 y fun b' hb' hne => absurd (List.mem_singleton.mp hb') hne
      exact block_ends hready hclear (regs 0))
  refine hends.mono fun m' logs heff => ⟨fun log hlog => ⟨fun x hx => ?_, fun x hx => ?_⟩,
    fun i t ht => ?_, fun y hy => heff.frame y ?_⟩
  · obtain ⟨_, _, i, hR⟩ := heff.reads log hlog x hx
    exact ⟨i, hR⟩
  · obtain ⟨_, _, i, p, hp, rfl⟩ := heff.mem_written hlog hx
    obtain ⟨t, ht, rfl⟩ := mem_places hp
    have hilt := i.isLt
    exact ⟨by dsimp only; omega, by dsimp only; omega⟩
  · exact heff.values 0 (List.mem_singleton.mpr rfl) i (_, _)
      (mem_rounds.mpr ⟨t, ht, List.mem_singleton.mpr rfl⟩)
  · rintro b - ⟨i, p, hp, hin⟩
    obtain ⟨t, ht, rfl⟩ := mem_places hp
    have hilt := i.isLt
    dsimp only at hin
    omega

/-! ## Exact numbers -/

/-- A sum over slices of equal lengths. -/
theorem sum_slices {M : Type} [AddCommMonoid M] (f : Nat → M) (k n : Nat) :
    ∑ i ∈ Finset.range n, ∑ s ∈ Finset.range k, f (i * k + s) = ∑ j ∈ Finset.range (n * k), f j := by
  induction n with
  | zero => simp
  | succ n ih => rw [Finset.sum_range_succ, ih, Nat.succ_mul, Finset.sum_range_add]

section

variable {K : Type} [Field K] [LinearOrder K] {sqrt exp : K → K} {val : V → WithBot K} {x w : Nat → K}

/-- The elements and the weights read as `x` and `w`, and the two numbers of the arguments. -/
structure Holds (fm : Format V C) (val : V → WithBot K) (m : Nat → C) (a : rmsnorm_args V)
    (x w : Nat → K) (inv_d eps : K) : Prop where
  x_val : ∀ j < 896, val (a.x fm m j) = x j
  w_val : ∀ j < 896, val (a.w fm m j) = w j
  inv_d_val : val a.inv_d = inv_d
  eps_val : val a.eps = eps

theorem exact_square_sum (hexact : Exact fm sqrt exp val) (hx : ∀ j < 896, val (a.x fm m j) = x j)
    (i : Fin 32) (ht : t ≤ 28) :
    val (a.square_sum fm m i t) = (∑ s ∈ Finset.range t, x (i * 28 + s) ^ 2 : K) := by
  have hilt := i.isLt
  induction t with
  | zero => exact hexact.zero
  | succ t ih =>
    have helem := hx (i * 28 + t) (by omega)
    rw [Finset.sum_range_succ, pow_two (x (i * 28 + t))]
    exact hexact.fadd (ih (by omega)) (hexact.fmul helem helem)

/-- All lanes have the sum of all squares. -/
theorem exact_total (hexact : Exact fm sqrt exp val) (hx : ∀ j < 896, val (a.x fm m j) = x j)
    (i : Fin 32) : val (a.total fm m i) = (∑ j ∈ Finset.range 896, x j ^ 2 : K) := by
  have hsum := exact_sum hexact (fun i => exact_square_sum hexact hx i (Nat.le_refl 28)) i
  have hall : ∑ i : Fin 32, ∑ s ∈ Finset.range 28, x (i * 28 + s) ^ 2 =
      ∑ j ∈ Finset.range 896, x j ^ 2 := by
    rw [← sum_slices (fun j => x j ^ 2) 28 32,
      Finset.sum_range fun i => ∑ s ∈ Finset.range 28, x (i * 28 + s) ^ 2]
  rw [hall] at hsum
  exact hsum

theorem exact_out (hexact : Exact fm sqrt exp val) {inv_d eps : K} (h : Holds fm val m a x w inv_d eps)
    (i : Fin 32) (ht : t < 28) :
    val (a.out fm m i t) = (x (i * 28 + t) *
      (1 / sqrt (inv_d * (∑ j ∈ Finset.range 896, x j ^ 2) + eps)) * w (i * 28 + t) : K) := by
  have hilt := i.isLt
  have hrrms : val (a.rrms fm m i) = (1 / sqrt (inv_d * (∑ j ∈ Finset.range 896, x j ^ 2) + eps) : K) := by
    rw [mul_comm inv_d]
    exact hexact.fdiv hexact.one (hexact.fsqrt (hexact.fadd
      (hexact.fmul (exact_total hexact h.x_val i) h.inv_d_val) h.eps_val))
  exact hexact.fmul (hexact.fmul (h.x_val _ (by omega)) hrrms) (h.w_val _ (by omega))

end

/-- One warp scales each element by the weight and by one factor, which comes from the sum of
the squares of all elements, and changes nothing else. -/
theorem rmsnorm_scales_by_the_sum_of_all (fm : Format V C) (regs : Nat → Fin 32 → Regs V) (m : Nat → C)
    (args : Nat) (a : rmsnorm_args V) (hready : Ready fm m args a) (hclear : Clear args a)
    {K : Type} [Field K] [LinearOrder K] (sqrt exp : K → K) (val : V → WithBot K)
    (hexact : Exact fm sqrt exp val) (x w : Nat → K) (inv_d eps : K)
    (hholds : Holds fm val m a x w inv_d eps) :
    (∀ i, val (a.total fm m i) = (∑ j ∈ Finset.range 896, x j ^ 2 : K)) ∧
    Ends fm (assemble source.rmsnorm) regs (num args) [0] m fun m' logs =>
      (∀ i : Fin 32, ∀ t < 28, fm.get m' (a.out_off + 4 * (i * 28 + t)) = fm.fmul (fm.fmul
        (a.x fm m (i * 28 + t)) (fm.fdiv (fm.ofBits 0x3F800000) (fm.fsqrt (fm.fadd
          (fm.fmul (a.total fm m i) a.inv_d) a.eps)))) (a.w fm m (i * 28 + t))) ∧
      (∀ j < 896, val (fm.get m' (a.out_off + 4 * j)) =
        (x j * (1 / sqrt (inv_d * (∑ j ∈ Finset.range 896, x j ^ 2) + eps)) * w j : K)) ∧
      (∀ log ∈ logs, ∀ y ∈ written log, InBuf a.out_off (4 * 896) y) ∧
      ∀ y, y < a.out_off ∨ a.out_off + 4 * 896 ≤ y → m' y = m y := by
  refine ⟨exact_total hexact hholds.x_val, ?_⟩
  refine (rmsnorm_spec hready hclear regs).mono fun m' logs ⟨hlogs, hval, hframe⟩ =>
    ⟨fun i t ht => hval i t ht, fun j hj => ?_, fun log hlog => (hlogs log hlog).2, hframe⟩
  have hlane : j / 28 < 32 := by omega
  have hj' : j / 28 * 28 + j % 28 = j := by omega
  have hout := exact_out hexact hholds ⟨j / 28, hlane⟩ (Nat.mod_lt j (by decide : 0 < 28))
  have hget := hval ⟨j / 28, hlane⟩ (j % 28) (Nat.mod_lt j (by decide : 0 < 28))
  dsimp only at hout hget
  rw [hj'] at hout hget
  rw [hget, hout]

/-- A vector of ones that is scaled in place with weights of three, 1/896 and no epsilon. -/
def onesVector (y : Nat) : Val ℚ :=
  if y < 16 then .bits ([64, 64, 4096, 896].getD (y / 4) 0)
  else if y < 20 then .number (1 / 896)
  else if y < 24 then .number 0
  else if y < 4096 then .number 1 else .number 3

theorem a_vector_of_ones_is_scaled :
    Ends (exactFormat id id) (assemble source.rmsnorm) (fun _ _ => ⟨fun _ => 0, fun _ => .bits 0⟩) (num 0)
      [0] onesVector fun m' _ => ∀ j < 896, (m' (64 + 4 * j)).read = (3 : ℚ) := by
  have hready : Ready (exactFormat id id) onesVector 0 ⟨64, 64, 4096, 896, .number (1 / 896), .number 0⟩ :=
    ⟨⟨rfl, rfl, rfl, rfl, trivial⟩, rfl, rfl, by decide, by decide, by decide, by decide⟩
  have hholds : Holds (exactFormat id id) Val.read onesVector
      ⟨64, 64, 4096, 896, .number (1 / 896), .number 0⟩ (fun _ => 1) (fun _ => 3) (1 / 896) 0 := by
    refine ⟨fun j hj => ?_, fun j hj => ?_, rfl, rfl⟩
    · show (onesVector (64 + 4 * j)).read = _
      rw [onesVector, if_neg (by omega), if_neg (by omega), if_neg (by omega), if_pos (by omega)]
      rfl
    · show (onesVector (4096 + 4 * j)).read = _
      rw [onesVector, if_neg (by omega), if_neg (by omega), if_neg (by omega), if_neg (by omega)]
      rfl
  have h := (rmsnorm_scales_by_the_sum_of_all (exactFormat id id)
    (fun _ _ => ⟨fun _ => 0, fun _ => .bits 0⟩) onesVector 0
    ⟨64, 64, 4096, 896, .number (1 / 896), .number 0⟩ hready ⟨.inl rfl, by decide, by decide⟩ id id
    Val.read (exactFormat_exact id id) (fun _ => 1) (fun _ => 3) (1 / 896) 0 hholds).2
  refine h.mono fun m' _ ⟨_, hval, _⟩ j hj => ?_
  have hone : (1 * (1 / (1 / 896 * (∑ j ∈ Finset.range 896, (1 : ℚ) ^ 2) + 0)) * 3 : ℚ) = 3 := by
    rw [Finset.sum_const, Finset.card_range]
    norm_num
  have hget := hval j hj
  rw [id, hone] at hget
  exact hget

end gpgpu.rmsnorm
