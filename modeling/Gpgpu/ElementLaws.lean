-- The laws of the kernels that work element by element: broadcast_add.S and silu.S with one
-- thread for each element, vmul.S and embedding_lookup.S with one warp that goes over the
-- vector. Each element is written once, in place or out of place, in any order of the blocks.
import Gpgpu.LaunchLaws
import Gpgpu.Sources
import Gpgpu.Formats
import Gpgpu.Transformer

open memory words cells

namespace gpgpu.elements

open core X F

variable {V C : Type} {fm : Format V C} {m m1 : Nat → C} {args n j k t block : Nat} {i : Fin 32}
  {regs : Regs V} {l : Lane V}

/-- The `n` words at `out` are those at `x`, or lie apart from them. -/
def InPlaceOrApart (out x n : Nat) : Prop := out = x ∨ out + 4 * n ≤ x ∨ x + 4 * n ≤ out

theorem InPlaceOrApart.apart {out x : Nat} (h : InPlaceOrApart out x n) (hj : j < n) (hk : k < n)
    (hne : j ≠ k) : out + 4 * j + 4 ≤ x + 4 * k ∨ x + 4 * k + 4 ≤ out + 4 * j := by
  unfold InPlaceOrApart at h
  omega

/-- The buffers of `n` bytes at `a` and `n'` bytes at `b` lie apart. -/
def BufsApart (a n b n' : Nat) : Prop := a + n ≤ b ∨ b + n' ≤ a

/-- The blocks that the host asks for have a thread for each element. -/
theorem dispatch_eq (h : n ≤ 2 ^ 24) : transformer.calc_dispatch (n % 2 ^ 32) = (n + 31) / 32 := by
  unfold transformer.calc_dispatch
  omega

/-! ## `broadcast_add.S` -/

namespace broadcast_add

structure broadcast_add_args where
  x_off : Nat
  y_off : Nat
  b_off : Nat
  M : Nat
  N : Nat

variable {a : broadcast_add_args}

def broadcast_add_args.words (a : broadcast_add_args) : List Nat := [a.x_off, a.y_off, a.b_off, a.M, a.N]

/-- Element `id` of the sum. -/
def value (fm : Format V C) (m : Nat → C) (a : broadcast_add_args) (id : Nat) : V :=
  fm.fadd (fm.get m (a.x_off + 4 * id)) (fm.get m (a.b_off + 4 * (id % a.N)))

structure Ready (fm : Format V C) (m : Nat → C) (args : Nat) (a : broadcast_add_args) : Prop where
  loaded : Args fm m args a.words
  args_end : args + 20 ≤ 2 ^ 32
  x_end : a.x_off + 4 * (a.M * a.N) ≤ 2 ^ 32
  y_end : a.y_off + 4 * (a.M * a.N) ≤ 2 ^ 32
  b_end : a.b_off + 4 * a.N ≤ 2 ^ 32
  M_pos : 0 < a.M
  N_pos : 0 < a.N
  size : a.M * a.N ≤ 2 ^ 24

theorem Ready.congr (h : Ready fm m args a) (hsame : ∀ x, InBuf args 20 x → fm.get m1 x = fm.get m x) :
    Ready fm m1 args a :=
  { h with loaded := h.loaded.of_get fun x hx => hsame x hx }

/-- What the thread of element `id` reads. -/
def Reads (args : Nat) (a : broadcast_add_args) (id x : Nat) : Prop :=
  InBuf args 20 x ∨ (id < a.M * a.N ∧ x = a.x_off + 4 * id) ∨ InBuf a.b_off (4 * a.N) x

structure Clear (args : Nat) (a : broadcast_add_args) : Prop where
  args : BufsApart a.y_off (4 * (a.M * a.N)) args 20
  x : InPlaceOrApart a.y_off a.x_off (a.M * a.N)
  b : BufsApart a.y_off (4 * (a.M * a.N)) a.b_off (4 * a.N)

/-- Before the test of the number of the thread. -/
structure AtTest (args : Nat) (a : broadcast_add_args) (id : Nat) (l : Lane V) : Prop where
  pc : l.pc = 11
  active : l.active = true
  a1 : l.x a1 = num a.x_off
  a2 : l.x a2 = num a.y_off
  a3 : l.x a3 = num a.b_off
  a5 : l.x a5 = num a.N
  t0 : l.x t0 = num id
  t5 : l.x t5 = num (a.M * a.N)
  log : Within (InBuf args 20) (fun _ => False) l.log

theorem starts (h : Ready fm m args a) (hblock : block < 2 ^ 19) :
    Leads fm (assemble source.broadcast_add) m 24 (begin_lane regs block (num args) i)
      (AtTest args a (thread block i)) := by
  refine (leads_thread (n := 20) [(a1, 0), (a2, 1), (a3, 2), (a4, 3), (a5, 4)] h.loaded h.args_end
    (Nat.le_refl _) ⟨by decide, by simp [broadcast_add_args.words]⟩ (by simp) hblock rfl rfl
    (by decide)).trans fun l hl => ?_
  have hregs := hl.regs
  simp [broadcast_add_args.words] at hregs
  obtain ⟨ha1, ha2, ha3, ha4, ha5⟩ := hregs
  refine leads_straight [.op .mul t5 a4 a5] 10 rfl rfl hl.pc hl.active (by decide) fun hpc hactive =>
    leads_refl ⟨hpc, hactive, ?_, ?_, ?_, ?_, ?_, ?_, hl.log⟩ <;>
    simp [straight, act, Act.lane, ha1, ha2, ha3, ha4, ha5, hl.t0]

/-- The thread of an element stores its sum. -/
theorem stores {id : Nat} (h : Ready fm m args a) (hid : id < a.M * a.N) (hl : AtTest args a id l) :
    Leads fm (assemble source.broadcast_add) m 24 (l.goto 12)
      (LaneDone fm m (Reads args a id) [(a.y_off + 4 * id, value fm m a id)]) := by
  have hsize := h.size
  have hN := h.N_pos
  have hNle : a.N ≤ a.M * a.N := Nat.le_mul_of_pos_left _ h.M_pos
  have hx := h.x_end
  have hy := h.y_end
  have hb := h.b_end
  have hmod : id % a.N < a.N := Nat.mod_lt _ hN
  have hview : view fm m l = m := view_of_reads hl.log
  refine leads_straight [.op .div t1 t0 a5, .op .rem t2 t0 a5, .opi .sll t3 t0 2, .op .add t4 a1 t3,
    .opi .sll t5 t2 2, .op .add t5 a3 t5, .flw ft0 0 t4, .flw ft1 0 t5, .fop .fadd ft2 ft0 ft1,
    .op .add t6 a2 t3, .fsw ft2 0 t6] 12 rfl rfl rfl hl.active (by decide) fun hpc hactive => ?_
  refine leads_ebreak 23 rfl hpc hactive (by decide) ⟨rfl, ?_⟩
  have hlog : Trace fm m (Reads args a id) [] (.load (a.b_off + id % a.N * 4) ::
      .load (a.x_off + id * 4) :: l.log) := by
    refine trace_nil (within_load.mpr ⟨.inr (.inr ⟨by omega, by omega⟩), within_load.mpr ⟨?_, ?_⟩⟩)
    · exact .inr (.inl ⟨hid, by omega⟩)
    · exact hl.log.mono (fun x hx => .inl hx) fun _ hx => hx
  simp (disch := omega) [straight, act, Act.lane, FAlu.eval, hl.a1, hl.a2, hl.a3, hl.a5, hl.t0, hview]
  refine hlog.store (by omega) ?_ (by simp)
  unfold value
  rw [Nat.mul_comm 4 id, Nat.mul_comm 4 (id % a.N)]

theorem lane_done (h : Ready fm m args a) (hblock : block < 2 ^ 19) :
    Leads fm (assemble source.broadcast_add) m 24 (begin_lane regs block (num args) i)
      (LaneDone fm m (Reads args a (thread block i)) (if thread block i < a.M * a.N then
        [(a.y_off + 4 * thread block i, value fm m a (thread block i))] else [])) := by
  have hsize := h.size
  have hlt : thread block i < 2 ^ 31 := by
    unfold thread
    omega
  refine (starts h hblock).trans fun l hl => ?_
  refine leads_test 11 rfl hl.pc hl.active (by decide) (by rw [hl.t0, hl.t5, ge_num hlt (by omega)])
    (fun hout => ?_) fun hin => ?_
  · rw [if_neg (by omega)]
    exact leads_ebreak 23 rfl rfl hl.active (by decide)
      (laneDone_nil rfl (hl.log.mono (fun x hx => .inl hx) fun _ hx => hx))
  · rw [if_pos (by omega)]
    exact stores h (by omega) hl

theorem broadcast_add_fills {order : List Nat} (h : Ready fm m args a) (hclear : Clear args a)
    (regs : Nat → Fin 32 → Regs V)
    (horder : order.Perm (List.range (transformer.calc_dispatch (a.M * a.N % 2 ^ 32)))) :
    Ends fm (assemble source.broadcast_add) regs (num args) order m
      (Fills fm (fun x => ∃ id, Reads args a id x) a.y_off (a.M * a.N) (value fm m a) m) := by
  have hsize := h.size
  rw [dispatch_eq hsize] at horder
  refine launch_of_threads 24 regs a.y_off (value fm m a) (Reads args a) horder (by omega)
    (fun id hid id' hne x hx => ?_) fun block hblock i m1 hm1 => ?_
  · have hargs := hclear.args
    have hb := hclear.b
    unfold BufsApart at hargs hb
    rcases hx with hx | ⟨hid', rfl⟩ | hx
    · unfold InBuf at hx
      omega
    · exact hclear.x.apart hid hid' hne
    · unfold InBuf at hx
      omega
  · have hdone : Leads fm _ m1 24 (begin_lane (regs block i) block (num args) i) _ :=
      lane_done (h.congr fun x hx => hm1 x (.inl hx)) (show block < 2 ^ 19 by omega)
    by_cases hid : thread block i < a.M * a.N
    · have hmod : thread block i % a.N < a.N := Nat.mod_lt _ h.N_pos
      have hval : value fm m1 a (thread block i) = value fm m a (thread block i) := by
        unfold value
        rw [hm1 _ (.inr (.inl ⟨hid, rfl⟩)), hm1 _ (.inr (.inr ⟨by omega, by omega⟩))]
      rw [hval] at hdone
      exact hdone
    · rw [if_neg hid] at hdone ⊢
      exact hdone

end broadcast_add

/-! ## `silu.S` -/

namespace silu

structure silu_args where
  in_off : Nat
  out_off : Nat
  D : Nat

variable {a : silu_args}

def silu_args.words (a : silu_args) : List Nat := [a.in_off, a.out_off, a.D]

/-- `x * (1 / (1 + exp (-x)))`. -/
def function (fm : Format V C) (x : V) : V :=
  fm.fmul x (fm.fdiv (fm.ofBits 0x3F800000) (fm.fadd (fm.ofBits 0x3F800000) (fm.vexp (fm.fsgnjn x x))))

def value (fm : Format V C) (m : Nat → C) (a : silu_args) (id : Nat) : V :=
  function fm (fm.get m (a.in_off + 4 * id))

structure Ready (fm : Format V C) (m : Nat → C) (args : Nat) (a : silu_args) : Prop where
  loaded : Args fm m args a.words
  args_end : args + 12 ≤ 2 ^ 32
  in_end : a.in_off + 4 * a.D ≤ 2 ^ 32
  out_end : a.out_off + 4 * a.D ≤ 2 ^ 32
  size : a.D ≤ 2 ^ 24

theorem Ready.congr (h : Ready fm m args a) (hsame : ∀ x, InBuf args 12 x → fm.get m1 x = fm.get m x) :
    Ready fm m1 args a :=
  { h with loaded := h.loaded.of_get fun x hx => hsame x hx }

/-- What the thread of element `id` reads. -/
def Reads (args : Nat) (a : silu_args) (id x : Nat) : Prop :=
  InBuf args 12 x ∨ (id < a.D ∧ x = a.in_off + 4 * id)

structure Clear (args : Nat) (a : silu_args) : Prop where
  args : BufsApart a.out_off (4 * a.D) args 12
  x : InPlaceOrApart a.out_off a.in_off a.D

theorem lane_done (h : Ready fm m args a) (hblock : block < 2 ^ 19) :
    Leads fm (assemble source.silu) m 22 (begin_lane regs block (num args) i)
      (LaneDone fm m (Reads args a (thread block i)) (if thread block i < a.D then
        [(a.out_off + 4 * thread block i, value fm m a (thread block i))] else [])) := by
  have hsize := h.size
  have hin := h.in_end
  have hout := h.out_end
  have hlt : thread block i < 2 ^ 31 := by
    unfold thread
    omega
  refine (leads_thread (n := 12) [(a1, 0), (a2, 1), (a3, 2)] h.loaded h.args_end (Nat.le_refl _)
    ⟨by decide, by simp [silu_args.words]⟩ (by simp) hblock rfl rfl (by decide)).trans fun l hl => ?_
  have hregs := hl.regs
  simp [silu_args.words] at hregs
  obtain ⟨ha1, ha2, ha3⟩ := hregs
  have hview : view fm m l = m := view_of_reads hl.log
  have ht0 := hl.t0
  have hlog : Within (Reads args a (thread block i)) (fun _ => False) l.log :=
    hl.log.mono (fun x hx => .inl hx) fun _ hx => hx
  refine leads_test 8 rfl hl.pc hl.active (by decide) (by rw [ht0, ha3, ge_num hlt (by omega)])
    (fun hid => ?_) fun hid => ?_
  · rw [if_neg (by omega)]
    exact leads_ebreak 21 rfl rfl hl.active (by decide) (laneDone_nil rfl hlog)
  · rw [if_pos (by omega)]
    generalize thread block i = id at *
    refine leads_straight [.opi .sll t1 t0 2, .op .add t2 a1 t1, .op .add t3 a2 t1, .li t4 0x3F800000,
      .fmv_s_x ft4 t4, .flw ft1 0 t2, .fop .fsgnjn ft2 ft1 ft1, .vexp ft2 ft2, .fop .fadd ft2 ft4 ft2,
      .fop .fdiv ft3 ft4 ft2, .fop .fmul ft0 ft1 ft3, .fsw ft0 0 t3] 9 rfl rfl rfl hl.active (by decide)
      fun hpc hactive => ?_
    refine leads_ebreak 21 rfl hpc hactive (by decide) ⟨rfl, ?_⟩
    have htrace : Trace fm m (Reads args a id) [] (.load (a.in_off + id * 4) :: l.log) :=
      trace_nil (within_load.mpr ⟨.inr ⟨by omega, by omega⟩, hlog⟩)
    simp (disch := omega) [straight, act, Act.lane, FAlu.eval, ha1, ha2, ht0, hview]
    refine htrace.store (by omega) ?_ (by simp)
    unfold value function
    rw [Nat.mul_comm 4 id]

theorem silu_fills {order : List Nat} (h : Ready fm m args a) (hclear : Clear args a)
    (regs : Nat → Fin 32 → Regs V)
    (horder : order.Perm (List.range (transformer.calc_dispatch a.D))) :
    Ends fm (assemble source.silu) regs (num args) order m
      (Fills fm (fun x => ∃ id, Reads args a id x) a.out_off a.D (value fm m a) m) := by
  have hsize := h.size
  rw [← Nat.mod_eq_of_lt (show a.D < 2 ^ 32 by omega), dispatch_eq hsize] at horder
  refine launch_of_threads 22 regs a.out_off (value fm m a) (Reads args a) horder (by omega)
    (fun id hid id' hne x hx => ?_) fun block hblock i m1 hm1 => ?_
  · have hargs := hclear.args
    unfold BufsApart at hargs
    rcases hx with hx | ⟨hid', rfl⟩
    · unfold InBuf at hx
      omega
    · exact hclear.x.apart hid hid' hne
  · have hdone : Leads fm _ m1 22 (begin_lane (regs block i) block (num args) i) _ :=
      lane_done (h.congr fun x hx => hm1 x (.inl hx)) (show block < 2 ^ 19 by omega)
    by_cases hid : thread block i < a.D
    · have hval : value fm m1 a (thread block i) = value fm m a (thread block i) := by
        unfold value
        rw [hm1 _ (.inr ⟨hid, rfl⟩)]
      rw [hval] at hdone
      exact hdone
    · rw [if_neg hid] at hdone ⊢
      exact hdone

end silu

/-! ## `vmul.S` -/

namespace vmul

structure vmul_args where
  a_off : Nat
  b_off : Nat
  c_off : Nat
  num : Nat

variable {a : vmul_args}

def vmul_args.words (a : vmul_args) : List Nat := [a.a_off, a.b_off, a.c_off, a.num]

def value (fm : Format V C) (m : Nat → C) (a : vmul_args) (id : Nat) : V :=
  fm.fmul (fm.get m (a.a_off + 4 * id)) (fm.get m (a.b_off + 4 * id))

/-- The assertion of `op_vmul` is `whole`. -/
structure Ready (fm : Format V C) (m : Nat → C) (args : Nat) (a : vmul_args) : Prop where
  loaded : Args fm m args a.words
  args_end : args + 16 ≤ 2 ^ 32
  a_end : a.a_off + 4 * a.num ≤ 2 ^ 32
  b_end : a.b_off + 4 * a.num ≤ 2 ^ 32
  c_end : a.c_off + 4 * a.num ≤ 2 ^ 32
  whole : a.num % 32 = 0

theorem Ready.congr (h : Ready fm m args a) (hsame : ∀ x, InBuf args 16 x → fm.get m1 x = fm.get m x) :
    Ready fm m1 args a :=
  { h with loaded := h.loaded.of_get fun x hx => hsame x hx }

/-- What lane `i` reads: beside the arguments only its own elements. -/
def Reads (args : Nat) (a : vmul_args) (i : Fin 32) (x : Nat) : Prop :=
  InBuf args 16 x ∨ ∃ t < a.num / 32, x = a.a_off + 4 * (t * 32 + i) ∨ x = a.b_off + 4 * (t * 32 + i)

structure Clear (args : Nat) (a : vmul_args) : Prop where
  c_args : BufsApart a.c_off (4 * a.num) args 16
  c_a : InPlaceOrApart a.c_off a.a_off a.num
  c_b : InPlaceOrApart a.c_off a.b_off a.num

/-- Before turn `t` of the loop. -/
structure AtLoop (fm : Format V C) (m : Nat → C) (args : Nat) (a : vmul_args) (i : Fin 32) (t : Nat)
    (l : Lane V) : Prop where
  pc : l.pc = 8
  active : l.active = true
  a1 : l.x a1 = num a.a_off
  a2 : l.x a2 = num a.b_off
  a3 : l.x a3 = num a.c_off
  a5 : l.x a5 = num (a.num / 32)
  t0 : l.x t0 = num i
  t1 : l.x t1 = num t
  log : Trace fm m (Reads args a i) (rounds (share a.c_off (value fm m a) i) t) l.log

/-- The earlier turns have not touched the elements of a turn. -/
theorem shares_apart {x : Nat} (hx : InPlaceOrApart a.c_off x a.num) (ht : t < a.num / 32) {p : Nat × V}
    (hp : p ∈ rounds (share a.c_off (value fm m a) i) t) :
    p.1 + 4 ≤ x + 4 * (t * 32 + i) ∨ x + 4 * (t * 32 + i) + 4 ≤ p.1 := by
  obtain ⟨t', ht', rfl⟩ := mem_shares hp
  exact hx.apart (by omega) (by omega) (by omega)

theorem turn (h : Ready fm m args a) (hclear : Clear args a) (ht : t < a.num / 32)
    (hl : AtLoop fm m args a i t l) :
    Leads fm (assemble source.vmul) m 22 l (AtLoop fm m args a i (t + 1)) := by
  have ha := h.a_end
  have hb := h.b_end
  have hc := h.c_end
  have hself : InPlaceOrApart a.c_off a.c_off a.num := .inl rfl
  have haddr : ∀ x, (t * 32 + i.val) * 4 + x = x + 4 * (t * 32 + i) := fun x => by ring
  have hgeta : fm.get (view fm m l) (a.a_off + 4 * (t * 32 + i)) = fm.get m (a.a_off + 4 * (t * 32 + i)) :=
    hl.log.get fun p hp => shares_apart hclear.c_a ht hp
  have hgetb : fm.get (view fm m l) (a.b_off + 4 * (t * 32 + i)) = fm.get m (a.b_off + 4 * (t * 32 + i)) :=
    hl.log.get fun p hp => shares_apart hclear.c_b ht hp
  refine leads_test 8 rfl hl.pc hl.active (by decide)
    (by rw [hl.t1, hl.a5, ge_num (by omega) (by omega)]) (fun hout => by omega) fun _ => ?_
  refine leads_straight [.opi .sll t2 t1 5, .op .add t2 t2 t0, .opi .sll t2 t2 2, .op .add t3 t2 a1,
    .op .add t4 t2 a2, .op .add t5 t2 a3, .flw ft1 0 t3, .flw ft2 0 t4, .fop .fmul ft3 ft1 ft2,
    .fsw ft3 0 t5, .opi .add t1 t1 1] 9 rfl rfl rfl hl.active (by decide) fun hpc hactive => ?_
  refine leads_jump 20 rfl hpc hactive (by decide) (leads_refl ?_)
  refine ⟨rfl, (active_goto ..).trans hactive, ?_, ?_, ?_, ?_, ?_, ?_, ?_⟩ <;>
    simp (disch := omega) [straight, act, Act.lane, FAlu.eval, hl.a1, hl.a2, hl.a3, hl.a5, hl.t0, hl.t1,
      haddr, hgeta, hgetb]
  have hreada : Reads args a i (a.a_off + 4 * (t * 32 + i)) := .inr ⟨t, ht, .inl rfl⟩
  have hreadb : Reads args a i (a.b_off + 4 * (t * 32 + i)) := .inr ⟨t, ht, .inr rfl⟩
  rw [rounds_succ]
  exact .store (by simp [hreada, hreadb, hl.log]) rfl rfl fun p hp => shares_apart hself ht hp

theorem lane_done (h : Ready fm m args a) (hclear : Clear args a) :
    Leads fm (assemble source.vmul) m 22 (begin_lane regs 0 (num args) i)
      (LaneDone fm m (Reads args a i) (rounds (share a.c_off (value fm m a) i) (a.num / 32))) := by
  have ha := h.a_end
  refine (leads_loads (n := 16) [(a1, 0), (a2, 1), (a3, 2), (a4, 3)] h.loaded h.args_end (Nat.le_refl _)
    ⟨by decide, by simp [vmul_args.words]⟩ rfl (by decide)).trans fun l hl => ?_
  have hregs := hl.regs
  simp [vmul_args.words] at hregs
  obtain ⟨ha1, ha2, ha3, ha4⟩ := hregs
  have hstart : Leads fm (assemble source.vmul) m 22 l (AtLoop fm m args a i 0) := by
    refine leads_straight [.opi .srl a5 a4 5, .csrr_mhartid t0, .opi .and t0 t0 0x1F, .li t1 0] 4 rfl rfl
      hl.pc hl.active (by decide) fun hpc hactive => leads_refl ⟨hpc, hactive, ?_, ?_, ?_, ?_, ?_, rfl, ?_⟩
    · simp [straight, act, Act.lane, ha1]
    · simp [straight, act, Act.lane, ha2]
    · simp [straight, act, Act.lane, ha3]
    · simp (disch := omega) [straight, act, Act.lane, ha4]
    · simp [straight, act, Act.lane, hl.mhartid]
    · exact trace_nil (hl.log.mono (fun x hx => .inl hx) fun _ hx => hx)
  refine hstart.trans fun l hl => ?_
  refine (leads_turns (AtLoop fm m args a i) (Nat.zero_le (a.num / 32)) hl
    fun t ht l hl => turn h hclear ht hl).trans fun l hl => ?_
  refine leads_test 8 rfl hl.pc hl.active (by decide)
    (by rw [hl.t1, hl.a5, ge_num (by omega) (by omega)]) (fun _ => ?_) fun hin => by omega
  exact leads_ebreak 21 rfl rfl hl.active (by decide) ⟨rfl, hl.log⟩

theorem vmul_fills (h : Ready fm m args a) (hclear : Clear args a) (regs : Nat → Fin 32 → Regs V) :
    Ends fm (assemble source.vmul) regs (num args) [0] m
      (Fills fm (fun x => ∃ i, Reads args a i x) a.c_off a.num (value fm m a) m) := by
  have hwhole := h.whole
  have hnum : a.num / 32 * 32 = a.num := by omega
  rw [← hnum]
  refine launch_of_turns 22 regs a.c_off (value fm m a) (Reads args a)
    (fun i i' hne t ht x hx => ?_) fun i m1 hm1 => ?_
  · have hargs := hclear.c_args
    unfold BufsApart at hargs
    have hi : i.val ≠ i'.val := fun he => hne (Fin.ext he)
    rcases hx with hx | ⟨t', ht', rfl | rfl⟩
    · unfold InBuf at hx
      omega
    · exact hclear.c_a.apart (by omega) (by omega) (by omega)
    · exact hclear.c_b.apart (by omega) (by omega) (by omega)
  · have hval : rounds (share a.c_off (value fm m a) i) (a.num / 32) =
        rounds (share a.c_off (value fm m1 a) i) (a.num / 32) := by
      refine rounds_congr fun t ht => ?_
      unfold share value
      rw [hm1 _ (.inr ⟨t, ht, .inl rfl⟩), hm1 _ (.inr ⟨t, ht, .inr rfl⟩)]
    rw [hval]
    exact lane_done (h.congr fun x hx => hm1 x (.inl hx)) hclear

end vmul

/-! ## `embedding_lookup.S` -/

namespace embedding

structure embedding_args where
  table_base : Nat
  token_id_buf : Nat
  output_base : Nat
  D : Nat
  elems_per_lane : Nat

variable {a : embedding_args} {token : Nat}

def embedding_args.words (a : embedding_args) : List Nat :=
  [a.table_base, a.token_id_buf, a.output_base, a.D, a.elems_per_lane]

/-- Where the row of a token lies. -/
def embedding_args.row (a : embedding_args) (token : Nat) : Nat := a.table_base + 4 * (token * a.D)

/-- An element goes through an integer register. -/
def value (fm : Format V C) (m : Nat → C) (a : embedding_args) (token id : Nat) : V :=
  fm.ofBits (fm.toBits (fm.get m (a.row token + 4 * id)))

structure Ready (fm : Format V C) (m : Nat → C) (args : Nat) (a : embedding_args) (token : Nat) : Prop where
  loaded : Args fm m args a.words
  token_id : fm.toBits (fm.get m a.token_id_buf) = num token
  args_end : args + 20 ≤ 2 ^ 32
  token_end : a.token_id_buf + 4 ≤ 2 ^ 32
  row_end : a.row token + 4 * a.D ≤ 2 ^ 32
  output_end : a.output_base + 4 * a.D ≤ 2 ^ 32
  whole : a.D = 32 * a.elems_per_lane
  some_elem : 32 ≤ a.D

/-- What a lane reads. -/
def Reads (args : Nat) (a : embedding_args) (token x : Nat) : Prop :=
  InBuf args 20 x ∨ x = a.token_id_buf ∨ InBuf (a.row token) (4 * a.D) x

theorem Ready.congr (h : Ready fm m args a token)
    (hsame : ∀ x, Reads args a token x → fm.get m1 x = fm.get m x) : Ready fm m1 args a token :=
  { h with
    loaded := h.loaded.of_get fun x hx => hsame x (.inl hx)
    token_id := by rw [hsame _ (.inr (.inl rfl))]; exact h.token_id }

structure Clear (args : Nat) (a : embedding_args) (token : Nat) : Prop where
  out_args : BufsApart a.output_base (4 * a.D) args 20
  out_token : BufsApart a.output_base (4 * a.D) a.token_id_buf 4
  out_row : BufsApart a.output_base (4 * a.D) (a.row token) (4 * a.D)

theorem Clear.apart (h : Clear args a token) {x : Nat} (hx : Reads args a token x) (hid : j < a.D) :
    a.output_base + 4 * j + 4 ≤ x ∨ x + 4 ≤ a.output_base + 4 * j := by
  obtain ⟨h1, h2, h3⟩ := h
  unfold BufsApart at h1 h2 h3
  unfold Reads InBuf at hx
  omega

/-- At `pc`, with `t` turns made. -/
structure AtLoop (fm : Format V C) (m : Nat → C) (args : Nat) (a : embedding_args) (token : Nat)
    (i : Fin 32) (t pc : Nat) (l : Lane V) : Prop where
  pc : l.pc = pc
  active : l.active = true
  t2 : l.x t2 = num a.output_base
  t4 : l.x t4 = num a.elems_per_lane
  t6 : l.x t6 = num (a.row token)
  s0 : l.x s0 = num i
  s1 : l.x s1 = num t
  log : Trace fm m (Reads args a token) (rounds (share a.output_base (value fm m a token) i) t) l.log

theorem AtLoop.goto {pc : Nat} (hl : AtLoop fm m args a token i t pc l) (pc' : Nat) :
    AtLoop fm m args a token i t pc' (l.goto pc') :=
  { hl with pc := rfl }

/-- The test of the loop is at its end. -/
def loop_pc (a : embedding_args) (t : Nat) : Nat := if t < a.elems_per_lane then 12 else 21

theorem starts (h : Ready fm m args a token) :
    Leads fm (assemble source.embedding_lookup) m 22 (begin_lane regs 0 (num args) i)
      (AtLoop fm m args a token i 0 (loop_pc a 0)) := by
  have hwhole := h.whole
  have hsome := h.some_elem
  have htoken := h.token_end
  have hid := h.token_id
  refine (leads_loads (n := 20) [(t0, 0), (t1, 1), (t2, 2), (t3, 3), (t4, 4)] h.loaded h.args_end
    (Nat.le_refl _) ⟨by decide, by simp [embedding_args.words]⟩ rfl (by decide)).trans fun l hl => ?_
  have hregs := hl.regs
  simp [embedding_args.words] at hregs
  obtain ⟨ht0, ht1, ht2, ht3, ht4⟩ := hregs
  have hview : view fm m l = m := view_of_reads hl.log
  refine leads_straight [.csrr_mhartid s0, .opi .and s0 s0 0x1F, .lw t5 0 t1, .op .mul t6 t5 t3,
    .opi .sll t6 t6 2, .op .add t6 t0 t6, .li s1 0] 5 rfl rfl hl.pc hl.active (by decide)
    fun hpc hactive => ?_
  rw [loop_pc, if_pos (by omega)]
  refine leads_refl ⟨hpc, hactive, ?_, ?_, ?_, ?_, rfl, ?_⟩ <;>
    simp (disch := omega) [straight, act, Act.lane, ht0, ht1, ht2, ht3, ht4, hl.mhartid, hview, hid]
  · congr 1
    unfold embedding_args.row
    ring
  · exact ⟨.inr (.inl rfl), trace_nil (hl.log.mono (fun x hx => .inl hx) fun _ hx => hx)⟩

theorem turn (h : Ready fm m args a token) (hclear : Clear args a token) (ht : t < a.elems_per_lane)
    (hl : AtLoop fm m args a token i t 12 l) :
    Leads fm (assemble source.embedding_lookup) m 22 l
      (AtLoop fm m args a token i (t + 1) (loop_pc a (t + 1))) := by
  have hwhole := h.whole
  have hrow := h.row_end
  have hout := h.output_end
  have haddr : ∀ x, x + (t * 32 + i.val) * 4 = x + 4 * (t * 32 + i) := fun x => by ring
  have hread : Reads args a token (a.row token + 4 * (t * 32 + i)) := .inr (.inr ⟨by omega, by omega⟩)
  have hget : fm.get (view fm m l) (a.row token + 4 * (t * 32 + i)) =
      fm.get m (a.row token + 4 * (t * 32 + i)) := by
    refine hl.log.get fun p hp => ?_
    obtain ⟨t', ht', rfl⟩ := mem_shares hp
    exact hclear.apart hread (by omega)
  refine leads_line [.opi .sll s2 s1 5, .op .add s2 s2 s0, .opi .sll s3 s2 2, .op .add s4 t2 s3,
    .op .add s3 t6 s3, .lw s5 0 s3, .sw s5 0 s4, .opi .add s1 s1 1] 12 rfl rfl hl.pc hl.active (by decide)
    fun l1 hl1 hpc hactive => ?_
  have hbody : AtLoop fm m args a token i (t + 1) 20 l1 := by
    subst hl1
    refine ⟨hpc, hactive, ?_, ?_, ?_, ?_, ?_, ?_⟩ <;>
      simp (disch := omega) [straight, act, Act.lane, hl.t2, hl.t4, hl.t6, hl.s0, hl.s1, haddr, hget]
    rw [rounds_succ]
    refine .store (by simp [hread, hl.log]) rfl rfl fun p hp => ?_
    obtain ⟨t', ht', rfl⟩ := mem_shares hp
    dsimp only
    omega
  refine leads_test 20 rfl hbody.pc hactive (by decide)
    (by rw [hbody.s1, hbody.t4, lt_num (by omega) (by omega)]) (fun hmore => ?_) fun hlast => ?_
  · rw [loop_pc, if_pos hmore]
    exact leads_refl (hbody.goto 12)
  · rw [loop_pc, if_neg hlast]
    exact leads_refl (hbody.goto 21)

theorem lane_done (h : Ready fm m args a token) (hclear : Clear args a token) :
    Leads fm (assemble source.embedding_lookup) m 22 (begin_lane regs 0 (num args) i)
      (LaneDone fm m (Reads args a token)
        (rounds (share a.output_base (value fm m a token) i) a.elems_per_lane)) := by
  refine (starts h).trans fun l hl => ?_
  refine (leads_turns (fun t => AtLoop fm m args a token i t (loop_pc a t))
    (Nat.zero_le a.elems_per_lane) hl fun t ht l hl => ?_).trans fun l hl => ?_
  · rw [loop_pc, if_pos ht] at hl
    exact turn h hclear ht hl
  · rw [loop_pc, if_neg (Nat.lt_irrefl _)] at hl
    exact leads_ebreak 21 rfl hl.pc hl.active (by decide) ⟨rfl, hl.log⟩

theorem embedding_fills (h : Ready fm m args a token) (hclear : Clear args a token)
    (regs : Nat → Fin 32 → Regs V) :
    Ends fm (assemble source.embedding_lookup) regs (num args) [0] m
      (Fills fm (fun x => ∃ _ : Fin 32, Reads args a token x) a.output_base a.D (value fm m a token) m) := by
  have hwhole := h.whole
  have hD : a.elems_per_lane * 32 = a.D := by omega
  rw [← hD]
  refine launch_of_turns 22 regs a.output_base (value fm m a token) (fun _ => Reads args a token)
    (fun i i' hne t ht x hx => hclear.apart hx (by omega)) fun i m1 hm1 => ?_
  have hval : rounds (share a.output_base (value fm m a token) i) a.elems_per_lane =
      rounds (share a.output_base (value fm m1 a token) i) a.elems_per_lane := by
    refine rounds_congr fun t ht => ?_
    unfold share value
    rw [hm1 _ (.inr (.inr ⟨by omega, by omega⟩))]
  rw [hval]
  exact lane_done (h.congr hm1) hclear

end embedding

/-! ## The maps -/

section

variable {fpu : kernels.Fpu} {fcvt : Int → Word} {m m' : Mem} {logs : List (List (Access Word))}

/-- The vector `v` has been written to `out`, each word once, and nothing else. -/
def Puts (out : Nat) (v : List Word) (m m' : Mem) (logs : List (List (Access Word))) : Prop :=
  m' = put m out v ∧ (logs.flatMap written).Perm ((List.range v.length).map fun id => out + 4 * id)

theorem puts_of_fills {R : Nat → Prop} {out : Nat} {val : Nat → Word} {v : List Word}
    (h : Fills (wordFormat fpu fcvt) R out n val m m' logs) (hv : (List.range n).map val = v) :
    Puts out v m m' logs := by
  subst hv
  refine ⟨eq_put_of_gets h.values h.frame, ?_⟩
  rw [List.length_map, List.length_range]
  exact h.once

end

/-- The kernels that work element by element leave what their maps give, in place and out of
place, whatever the order of the blocks: each word is written once, and nothing else. -/
theorem the_element_kernels_write_their_maps_once (fpu : kernels.Fpu) (fcvt : Int → Word)
    (regs : Nat → Fin 32 → Regs Word) (m : Mem) (args : Nat) :
    (∀ a order, broadcast_add.Ready (wordFormat fpu fcvt) m args a → broadcast_add.Clear args a →
      order.Perm (List.range (transformer.calc_dispatch (a.M * a.N % 2 ^ 32))) →
      Ends (wordFormat fpu fcvt) (assemble source.broadcast_add) regs (num args) order m
        (Puts a.y_off (kernels.broadcast_add fpu a.M a.N (vec (word m) a.x_off (a.M * a.N))
          (vec (word m) a.b_off a.N)) m)) ∧
    (∀ a order, silu.Ready (wordFormat fpu fcvt) m args a → silu.Clear args a →
      order.Perm (List.range (transformer.calc_dispatch a.D)) →
      Ends (wordFormat fpu fcvt) (assemble source.silu) regs (num args) order m
        (Puts a.out_off (kernels.silu fpu a.D (vec (word m) a.in_off a.D)) m)) ∧
    (∀ a, vmul.Ready (wordFormat fpu fcvt) m args a → vmul.Clear args a →
      Ends (wordFormat fpu fcvt) (assemble source.vmul) regs (num args) [0] m
        (Puts a.c_off (kernels.vmul fpu a.num (vec (word m) a.a_off a.num)
          (vec (word m) a.b_off a.num)) m)) ∧
    ∀ a token, embedding.Ready (wordFormat fpu fcvt) m args a token → embedding.Clear args a token →
      Ends (wordFormat fpu fcvt) (assemble source.embedding_lookup) regs (num args) [0] m
        (Puts a.output_base (vec (word m) (a.row token) a.D) m) := by
  refine ⟨fun a order h hclear horder => ?_, fun a order h hclear horder => ?_, fun a h hclear => ?_,
    fun a token h hclear => ?_⟩
  · refine (broadcast_add.broadcast_add_fills h hclear regs horder).mono fun m' logs hfills =>
      puts_of_fills hfills (List.map_congr_left fun id hid => ?_)
    have hid := List.mem_range.mp hid
    rw [vec_getD _ hid, vec_getD _ (Nat.mod_lt _ h.N_pos)]
    rfl
  · refine (silu.silu_fills h hclear regs horder).mono fun m' logs hfills =>
      puts_of_fills hfills (List.map_congr_left fun id hid => ?_)
    dsimp only
    rw [vec_getD _ (List.mem_range.mp hid), ← fsgnjn_self fpu fcvt]
    rfl
  · refine (vmul.vmul_fills h hclear regs).mono fun m' logs hfills => puts_of_fills hfills ?_
    have hnum : a.num / kernels.LANES * kernels.LANES = a.num :=
      Nat.div_mul_cancel (Nat.dvd_of_mod_eq_zero h.whole)
    unfold kernels.vmul
    rw [hnum]
    refine List.map_congr_left fun id hid => ?_
    rw [vec_getD _ (List.mem_range.mp hid), vec_getD _ (List.mem_range.mp hid)]
    rfl
  · exact (embedding.embedding_fills h hclear regs).mono fun m' logs hfills => puts_of_fills hfills rfl

/-- The memory of four small launches, with their arguments at 0. -/
def sums : Mem := put (put (put (fun _ => 0) 0 [64, 64, 128, 1, 2]) 64 [5, 7]) 128 [1, 2]

def gates : Mem := put (put (fun _ => 0) 0 [64, 64, 2]) 64 [5, 7]

def products : Mem := put (put (fun _ => 0) 0 [256, 512, 256, 32]) 256 (List.replicate 32 3)

def rows : Mem := put (put (fun _ => 0) 0 [256, 64, 1024, 32, 1]) 64 [1]

theorem four_small_launches :
    Ends countingFormat (assemble source.broadcast_add) (fun _ => zeroRegs) (num 0) [0] sums
      (Puts 64 [6, 9] sums) ∧
    Ends countingFormat (assemble source.silu) (fun _ => zeroRegs) (num 0) [0] gates
      (Puts 64 (kernels.silu countingFpu 2 [5, 7]) gates) ∧
    Ends countingFormat (assemble source.vmul) (fun _ => zeroRegs) (num 0) [0] products
      (Puts 256 (List.replicate 32 0) products) ∧
    Ends countingFormat (assemble source.embedding_lookup) (fun _ => zeroRegs) (num 0) [0] rows
      (Puts 1024 (vec (word rows) 384 32) rows) := by
  refine ⟨?_, ?_, ?_, ?_⟩
  · exact (the_element_kernels_write_their_maps_once countingFpu UInt32.ofInt (fun _ => zeroRegs)
      sums 0).1 ⟨64, 64, 128, 1, 2⟩ [0]
      ⟨⟨by decide, by decide, by decide, by decide, by decide, trivial⟩, by decide, by decide, by decide,
        by decide, by decide, by decide, by decide⟩
      ⟨.inr (by decide), .inl rfl, .inl (by decide)⟩ (by decide)
  · exact (the_element_kernels_write_their_maps_once countingFpu UInt32.ofInt (fun _ => zeroRegs)
      gates 0).2.1 ⟨64, 64, 2⟩ [0]
      ⟨⟨by decide, by decide, by decide, trivial⟩, by decide, by decide, by decide, by decide⟩
      ⟨.inr (by decide), .inl rfl⟩ (by decide)
  · exact (the_element_kernels_write_their_maps_once countingFpu UInt32.ofInt (fun _ => zeroRegs)
      products 0).2.2.1 ⟨256, 512, 256, 32⟩
      ⟨⟨by decide, by decide, by decide, by decide, trivial⟩, by decide, by decide, by decide, by decide,
        by decide⟩ ⟨.inr (by decide), .inl rfl, .inr (.inl (by decide))⟩
  · exact (the_element_kernels_write_their_maps_once countingFpu UInt32.ofInt (fun _ => zeroRegs)
      rows 0).2.2.2 ⟨256, 64, 1024, 32, 1⟩ 1
      ⟨⟨by decide, by decide, by decide, by decide, by decide, trivial⟩, by decide, by decide, by decide,
        by decide, by decide, by decide, by decide⟩
      ⟨.inr (by decide), .inr (by decide), .inr (by decide)⟩

end gpgpu.elements
