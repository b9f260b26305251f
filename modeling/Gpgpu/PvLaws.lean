-- The law of pv_decode.S. The warp of a head takes head_dim / 32 turns over its row of the
-- output, so the words behind the last whole turn are left as they were: the row is written
-- just when head_dim is a multiple of 32.
import Gpgpu.LaunchLaws
import Gpgpu.Sources
import Gpgpu.Formats

open memory words cells

namespace gpgpu.pv

open core X F

/-- `struct pv_decode_args`. -/
structure pv_decode_args where
  P_off : Nat
  V_cache_off : Nat
  O_off : Nat
  cur_pos : Nat
  max_seq : Nat
  head_dim : Nat
  q_per_kv : Nat

variable {V C : Type} {fm : Format V C} {m m1 : Nat → C} {a : pv_decode_args}
  {args heads kv_heads qh n j k : Nat} {i : Fin 32} {regs : Regs V} {l : Lane V}

/-! ## The output -/

namespace pv_decode_args

variable (a) (fm) (m)

def words : List Nat :=
  [a.P_off, a.V_cache_off, a.O_off, a.cur_pos, a.max_seq, a.head_dim, a.q_per_kv]

/-- Where weight `P[qh][j]` lies. -/
def p_at (qh j : Nat) : Nat := a.P_off + 4 * (qh * a.max_seq + j)

/-- Where the value `V[qh / q_per_kv][j][k]` lies. -/
def v_at (qh j k : Nat) : Nat :=
  a.V_cache_off + 4 * ((qh / a.q_per_kv * a.max_seq + j) * a.head_dim + k)

/-- Where the output `O[qh][k]` lies. -/
def o_at (qh k : Nat) : Nat := a.O_off + 4 * (qh * a.head_dim + k)

/-- The weighted sum of the first `n` rows of the values, from left to right. -/
def sum (qh k n : Nat) : V :=
  (List.range n).foldl
    (fun acc j => fm.fadd acc (fm.fmul (fm.get m (a.p_at qh j)) (fm.get m (a.v_at qh j k))))
    (fm.ofBits 0)

/-- The output of a head in column `k`. -/
def out (qh k : Nat) : V := a.sum fm m qh k (a.cur_pos + 1)

end pv_decode_args

theorem sum_succ : a.sum fm m qh k (j + 1) =
    fm.fadd (a.sum fm m qh k j) (fm.fmul (fm.get m (a.p_at qh j)) (fm.get m (a.v_at qh j k))) := by
  unfold pv_decode_args.sum
  rw [List.range_succ, List.foldl_append]
  rfl

/-- The arguments are there, and the buffers lie in the address space. A query head finds its
head of the cache. -/
structure Ready (fm : Format V C) (m : Nat → C) (args : Nat) (a : pv_decode_args)
    (heads kv_heads : Nat) : Prop where
  loaded : Args fm m args a.words
  args_end : args + 28 ≤ 2 ^ 32
  P_end : a.P_off + 4 * (heads * a.max_seq) ≤ 2 ^ 32
  V_end : a.V_cache_off + 4 * (kv_heads * (a.max_seq * a.head_dim)) ≤ 2 ^ 32
  O_end : a.O_off + 4 * (heads * a.head_dim) ≤ 2 ^ 32
  cur_pos : a.cur_pos < a.max_seq
  heads_le : heads ≤ 2 ^ 19
  q_pos : 0 < a.q_per_kv
  q_lt : a.q_per_kv < 2 ^ 31
  covers : heads ≤ kv_heads * a.q_per_kv

/-- What a lane reads. -/
def Reads (args : Nat) (a : pv_decode_args) (heads kv_heads x : Nat) : Prop :=
  InBuf args 28 x ∨ InBuf a.P_off (4 * (heads * a.max_seq)) x ∨
    InBuf a.V_cache_off (4 * (kv_heads * (a.max_seq * a.head_dim))) x

theorem Ready.dims (h : Ready fm m args a heads kv_heads) (hqh : qh < heads) :
    a.head_dim ≤ 2 ^ 30 ∧ a.max_seq ≤ 2 ^ 30 := by
  have hO := h.O_end
  have hP := h.P_end
  have h1 : a.head_dim ≤ heads * a.head_dim := Nat.le_mul_of_pos_left _ (by omega)
  have h2 : a.max_seq ≤ heads * a.max_seq := Nat.le_mul_of_pos_left _ (by omega)
  omega

/-- A weight lies in its buffer. -/
theorem p_in (hqh : qh < heads) (hj : j < a.max_seq) :
    InBuf a.P_off (4 * (heads * a.max_seq)) (a.p_at qh j) :=
  entry_in hqh hj

/-- A value lies in the cache. -/
theorem v_in (h : Ready fm m args a heads kv_heads) (hqh : qh < heads) (hj : j < a.max_seq)
    (hk : k < a.head_dim) :
    InBuf a.V_cache_off (4 * (kv_heads * (a.max_seq * a.head_dim))) (a.v_at qh j k) := by
  have hkv : qh / a.q_per_kv < kv_heads :=
    (Nat.div_lt_iff_lt_mul h.q_pos).mpr (Nat.lt_of_lt_of_le hqh h.covers)
  rw [← Nat.mul_assoc kv_heads]
  exact entry_in (rows.pair_lt hkv hj) hk

/-- An element of the output lies in its buffer. -/
theorem o_in (hqh : qh < heads) (hk : k < a.head_dim) :
    InBuf a.O_off (4 * (heads * a.head_dim)) (a.o_at qh k) :=
  entry_in hqh hk

theorem o_apart {qh' k' : Nat} (hk : k < a.head_dim) (hk' : k' < a.head_dim) (hne : (qh, k) ≠ (qh', k')) :
    a.o_at qh k + 4 ≤ a.o_at qh' k' ∨ a.o_at qh' k' + 4 ≤ a.o_at qh k :=
  entries_apart hk hk' hne

theorem sum_congr (h : Ready fm m args a heads kv_heads)
    (hsame : ∀ x, Reads args a heads kv_heads x → fm.get m1 x = fm.get m x) (hqh : qh < heads)
    (hk : k < a.head_dim) (hj : j ≤ a.max_seq) : a.sum fm m1 qh k j = a.sum fm m qh k j := by
  induction j with
  | zero => rfl
  | succ j ih =>
    rw [sum_succ, sum_succ, ih (by omega), hsame _ (.inr (.inl (p_in hqh hj))),
      hsame _ (.inr (.inr (v_in h hqh hj hk)))]

theorem Ready.congr (h : Ready fm m args a heads kv_heads)
    (hsame : ∀ x, Reads args a heads kv_heads x → fm.get m1 x = fm.get m x) :
    Ready fm m1 args a heads kv_heads :=
  { h with loaded := h.loaded.of_get fun x hx => hsame x (.inl hx) }

/-! ## One lane -/

/-- What the registers of lane `i` hold in the loops. -/
structure Base (a : pv_decode_args) (qh : Nat) (i : Fin 32) (l : Lane V) : Prop where
  active : l.active = true
  a6 : l.x a6 = num a.head_dim
  s0 : l.x s0 = num (a.P_off + qh * a.max_seq * 4)
  s1 : l.x s1 = num (a.V_cache_off + qh / a.q_per_kv * a.max_seq * a.head_dim * 4)
  s2 : l.x s2 = num (a.O_off + qh * a.head_dim * 4)
  s3 : l.x s3 = num (a.head_dim * 4)
  s8 : l.x s8 = num i
  s10 : l.x s10 = num (a.cur_pos + 1)
  s11 : l.x s11 = num (a.head_dim / 32)

/-- What lane `i` writes in turn `n`. -/
def place (fm : Format V C) (m : Nat → C) (a : pv_decode_args) (qh : Nat) (i : Fin 32) (n : Nat) :
    List (Nat × V) :=
  [(a.o_at qh (n * 32 + i), a.out fm m qh (n * 32 + i))]

/-- Before turn `n` of `k_loop`, or at the end. -/
structure AtK (fm : Format V C) (m : Nat → C) (args : Nat) (a : pv_decode_args)
    (heads kv_heads qh : Nat) (i : Fin 32) (n : Nat) (l : Lane V) : Prop extends Base a qh i l where
  pc : l.pc = if n < a.head_dim / 32 then 27 else 48
  t1 : l.x t1 = num n
  log : Trace fm m (Reads args a heads kv_heads) (rounds (place fm m a qh i) n) l.log

/-- Before turn `j` of `j_loop`. -/
structure AtJ (fm : Format V C) (m : Nat → C) (args : Nat) (a : pv_decode_args)
    (heads kv_heads qh : Nat) (i : Fin 32) (n j : Nat) (l : Lane V) : Prop extends Base a qh i l where
  pc : l.pc = 35
  t1 : l.x t1 = num n
  t3 : l.x t3 = num j
  t4 : l.x t4 = num ((n * 32 + i) * 4)
  t5 : l.x t5 = num (a.v_at qh j (n * 32 + i))
  t6 : l.x t6 = num (a.p_at qh j)
  ft0 : l.f ft0 = a.sum fm m qh (n * 32 + i) j
  log : Trace fm m (Reads args a heads kv_heads) (rounds (place fm m a qh i) n) l.log

/-- The output lies apart from what the lanes read. -/
structure Clear (args : Nat) (a : pv_decode_args) (heads kv_heads : Nat) : Prop where
  args : a.O_off + 4 * (heads * a.head_dim) ≤ args ∨ args + 28 ≤ a.O_off
  P : a.O_off + 4 * (heads * a.head_dim) ≤ a.P_off ∨ a.P_off + 4 * (heads * a.max_seq) ≤ a.O_off
  V : a.O_off + 4 * (heads * a.head_dim) ≤ a.V_cache_off ∨
    a.V_cache_off + 4 * (kv_heads * (a.max_seq * a.head_dim)) ≤ a.O_off

theorem Clear.apart (h : Clear args a heads kv_heads) {x y : Nat} (hx : Reads args a heads kv_heads x)
    (hy : InBuf a.O_off (4 * (heads * a.head_dim)) y) : y + 4 ≤ x ∨ x + 4 ≤ y := by
  obtain ⟨h1, h2, h3⟩ := h
  unfold Reads InBuf at hx
  unfold InBuf at hy
  omega

/-- What the lane has written so far does not touch what it reads. -/
theorem get_of_trace (hclear : Clear args a heads kv_heads) (hqh : qh < heads)
    (hn : n ≤ a.head_dim / 32)
    (hlog : Trace fm m (Reads args a heads kv_heads) (rounds (place fm m a qh i) n) l.log) {x : Nat}
    (hx : Reads args a heads kv_heads x) : fm.get (view fm m l) x = fm.get m x := by
  apply hlog.get
  intro p hp
  obtain ⟨t, ht, hp⟩ := mem_rounds.mp hp
  obtain rfl := List.mem_singleton.mp hp
  exact hclear.apart hx (o_in hqh (by omega))

/-- A turn of the inner loop. -/
theorem turn_j (h : Ready fm m args a heads kv_heads) (hclear : Clear args a heads kv_heads)
    (hqh : qh < heads) (hn : n < a.head_dim / 32) (hj : j < a.cur_pos + 1)
    (hl : AtJ fm m args a heads kv_heads qh i n j l) :
    Leads fm (assemble source.pv_decode) m 49 l (AtJ fm m args a heads kv_heads qh i n (j + 1)) := by
  have hcur := h.cur_pos
  obtain ⟨-, hseq⟩ := h.dims hqh
  have hk : n * 32 + i.val < a.head_dim := by omega
  have hp : InBuf a.P_off _ (a.p_at qh j) := p_in hqh (show j < a.max_seq by omega)
  have hv := v_in h hqh (show j < a.max_seq by omega) hk
  have hgetp := get_of_trace hclear hqh hn.le hl.log (.inr (.inl hp))
  have hgetv := get_of_trace hclear hqh hn.le hl.log (.inr (.inr hv))
  have hplt : a.p_at qh j < 2 ^ 32 := by have := h.P_end; unfold InBuf at hp; omega
  have hvlt : a.v_at qh j (n * 32 + i) < 2 ^ 32 := by have := h.V_end; unfold InBuf at hv; omega
  refine leads_branch 35 rfl hl.pc hl.active (by decide) ?_
  rw [hl.t3, hl.s10, eq_num (by omega) (by omega), if_neg (by simp; omega)]
  refine leads_straight [.flw ft1 0 t6, .flw ft2 0 t5, .fop .fmul ft3 ft1 ft2,
    .fop .fadd ft0 ft0 ft3, .opi .add t6 t6 4, .op .add t5 t5 s3, .opi .add t3 t3 1] 36 rfl rfl
    (congrArg (· + 1) hl.pc) hl.active (by decide) fun hpc hactive => ?_
  refine leads_jump 43 rfl hpc hactive (by decide) (leads_refl ?_)
  refine ⟨⟨hactive, ?_, ?_, ?_, ?_, ?_, ?_, ?_, ?_⟩, rfl, ?_, ?_, ?_, ?_, ?_, ?_, ?_⟩ <;>
    simp (disch := omega) [straight, act, Act.lane, hl.a6, hl.s0, hl.s1, hl.s2, hl.s3, hl.s8, hl.s10,
      hl.s11, hl.t1, hl.t3, hl.t4, hl.t5, hl.t6, hl.ft0, hl.log, hgetp, hgetv, FAlu.eval]
  · congr 1
    unfold pv_decode_args.v_at
    ring
  · congr 1
  · exact sum_succ.symm
  · exact ⟨.inr (.inr hv), .inr (.inl hp)⟩

/-- The begin of turn `n`. -/
theorem enters (h : Ready fm m args a heads kv_heads) (hqh : qh < heads) (hn : n < a.head_dim / 32)
    (hl : AtK fm m args a heads kv_heads qh i n l) :
    Leads fm (assemble source.pv_decode) m 49 l (AtJ fm m args a heads kv_heads qh i n 0) := by
  obtain ⟨hdim, -⟩ := h.dims hqh
  have hpc := hl.pc
  rw [if_pos hn] at hpc
  refine leads_line [.opi .sll t2 t1 5, .op .add t2 s8 t2] 27 rfl rfl hpc hl.active (by decide)
    fun l1 hl1 hpc hactive => ?_
  have ht2 : l1.x t2 = num (n * 32 + i) := by
    rw [hl1]
    simp [straight, act, Act.lane, hl.t1, hl.s8, Nat.add_comm]
  have ha6 : l1.x a6 = num a.head_dim := by
    rw [hl1]
    simp [straight, act, Act.lane, hl.a6]
  refine leads_test 29 rfl hpc hactive (by decide) (by rw [ht2, ha6, ge_num (by omega) (by omega)])
    (fun hout => by omega) fun _ => ?_
  subst hl1
  refine leads_straight [.fmv_s_x ft0 zero, .opi .add t3 zero 0, .opi .sll t4 t2 2, .op .add t5 s1 t4,
    .opi .add t6 s0 0] 30 rfl rfl rfl hactive (by decide) fun hpc hactive => ?_
  refine leads_refl ⟨⟨hactive, ?_, ?_, ?_, ?_, ?_, ?_, ?_, ?_⟩, hpc, ?_, rfl, ?_, ?_, ?_, ?_, ?_⟩ <;>
    simp [straight, act, Act.lane, hl.a6, hl.s0, hl.s1, hl.s2, hl.s3, hl.s8, hl.s10, hl.s11, hl.t1,
      hl.log]
  · congr 1
    ring
  · congr 1
    unfold pv_decode_args.v_at
    ring
  · congr 1
    unfold pv_decode_args.p_at
    ring
  · rfl

theorem Base.goto {pc : Nat} (h : Base a qh i l) : Base a qh i (l.goto pc) :=
  ⟨h.active, h.a6, h.s0, h.s1, h.s2, h.s3, h.s8, h.s10, h.s11⟩

/-- The end of turn `n`: the sum is stored. -/
theorem stores (h : Ready fm m args a heads kv_heads) (hqh : qh < heads) (hn : n < a.head_dim / 32)
    (hl : AtJ fm m args a heads kv_heads qh i n (a.cur_pos + 1) l) :
    Leads fm (assemble source.pv_decode) m 49 l (AtK fm m args a heads kv_heads qh i (n + 1)) := by
  obtain ⟨hdim, hseq⟩ := h.dims hqh
  have hcur := h.cur_pos
  have hk : n * 32 + i.val < a.head_dim := by omega
  have ho : InBuf a.O_off _ (a.o_at qh (n * 32 + i)) := o_in hqh hk
  have holt : a.o_at qh (n * 32 + i) < 2 ^ 32 := by have := h.O_end; unfold InBuf at ho; omega
  have haddr : a.O_off + qh * a.head_dim * 4 + (n * 32 + i) * 4 = a.o_at qh (n * 32 + i) := by
    unfold pv_decode_args.o_at
    ring
  refine leads_branch 35 rfl hl.pc hl.active (by decide) ?_
  rw [hl.t3, hl.s10, eq_num (by omega) (by omega), if_pos (by simp)]
  refine leads_line [.op .add t0 s2 t4, .fsw ft0 0 t0, .opi .add t1 t1 1] 44 rfl rfl rfl hl.active
    (by decide) fun l1 hl1 hpc hactive => ?_
  have hbase : Base a qh i l1 := by
    subst hl1
    refine ⟨hactive, ?_, ?_, ?_, ?_, ?_, ?_, ?_, ?_⟩ <;>
      simp [straight, act, Act.lane, hl.a6, hl.s0, hl.s1, hl.s2, hl.s3, hl.s8, hl.s10, hl.s11]
  have ht1 : l1.x t1 = num (n + 1) := by
    subst hl1
    simp [straight, act, Act.lane, hl.t1]
  have hlog : Trace fm m (Reads args a heads kv_heads) (rounds (place fm m a qh i) (n + 1)) l1.log := by
    subst hl1
    rw [rounds_succ]
    refine hl.log.store ?_ hl.ft0 fun p hp => ?_
    · simp (disch := omega) [act, Act.lane, hl.s2, hl.t4, haddr]
    · obtain ⟨t, ht, hp⟩ := mem_rounds.mp hp
      obtain rfl := List.mem_singleton.mp hp
      refine o_apart (by omega) hk fun he => ?_
      have := (Prod.mk.inj he).2
      omega
  refine leads_test 47 rfl hpc hactive (by decide)
    (by rw [ht1, hbase.s11, lt_num (by omega) (by omega)]) (fun hlast => ?_) fun hlast => ?_
  · exact leads_refl ⟨hbase.goto, (if_pos hlast).symm, ht1, hlog⟩
  · exact leads_refl ⟨hbase.goto, (if_neg hlast).symm, ht1, hlog⟩

theorem starts (h : Ready fm m args a heads kv_heads) (hqh : qh < heads) :
    Leads fm (assemble source.pv_decode) m 49 (begin_lane regs qh (num args) i)
      (AtK fm m args a heads kv_heads qh i 0) := by
  obtain ⟨hdim, -⟩ := h.dims hqh
  have hheads := h.heads_le
  have hqpos := h.q_pos
  have hqlt := h.q_lt
  refine (leads_loads (n := 28) [(a1, 0), (a2, 1), (a3, 2), (a4, 3), (a5, 4), (a6, 5), (a7, 6)]
    h.loaded h.args_end (Nat.le_refl _) ⟨by decide, by simp [pv_decode_args.words]⟩ rfl
    (by decide)).trans fun l hl => ?_
  have hregs := hl.regs
  simp [pv_decode_args.words] at hregs
  obtain ⟨ha1, ha2, ha3, ha4, ha5, ha6, ha7⟩ := hregs
  refine leads_line [.csrr_mhartid t1, .opi .and s8 t1 0x1F, .opi .srl s7 t1 13,
    .op .div s9 s7 a7, .opi .add s10 a4 1, .li t0 32, .op .div s11 a6 t0, .opi .sll s3 a6 2,
    .op .mul t0 s7 a5, .opi .sll t0 t0 2, .op .add s0 a1 t0, .op .mul t0 s9 a5, .op .mul t0 t0 a6,
    .opi .sll t0 t0 2, .op .add s1 a2 t0, .op .mul t0 s7 a6, .opi .sll t0 t0 2, .op .add s2 a3 t0,
    .opi .add t1 zero 0] 7 rfl rfl hl.pc hl.active (by decide) fun l1 hl1 hpc hactive => ?_
  have h32 : (32 : Word) = num 32 := rfl
  have hbase : Base a qh i l1 := by
    subst hl1
    refine ⟨hactive, ?_, ?_, ?_, ?_, ?_, ?_, ?_, ?_⟩ <;>
      simp (disch := omega) [straight, act, Act.lane, ha1, ha2, ha3, ha4, ha5, ha6, ha7, hl.mhartid, h32]
  have ht1 : l1.x t1 = num 0 := by
    subst hl1
    rfl
  have hlog : Trace fm m (Reads args a heads kv_heads) (rounds (place fm m a qh i) 0) l1.log := by
    subst hl1
    exact trace_nil (hl.log.mono (fun x hx => .inl hx) fun _ hx => hx)
  refine leads_test 26 rfl hpc hactive (by decide)
    (by rw [hbase.s11, x_zero, eq_zero_num (by omega)]) (fun hzero => ?_) fun hsome => ?_
  · exact leads_refl ⟨hbase.goto, (if_neg (by omega)).symm, ht1, hlog⟩
  · exact leads_refl ⟨hbase.goto, (if_pos (by omega)).symm, ht1, hlog⟩

/-- A whole lane. -/
theorem lane_done (h : Ready fm m args a heads kv_heads) (hclear : Clear args a heads kv_heads)
    (hqh : qh < heads) :
    Leads fm (assemble source.pv_decode) m 49 (begin_lane regs qh (num args) i)
      (LaneDone fm m (Reads args a heads kv_heads)
        (rounds (place fm m a qh i) (a.head_dim / 32))) := by
  refine (starts h hqh).trans fun l hl => ?_
  refine (leads_turns (AtK fm m args a heads kv_heads qh i) (Nat.zero_le (a.head_dim / 32)) hl
    fun n hn l hl => ?_).trans fun l hl => ?_
  · refine (enters h hqh hn hl).trans fun l hl => ?_
    exact (leads_turns (AtJ fm m args a heads kv_heads qh i n) (Nat.zero_le (a.cur_pos + 1)) hl
      fun j hj l hl => turn_j h hclear hqh hn hj hl).trans fun l hl => stores h hqh hn hl
  · have hpc := hl.pc
    rw [if_neg (Nat.lt_irrefl _)] at hpc
    exact leads_ebreak 48 rfl hpc hl.active (by decide) ⟨rfl, hl.log⟩

/-! ## The launch -/

variable {order : List Nat}

/-- The places of two lanes, or of one lane in two turns, lie apart. -/
theorem place_apart {qh' n' : Nat} {i' : Fin 32} (hn : n < a.head_dim / 32)
    (hn' : n' < a.head_dim / 32) (hne : (qh, i) ≠ (qh', i')) :
    a.o_at qh (n * 32 + i) + 4 ≤ a.o_at qh' (n' * 32 + i') ∨
      a.o_at qh' (n' * 32 + i') + 4 ≤ a.o_at qh (n * 32 + i) := by
  refine o_apart (by omega) (by omega) fun he => hne ?_
  obtain ⟨rfl, hk⟩ := Prod.mk.inj he
  exact congrArg _ (Fin.ext (by omega))

/-- The launch writes the whole turns of each row, and leaves the rest of it. -/
theorem pv_decode_spec (h : Ready fm m args a heads kv_heads) (hclear : Clear args a heads kv_heads)
    (regs : Nat → Fin 32 → Regs V) (horder : order.Perm (List.range heads)) :
    Ends fm (assemble source.pv_decode) regs (num args) order m fun m' logs =>
      (∀ log ∈ logs, Within (Reads args a heads kv_heads)
        (InBuf a.O_off (4 * (heads * a.head_dim))) log) ∧
      (∀ qh < heads, ∀ k < a.head_dim / 32 * 32, fm.get m' (a.o_at qh k) = a.out fm m qh k) ∧
      (∀ qh < heads, ∀ k < a.head_dim, a.head_dim / 32 * 32 ≤ k →
        fm.get m' (a.o_at qh k) = fm.get m (a.o_at qh k)) ∧
      ∀ y, y < a.O_off ∨ a.O_off + 4 * (heads * a.head_dim) ≤ y → m' y = m y := by
  have hmem : ∀ qh, qh ∈ order ↔ qh < heads := fun qh => horder.mem_iff.trans List.mem_range
  have hends : Ends fm (assemble source.pv_decode) regs (num args) order m _ := launch_of_lanes 49 regs
    (fun qh i => rounds (place fm m a qh i) (a.head_dim / 32)) (fun _ _ => Reads args a heads kv_heads)
    (horder.nodup_iff.mpr List.nodup_range)
    (fun qh _ qh' _ i i' hne p hp p' hp' => by
      obtain ⟨n, hn, hp⟩ := mem_rounds.mp hp
      obtain ⟨n', hn', hp'⟩ := mem_rounds.mp hp'
      obtain rfl := List.mem_singleton.mp hp
      obtain rfl := List.mem_singleton.mp hp'
      exact place_apart hn hn' hne)
    (fun qh hqh _ _ i _ _ p hp x hx => by
      obtain ⟨n, hn, hp⟩ := mem_rounds.mp hp
      obtain rfl := List.mem_singleton.mp hp
      exact hclear.apart hx (o_in ((hmem qh).mp hqh) (by omega)))
    fun qh hqh i m1 hm1 => by
      have hplaces : rounds (place fm m a qh i) (a.head_dim / 32) =
          rounds (place fm m1 a qh i) (a.head_dim / 32) := by
        refine rounds_congr fun n hn => ?_
        unfold place pv_decode_args.out
        rw [sum_congr h hm1 ((hmem qh).mp hqh) (by omega) h.cur_pos]
      rw [hplaces]
      exact lane_done (h.congr hm1) hclear ((hmem qh).mp hqh)
  refine hends.mono fun m' logs heff => ⟨fun log hlog => ⟨fun x hx => ?_, fun x hx => ?_⟩,
    fun qh hqh k hk => ?_, fun qh hqh k hk hout => get_congr _ fun y h1 h2 => heff.frame y ?_,
    fun y hy => heff.frame y ?_⟩
  · obtain ⟨_, _, _, hR⟩ := heff.reads log hlog x hx
    exact hR
  · obtain ⟨qh, hqh, i, p, hp, rfl⟩ := heff.mem_written hlog hx
    obtain ⟨n, hn, hp⟩ := mem_rounds.mp hp
    obtain rfl := List.mem_singleton.mp hp
    exact o_in ((hmem qh).mp hqh) (by omega)
  · have hk32 : k / 32 * 32 + (Fin.ofNat 32 k).val = k := by
      rw [Fin.val_ofNat]
      omega
    have hval := heff.values qh ((hmem qh).mpr hqh) (Fin.ofNat 32 k) _
      (mem_rounds.mpr ⟨k / 32, by omega, List.mem_singleton.mpr rfl⟩)
    rwa [hk32] at hval
  · rintro qh' - ⟨i, p, hp, hin⟩
    obtain ⟨n, hn, hp⟩ := mem_rounds.mp hp
    obtain rfl := List.mem_singleton.mp hp
    have hother : (qh', n * 32 + i.val) ≠ (qh, k) := fun he => by
      have := (Prod.mk.inj he).2
      omega
    have hapart := o_apart (show n * 32 + i.val < a.head_dim by omega) hk hother
    dsimp only at hin
    omega
  · rintro qh hqh ⟨i, p, hp, hin⟩
    obtain ⟨n, hn, hp⟩ := mem_rounds.mp hp
    obtain rfl := List.mem_singleton.mp hp
    have hbuf : InBuf a.O_off _ (a.o_at qh (n * 32 + i)) := o_in ((hmem qh).mp hqh) (by omega)
    unfold InBuf at hbuf
    dsimp only at hin
    omega

/-- The launch writes each row of the output from its begin to its end, and nothing else. -/
def WritesRows (fm : Format V C) (regs : Nat → Fin 32 → Regs V) (args : Nat) (a : pv_decode_args)
    (heads : Nat) (order : List Nat) (m : Nat → C) : Prop :=
  Ends fm (assemble source.pv_decode) regs (num args) order m fun m' logs =>
    (∀ qh < heads, ∀ k < a.head_dim, fm.get m' (a.o_at qh k) = a.out fm m qh k) ∧
    (∀ log ∈ logs, ∀ x ∈ written log, InBuf a.O_off (4 * (heads * a.head_dim)) x) ∧
    ∀ y, y < a.O_off ∨ a.O_off + 4 * (heads * a.head_dim) ≤ y → m' y = m y

/-- A change in the output does not touch what the lanes read. -/
theorem reads_of_frame (hclear : Clear args a heads kv_heads)
    (hm1 : ∀ y, y < a.O_off ∨ a.O_off + 4 * (heads * a.head_dim) ≤ y → m1 y = m y) {x : Nat}
    (hx : Reads args a heads kv_heads x) : fm.get m1 x = fm.get m x := by
  obtain ⟨h1, h2, h3⟩ := hclear
  unfold Reads InBuf at hx
  exact get_congr _ fun y hy1 hy2 => hm1 y (by omega)

/-- A value that is not `v`. -/
theorem exists_ne (fm : Format V C) (v : V) : ∃ w, w ≠ v := by
  by_cases h : fm.ofBits 0 = v
  · refine ⟨fm.ofBits 1, fun h1 => ?_⟩
    have hbits := congrArg fm.toBits (h.trans h1.symm)
    rw [fm.toBits_ofBits, fm.toBits_ofBits] at hbits
    exact absurd hbits (by decide)
  · exact ⟨_, h⟩

/-- The rows are written, whatever was in them, just when the elements of a head make whole
turns of the warp. -/
theorem the_rows_are_written_iff_they_are_whole_turns (fm : Format V C) (regs : Nat → Fin 32 → Regs V)
    (m : Nat → C) (args : Nat) (a : pv_decode_args) (heads kv_heads : Nat) (order : List Nat)
    (h : Ready fm m args a heads kv_heads) (hclear : Clear args a heads kv_heads)
    (hsome : 0 < heads) (horder : order.Perm (List.range heads)) :
    (∀ m1 : Nat → C,
      (∀ y, y < a.O_off ∨ a.O_off + 4 * (heads * a.head_dim) ≤ y → m1 y = m y) →
      WritesRows fm regs args a heads order m1) ↔ 32 ∣ a.head_dim := by
  constructor
  · intro hall
    by_contra hdvd
    have hk : a.head_dim / 32 * 32 < a.head_dim := by omega
    obtain ⟨v, hv⟩ := exists_ne fm (a.out fm m 0 (a.head_dim / 32 * 32))
    have hbuf : InBuf a.O_off _ (a.o_at 0 (a.head_dim / 32 * 32)) := o_in hsome hk
    have hm1 : ∀ y, y < a.O_off ∨ a.O_off + 4 * (heads * a.head_dim) ≤ y →
        fm.set m (a.o_at 0 (a.head_dim / 32 * 32)) v y = m y := by
      intro y hy
      unfold InBuf at hbuf
      exact set_outside _ (by omega)
    have hreads : ∀ x, Reads args a heads kv_heads x →
        fm.get (fm.set m (a.o_at 0 (a.head_dim / 32 * 32)) v) x = fm.get m x :=
      fun x hx => reads_of_frame hclear hm1 hx
    obtain ⟨-, hrows⟩ := hall _ hm1
    obtain ⟨⟨m', logs, hlaunch⟩, hspec⟩ := pv_decode_spec (h.congr hreads) hclear regs horder
    obtain ⟨-, -, htail, -⟩ := hspec m' logs hlaunch
    -- The word behind the last turn should be the sum and is what was there.
    have hleft := htail 0 hsome _ hk (Nat.le_refl _)
    rw [(hrows m' logs hlaunch).1 0 hsome _ hk, get_set] at hleft
    exact hv (hleft.symm.trans (sum_congr h hreads hsome hk h.cur_pos))
  · intro hdvd m1 hm1
    have hwhole : a.head_dim / 32 * 32 = a.head_dim := Nat.div_mul_cancel hdvd
    refine (pv_decode_spec (h.congr fun x hx => reads_of_frame hclear hm1 hx) hclear regs horder).mono
      fun m' logs ⟨hlogs, hrows, _, hframe⟩ => ⟨fun qh hqh k hk => hrows qh hqh k (by omega),
        fun log hlog => (hlogs log hlog).2, hframe⟩

/-- One head with one row of values, all 1. -/
def oneHead (head_dim : Word) : Mem :=
  put (put (put (fun _ => 0) 0 [64, 128, 512, 0, 1, head_dim, 1]) 64 [1]) 128 (List.replicate 33 1)

theorem a_head_of_32_is_written :
    WritesRows countingFormat (fun _ => zeroRegs) 0 ⟨64, 128, 512, 0, 1, 32, 1⟩ 1 [0] (oneHead 32) :=
  (the_rows_are_written_iff_they_are_whole_turns countingFormat (fun _ => zeroRegs) (oneHead 32) 0
    ⟨64, 128, 512, 0, 1, 32, 1⟩ 1 1 [0]
    ⟨⟨by decide, by decide, by decide, by decide, by decide, by decide, by decide, trivial⟩, by decide,
      by decide, by decide, by decide, by decide, by decide, by decide, by decide, by decide⟩
    ⟨by decide, by decide, by decide⟩ (by decide) (by decide)).mpr (by decide) (oneHead 32)
    fun _ _ => rfl

/-- The last element of a head of 33 keeps what was there. -/
theorem the_last_of_33_is_left :
    Ends countingFormat (assemble source.pv_decode) (fun _ => zeroRegs) (num 0) [0] (oneHead 33)
      fun m' _ => countingFormat.get m' (512 + 4 * 32) = 0 ∧
        (⟨64, 128, 512, 0, 1, 33, 1⟩ : pv_decode_args).out countingFormat (oneHead 33) 0 32 = 1 := by
  have hready : Ready countingFormat (oneHead 33) 0 ⟨64, 128, 512, 0, 1, 33, 1⟩ 1 1 :=
    ⟨⟨by decide, by decide, by decide, by decide, by decide, by decide, by decide, trivial⟩, by decide,
      by decide, by decide, by decide, by decide, by decide, by decide, by decide, by decide⟩
  have horder : [0].Perm (List.range 1) := by decide
  refine (pv_decode_spec hready ⟨by decide, by decide, by decide⟩ (fun _ => zeroRegs) horder).mono
    fun m' logs ⟨_, _, htail, _⟩ => ⟨?_, by decide⟩
  exact (htail 0 (by decide) 32 (by decide) (by decide)).trans (by decide)

end gpgpu.pv
