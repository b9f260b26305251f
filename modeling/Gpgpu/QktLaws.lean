-- The law of qkt_decode.S. The warp of a head writes one score for each token up to the
-- current one, lane i those of the tokens i, i + 32, …: the product of the query with the key
-- of the token, times the scale.
import Gpgpu.LaunchLaws
import Gpgpu.Sources
import Gpgpu.Kernels

open memory words cells

namespace gpgpu.qkt

open core X F
open kernels (turns turns_iff LANES)

/-- `struct qkt_decode_args`. -/
structure qkt_decode_args where
  Q_off : Nat
  K_cache_off : Nat
  scores_off : Nat
  cur_pos : Nat
  max_seq : Nat
  head_dim : Nat
  q_per_kv : Nat
  scale_bits : Nat

variable {V C : Type} {fm : Format V C} {m m1 : Nat → C} {a : qkt_decode_args}
  {args heads kv_heads qh t j k : Nat} {i : Fin 32} {l : Lane V}

/-! ## The scores -/

namespace qkt_decode_args

variable (a) (fm) (m)

def words : List Nat :=
  [a.Q_off, a.K_cache_off, a.scores_off, a.cur_pos, a.max_seq, a.head_dim, a.q_per_kv, a.scale_bits]

/-- Where `Q[qh][k]` lies. -/
def q_at (qh k : Nat) : Nat := a.Q_off + 4 * (qh * a.head_dim + k)

/-- Where the key `K[qh / q_per_kv][j][k]` lies. -/
def k_at (qh j k : Nat) : Nat :=
  a.K_cache_off + 4 * ((qh / a.q_per_kv * a.max_seq + j) * a.head_dim + k)

/-- Where score `j` of head `qh` lies. -/
def s_at (qh j : Nat) : Nat := a.scores_off + 4 * (qh * a.max_seq + j)

/-- The product of the first `n` elements of the key and the query, from left to right. -/
def dot (qh j : Nat) : Nat → V
  | 0 => fm.ofBits 0
  | n + 1 => fm.fmadd (fm.get m (a.k_at qh j n)) (fm.get m (a.q_at qh n)) (dot qh j n)

def score (qh j : Nat) : V := fm.fmul (a.dot fm m qh j a.head_dim) (fm.ofBits (num a.scale_bits))

/-- What lane `i` writes in turn `t`. -/
def place (qh : Nat) (i : Fin 32) (t : Nat) : List (Nat × V) :=
  [(a.s_at qh (t * 32 + i), a.score fm m qh (t * 32 + i))]

/-- How many turns lane `i` takes. -/
def iter_count (i : Fin 32) : Nat := turns (a.cur_pos + 1) i

end qkt_decode_args

/-- The arguments are there, and the buffers lie in the address space. A query head finds its
head of the cache. -/
structure Ready (fm : Format V C) (m : Nat → C) (args : Nat) (a : qkt_decode_args)
    (heads kv_heads : Nat) : Prop where
  loaded : Args fm m args a.words
  args_end : args + 32 ≤ 2 ^ 32
  Q_end : a.Q_off + 4 * (heads * a.head_dim) ≤ 2 ^ 32
  K_end : a.K_cache_off + 4 * (kv_heads * (a.max_seq * a.head_dim)) ≤ 2 ^ 32
  scores_end : a.scores_off + 4 * (heads * a.max_seq) ≤ 2 ^ 32
  cur_pos : a.cur_pos < a.max_seq
  heads_le : heads ≤ 2 ^ 19
  q_pos : 0 < a.q_per_kv
  q_lt : a.q_per_kv < 2 ^ 31
  covers : heads ≤ kv_heads * a.q_per_kv

/-- What a lane reads. -/
def Reads (args : Nat) (a : qkt_decode_args) (heads kv_heads x : Nat) : Prop :=
  InBuf args 32 x ∨ InBuf a.Q_off (4 * (heads * a.head_dim)) x ∨
    InBuf a.K_cache_off (4 * (kv_heads * (a.max_seq * a.head_dim))) x

/-- The scores lie apart from what the lanes read. -/
structure Clear (args : Nat) (a : qkt_decode_args) (heads kv_heads : Nat) : Prop where
  args : a.scores_off + 4 * (heads * a.max_seq) ≤ args ∨ args + 32 ≤ a.scores_off
  Q : a.scores_off + 4 * (heads * a.max_seq) ≤ a.Q_off ∨ a.Q_off + 4 * (heads * a.head_dim) ≤ a.scores_off
  K : a.scores_off + 4 * (heads * a.max_seq) ≤ a.K_cache_off ∨
    a.K_cache_off + 4 * (kv_heads * (a.max_seq * a.head_dim)) ≤ a.scores_off

theorem Clear.apart (h : Clear args a heads kv_heads) {x y : Nat} (hx : Reads args a heads kv_heads x)
    (hy : InBuf a.scores_off (4 * (heads * a.max_seq)) y) : y + 4 ≤ x ∨ x + 4 ≤ y := by
  obtain ⟨h1, h2, h3⟩ := h
  unfold Reads InBuf at hx
  unfold InBuf at hy
  omega

theorem Ready.dims (h : Ready fm m args a heads kv_heads) (hqh : qh < heads) :
    a.head_dim ≤ 2 ^ 30 ∧ a.max_seq ≤ 2 ^ 30 := by
  have hQ := h.Q_end
  have hS := h.scores_end
  have h1 : a.head_dim ≤ heads * a.head_dim := Nat.le_mul_of_pos_left _ (by omega)
  have h2 : a.max_seq ≤ heads * a.max_seq := Nat.le_mul_of_pos_left _ (by omega)
  omega

theorem q_in (hqh : qh < heads) (hk : k < a.head_dim) :
    InBuf a.Q_off (4 * (heads * a.head_dim)) (a.q_at qh k) :=
  entry_in hqh hk

theorem k_in (h : Ready fm m args a heads kv_heads) (hqh : qh < heads) (hj : j < a.max_seq)
    (hk : k < a.head_dim) :
    InBuf a.K_cache_off (4 * (kv_heads * (a.max_seq * a.head_dim))) (a.k_at qh j k) := by
  have hkv : qh / a.q_per_kv < kv_heads :=
    (Nat.div_lt_iff_lt_mul h.q_pos).mpr (Nat.lt_of_lt_of_le hqh h.covers)
  rw [← Nat.mul_assoc kv_heads]
  exact entry_in (rows.pair_lt hkv hj) hk

theorem s_in (hqh : qh < heads) (hj : j < a.max_seq) :
    InBuf a.scores_off (4 * (heads * a.max_seq)) (a.s_at qh j) :=
  entry_in hqh hj

theorem s_apart {qh' j' : Nat} (hj : j < a.max_seq) (hj' : j' < a.max_seq) (hne : (qh, j) ≠ (qh', j')) :
    a.s_at qh j + 4 ≤ a.s_at qh' j' ∨ a.s_at qh' j' + 4 ≤ a.s_at qh j :=
  entries_apart hj hj' hne

/-- The token of a turn lies before the end of the cache. -/
theorem turn_lt (h : Ready fm m args a heads kv_heads) (ht : t < a.iter_count i) :
    t * 32 + i < a.cur_pos + 1 ∧ t * 32 + i < a.max_seq := by
  have hcur := h.cur_pos
  have hlt := turns_iff.mp ht
  omega

theorem dot_congr (h : Ready fm m args a heads kv_heads)
    (hsame : ∀ x, Reads args a heads kv_heads x → fm.get m1 x = fm.get m x) (hqh : qh < heads)
    (hj : j < a.max_seq) (hk : k ≤ a.head_dim) : a.dot fm m1 qh j k = a.dot fm m qh j k := by
  induction k with
  | zero => rfl
  | succ k ih =>
    unfold qkt_decode_args.dot
    rw [ih (by omega), hsame _ (.inr (.inr (k_in h hqh hj hk))), hsame _ (.inr (.inl (q_in hqh hk)))]

theorem Ready.congr (h : Ready fm m args a heads kv_heads)
    (hsame : ∀ x, Reads args a heads kv_heads x → fm.get m1 x = fm.get m x) :
    Ready fm m1 args a heads kv_heads :=
  { h with loaded := h.loaded.of_get fun x hx => hsame x (.inl hx) }

/-! ## One lane -/

/-- What the registers of a lane hold in the loops. -/
structure Base (fm : Format V C) (a : qkt_decode_args) (qh : Nat) (i : Fin 32) (t : Nat) (l : Lane V) :
    Prop where
  active : l.active = true
  a6 : l.x a6 = num a.head_dim
  s1 : l.x s1 = num (a.cur_pos + 1)
  t0 : l.x t0 = num (t * 32 + i)
  t4 : l.x t4 = num (a.q_at qh 0)
  t5 : l.x t5 = num (a.s_at qh 0)
  t6 : l.x t6 = num (a.k_at qh 0 0)
  ft5 : l.f ft5 = fm.ofBits (num a.scale_bits)

/-- Before turn `t` of `loop`. -/
structure AtToken (fm : Format V C) (m : Nat → C) (args : Nat) (a : qkt_decode_args)
    (heads kv_heads qh : Nat) (i : Fin 32) (t : Nat) (l : Lane V) : Prop extends Base fm a qh i t l where
  pc : l.pc = 24
  log : Trace fm m (Reads args a heads kv_heads) (rounds (a.place fm m qh i) t) l.log

/-- In turn `k` of `loop_sum`. -/
structure AtDot (fm : Format V C) (m : Nat → C) (args : Nat) (a : qkt_decode_args)
    (heads kv_heads qh : Nat) (i : Fin 32) (t k pc : Nat) (l : Lane V) : Prop
    extends Base fm a qh i t l where
  pc : l.pc = pc
  s2 : l.x s2 = num (a.k_at qh (t * 32 + i) 0)
  s3 : l.x s3 = num k
  ft1 : l.f ft1 = a.dot fm m qh (t * 32 + i) k
  log : Trace fm m (Reads args a heads kv_heads) (rounds (a.place fm m qh i) t) l.log

/-- What the lane has written so far does not touch what it reads. -/
theorem get_of_trace (h : Ready fm m args a heads kv_heads) (hclear : Clear args a heads kv_heads)
    (hqh : qh < heads) (ht : t ≤ a.iter_count i)
    (hlog : Trace fm m (Reads args a heads kv_heads) (rounds (a.place fm m qh i) t) l.log) {x : Nat}
    (hx : Reads args a heads kv_heads x) : fm.get (view fm m l) x = fm.get m x := by
  apply hlog.get
  intro p hp
  obtain ⟨t', ht', hp⟩ := mem_rounds.mp hp
  obtain rfl := List.mem_singleton.mp hp
  exact hclear.apart hx (s_in hqh (turn_lt h (i := i) (by omega)).2)

theorem starts (h : Ready fm m args a heads kv_heads) (hqh : qh < heads) (regs : Regs V) (i : Fin 32) :
    Leads fm (assemble source.qkt_decode) m 46 (begin_lane regs qh (num args) i)
      (AtToken fm m args a heads kv_heads qh i 0) := by
  have hheads := h.heads_le
  have hqpos := h.q_pos
  have hqlt := h.q_lt
  have hargs := h.args_end
  refine (leads_loads (n := 32) [(a1, 0), (a2, 1), (a3, 2), (a4, 3), (a5, 4), (a6, 5), (a7, 6)]
    h.loaded h.args_end (Nat.le_refl _) ⟨by decide, by simp [qkt_decode_args.words]⟩ rfl
    (by decide)).trans fun l hl => ?_
  have hregs := hl.regs
  simp [qkt_decode_args.words] at hregs
  obtain ⟨ha1, ha2, ha3, ha4, ha5, ha6, ha7⟩ := hregs
  -- The scale comes last, since its load overwrites the address of the arguments.
  have hscale : fm.toBits (fm.get (view fm m l) (args + 28)) = num a.scale_bits := by
    rw [view_of_reads hl.log]
    exact h.loaded.get (k := 7) (by simp [qkt_decode_args.words])
  have hq : qh * a.head_dim * 4 + a.Q_off = a.q_at qh 0 := by
    unfold qkt_decode_args.q_at
    ring
  have hs : qh * a.max_seq * 4 + a.scores_off = a.s_at qh 0 := by
    unfold qkt_decode_args.s_at
    ring
  have hk : qh / a.q_per_kv * a.head_dim * a.max_seq * 4 + a.K_cache_off = a.k_at qh 0 0 := by
    unfold qkt_decode_args.k_at
    ring
  refine leads_straight [.lw a0 28 a0, .opi .add s1 a4 1, .csrr_mhartid t1, .opi .and t0 t1 0x1F,
    .opi .srl t1 t1 13, .op .div t3 t1 a7, .op .mul t4 t1 a6, .opi .sll t4 t4 2, .op .add t4 t4 a1,
    .op .mul t5 t1 a5, .opi .sll t5 t5 2, .op .add t5 t5 a3, .op .mul t6 t3 a6, .op .mul t6 t6 a5,
    .opi .sll t6 t6 2, .op .add t6 t6 a2, .fmv_s_x ft5 a0] 7 rfl rfl hl.pc hl.active (by decide)
    fun hpc hactive => ?_
  refine leads_refl ⟨⟨hactive, ?_, ?_, ?_, ?_, ?_, ?_, ?_⟩, hpc, ?_⟩ <;>
    simp (disch := omega) [straight, act, Act.lane, ha1, ha2, ha3, ha4, ha5, ha6, ha7, hl.a0, hl.mhartid,
      hscale, hq, hs, hk]
  exact ⟨.inl ⟨by omega, by omega⟩, trace_nil (hl.log.mono (fun x hx => .inl hx) fun _ hx => hx)⟩

/-- The begin of turn `t`. -/
theorem enters (h : Ready fm m args a heads kv_heads) (hqh : qh < heads) (ht : t < a.iter_count i)
    (hl : AtToken fm m args a heads kv_heads qh i t l) :
    Leads fm (assemble source.qkt_decode) m 46 l (AtDot fm m args a heads kv_heads qh i t 0 30) := by
  obtain ⟨-, hseq⟩ := h.dims hqh
  have hcur := h.cur_pos
  obtain ⟨hin, hj⟩ := turn_lt h ht
  have hs2 : a.head_dim * (t * 32 + i) * 4 + a.k_at qh 0 0 = a.k_at qh (t * 32 + i) 0 := by
    unfold qkt_decode_args.k_at
    ring
  refine leads_test 24 rfl hl.pc hl.active (by decide)
    (by rw [hl.t0, hl.s1, ge_num (by omega) (by omega)]) (fun hout => by omega) fun _ => ?_
  refine leads_straight [.op .mul s2 a6 t0, .opi .sll s2 s2 2, .op .add s2 s2 t6, .li s3 0,
    .fmv_s_x ft1 zero] 25 rfl rfl rfl ((active_goto ..).trans hl.active) (by decide)
    fun hpc hactive => ?_
  refine leads_refl ⟨⟨hactive, ?_, ?_, ?_, ?_, ?_, ?_, ?_⟩, hpc, ?_, rfl, rfl, hl.log⟩ <;>
    simp [straight, act, Act.lane, hl.a6, hl.s1, hl.t0, hl.t4, hl.t5, hl.t6, hl.ft5, hs2]

/-- A turn of the inner loop. -/
theorem turn_dot (h : Ready fm m args a heads kv_heads) (hclear : Clear args a heads kv_heads)
    (hqh : qh < heads) (ht : t < a.iter_count i) (hk : k < a.head_dim)
    (hl : AtDot fm m args a heads kv_heads qh i t k 30 l) :
    Leads fm (assemble source.qkt_decode) m 46 l
      (AtDot fm m args a heads kv_heads qh i t (k + 1) 30) := by
  obtain ⟨hdim, -⟩ := h.dims hqh
  obtain ⟨-, hj⟩ := turn_lt h ht
  have hq : InBuf a.Q_off _ (a.q_at qh k) := q_in hqh hk
  have hkey := k_in h hqh hj hk
  have hgetq := get_of_trace h hclear hqh ht.le hl.log (.inr (.inl hq))
  have hgetk := get_of_trace h hclear hqh ht.le hl.log (.inr (.inr hkey))
  have hqlt : a.q_at qh k < 2 ^ 32 := by have := h.Q_end; unfold InBuf at hq; omega
  have hklt : a.k_at qh (t * 32 + i) k < 2 ^ 32 := by have := h.K_end; unfold InBuf at hkey; omega
  have hqat : k * 4 + a.q_at qh 0 = a.q_at qh k := by
    unfold qkt_decode_args.q_at
    ring
  have hkat : k * 4 + a.k_at qh (t * 32 + i) 0 = a.k_at qh (t * 32 + i) k := by
    unfold qkt_decode_args.k_at
    ring
  refine leads_test 30 rfl hl.pc hl.active (by decide)
    (by rw [hl.s3, hl.a6, ge_num (by omega) (by omega)]) (fun hout => by omega) fun _ => ?_
  refine leads_straight [.opi .sll s4 s3 2, .op .add s5 s4 s2, .op .add s6 s4 t4, .flw ft2 0 s5,
    .flw ft3 0 s6, .fmadd ft1 ft2 ft3 ft1, .opi .add s3 s3 1] 31 rfl rfl rfl
    ((active_goto ..).trans hl.active) (by decide) fun hpc hactive => ?_
  refine leads_jump 38 rfl hpc hactive (by decide) (leads_refl ?_)
  refine ⟨⟨hactive, ?_, ?_, ?_, ?_, ?_, ?_, ?_⟩, rfl, ?_, ?_, ?_, ?_⟩ <;>
    simp (disch := omega) [straight, act, Act.lane, hl.a6, hl.s1, hl.t0, hl.t4, hl.t5, hl.t6, hl.ft5, hl.s2,
      hl.s3, hl.ft1, hl.log, hqat, hkat, hgetq, hgetk, qkt_decode_args.dot]
  exact ⟨.inr (.inl hq), .inr (.inr hkey)⟩

/-- The end of turn `t`: the score is stored. -/
theorem stores (h : Ready fm m args a heads kv_heads) (hqh : qh < heads) (ht : t < a.iter_count i)
    (hl : AtDot fm m args a heads kv_heads qh i t a.head_dim 30 l) :
    Leads fm (assemble source.qkt_decode) m 46 l (AtToken fm m args a heads kv_heads qh i (t + 1)) := by
  obtain ⟨hdim, -⟩ := h.dims hqh
  obtain ⟨-, hj⟩ := turn_lt h ht
  have hs : InBuf a.scores_off _ (a.s_at qh (t * 32 + i)) := s_in hqh hj
  have hslt : a.s_at qh (t * 32 + i) < 2 ^ 32 := by have := h.scores_end; unfold InBuf at hs; omega
  have hsat : a.s_at qh 0 + (t * 32 + i) * 4 = a.s_at qh (t * 32 + i) := by
    unfold qkt_decode_args.s_at
    ring
  have hnext : t * 32 + i.val + 32 = (t + 1) * 32 + i := by ring
  refine leads_test 30 rfl hl.pc hl.active (by decide)
    (by rw [hl.s3, hl.a6, ge_num (by omega) (by omega)]) (fun _ => ?_) fun hlt => by omega
  refine leads_line [.fop .fmul ft1 ft1 ft5, .opi .sll s7 t0 2, .op .add s7 t5 s7, .fsw ft1 0 s7,
    .opi .add t0 t0 32] 39 rfl rfl rfl ((active_goto ..).trans hl.active) (by decide)
    fun l1 hl1 hpc hactive => ?_
  refine leads_jump 44 rfl hpc hactive (by decide) (leads_refl ?_)
  subst hl1
  refine ⟨⟨hactive, ?_, ?_, ?_, ?_, ?_, ?_, ?_⟩, rfl, ?_⟩
  case refine_8 =>
    rw [rounds_succ]
    refine hl.log.store ?_ ?_ fun p hp => ?_
    · simp (disch := omega) [act, Act.lane, hl.t0, hl.t5, hsat]
    · simp [act, Act.lane, hl.ft1, hl.ft5, FAlu.eval, qkt_decode_args.score]
    · obtain ⟨t', ht', hp⟩ := mem_rounds.mp hp
      obtain rfl := List.mem_singleton.mp hp
      refine s_apart (turn_lt h (i := i) (by omega)).2 hj fun he => ?_
      have := (Prod.mk.inj he).2
      omega
  all_goals
    simp [straight, act, Act.lane, hl.a6, hl.s1, hl.t0, hl.t4, hl.t5, hl.t6, hl.ft5, hnext]

/-- A whole lane. -/
theorem lane_done (h : Ready fm m args a heads kv_heads) (hclear : Clear args a heads kv_heads)
    (hqh : qh < heads) (regs : Regs V) (i : Fin 32) :
    Leads fm (assemble source.qkt_decode) m 46 (begin_lane regs qh (num args) i)
      (LaneDone fm m (Reads args a heads kv_heads) (rounds (a.place fm m qh i) (a.iter_count i))) := by
  refine (starts h hqh regs i).trans fun l hl => ?_
  refine (leads_turns (AtToken fm m args a heads kv_heads qh i) (Nat.zero_le (a.iter_count i)) hl
    fun t ht l hl => ?_).trans fun l hl => ?_
  · refine (enters h hqh ht hl).trans fun l hl => ?_
    exact (leads_turns (fun k => AtDot fm m args a heads kv_heads qh i t k 30) (Nat.zero_le a.head_dim) hl
      fun k hk l hl => turn_dot h hclear hqh ht hk hl).trans fun l hl => stores h hqh ht hl
  · obtain ⟨-, hseq⟩ := h.dims hqh
    have hcur := h.cur_pos
    have hend : ¬ a.iter_count i * 32 + i < a.cur_pos + 1 :=
      fun hlt => Nat.lt_irrefl _ (turns_iff.mpr hlt)
    have hcount : a.iter_count i * 32 + i < 2 ^ 31 := by
      unfold qkt_decode_args.iter_count turns LANES
      omega
    refine leads_test 24 rfl hl.pc hl.active (by decide)
      (by rw [hl.t0, hl.s1, ge_num hcount (by omega)]) (fun _ => ?_) fun hlt => by omega
    exact leads_ebreak 45 rfl rfl ((active_goto ..).trans hl.active) (by decide) ⟨rfl, hl.log⟩

/-! ## The launch -/

variable {order : List Nat}

/-- The launch writes the scores of the tokens up to the current one, and nothing else. -/
theorem qkt_decode_spec (h : Ready fm m args a heads kv_heads) (hclear : Clear args a heads kv_heads)
    (regs : Nat → Fin 32 → Regs V) (horder : order.Perm (List.range heads)) :
    Ends fm (assemble source.qkt_decode) regs (num args) order m fun m' logs =>
      (∀ log ∈ logs, Within (Reads args a heads kv_heads)
        (InBuf a.scores_off (4 * (heads * a.max_seq))) log) ∧
      (∀ qh < heads, ∀ j < a.cur_pos + 1, fm.get m' (a.s_at qh j) = a.score fm m qh j) ∧
      ∀ y, (∀ qh < heads, ∀ j < a.cur_pos + 1, y < a.s_at qh j ∨ a.s_at qh j + 4 ≤ y) → m' y = m y := by
  have hmem : ∀ qh, qh ∈ order ↔ qh < heads := fun qh => horder.mem_iff.trans List.mem_range
  have hends : Ends fm (assemble source.qkt_decode) regs (num args) order m _ := launch_of_lanes 46 regs
    (fun qh i => rounds (a.place fm m qh i) (a.iter_count i)) (fun _ _ => Reads args a heads kv_heads)
    (horder.nodup_iff.mpr List.nodup_range)
    (fun qh _ qh' _ i i' hne p hp p' hp' => by
      obtain ⟨t, ht, hp⟩ := mem_rounds.mp hp
      obtain ⟨t', ht', hp'⟩ := mem_rounds.mp hp'
      obtain rfl := List.mem_singleton.mp hp
      obtain rfl := List.mem_singleton.mp hp'
      refine s_apart (turn_lt h ht).2 (turn_lt h ht').2 fun he => hne ?_
      obtain ⟨rfl, hj⟩ := Prod.mk.inj he
      exact congrArg _ (Fin.ext (by omega)))
    (fun qh hqh _ _ i _ _ p hp x hx => by
      obtain ⟨t, ht, hp⟩ := mem_rounds.mp hp
      obtain rfl := List.mem_singleton.mp hp
      exact hclear.apart hx (s_in ((hmem qh).mp hqh) (turn_lt h ht).2))
    fun qh hqh i m1 hm1 => by
      have hplaces : rounds (a.place fm m qh i) (a.iter_count i) =
          rounds (a.place fm m1 qh i) (a.iter_count i) := by
        refine rounds_congr fun t ht => ?_
        unfold qkt_decode_args.place qkt_decode_args.score
        rw [dot_congr h hm1 ((hmem qh).mp hqh) (turn_lt h ht).2 (Nat.le_refl _)]
      rw [hplaces]
      exact lane_done (h.congr hm1) hclear ((hmem qh).mp hqh) _ i
  refine hends.mono fun m' logs heff => ⟨fun log hlog => ⟨fun x hx => ?_, fun x hx => ?_⟩,
    fun qh hqh j hj => ?_, fun y hy => heff.frame y ?_⟩
  · obtain ⟨_, _, _, hR⟩ := heff.reads log hlog x hx
    exact hR
  · obtain ⟨qh, hqh, i, p, hp, rfl⟩ := heff.mem_written hlog hx
    obtain ⟨t, ht, hp⟩ := mem_rounds.mp hp
    obtain rfl := List.mem_singleton.mp hp
    exact s_in ((hmem qh).mp hqh) (turn_lt h ht).2
  · have hj32 : j / 32 * 32 + (Fin.ofNat 32 j).val = j := by
      rw [Fin.val_ofNat]
      omega
    have hval := heff.values qh ((hmem qh).mpr hqh) (Fin.ofNat 32 j) _
      (mem_rounds.mpr ⟨j / 32, turns_iff.mpr (by omega),
        List.mem_singleton.mpr rfl⟩)
    rwa [hj32] at hval
  · rintro qh hqh ⟨i, p, hp, hin⟩
    obtain ⟨t, ht, hp⟩ := mem_rounds.mp hp
    obtain rfl := List.mem_singleton.mp hp
    have := hy qh ((hmem qh).mp hqh) _ (turn_lt h ht).1
    dsimp only at hin
    omega

end gpgpu.qkt
