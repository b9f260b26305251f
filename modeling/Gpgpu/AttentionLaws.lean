-- The attention of a decode step over a cache that any history of appends has filled: the
-- three launches together write the softmax of the scaled products, times the values that
-- the appends brought, whatever the scores and the rows behind the current token held.
import Gpgpu.QktLaws
import Gpgpu.SoftmaxLaws
import Gpgpu.PvLaws
import Gpgpu.KvLaws

open memory words cells runs

namespace gpgpu.attention

open core kv qkt softmax pv

variable {V C : Type} {fm : Format V C}

/-! ## Exact products and sums -/

section

variable {K : Type} [Field K] [LinearOrder K] {sqrt exp : K → K} {val : V → WithBot K} {m : Nat → C}

theorem exact_score (hexact : Exact fm sqrt exp val) {a : qkt_decode_args} {qh j : Nat} {q k : Nat → K}
    {scale : K} (hq : ∀ i < a.head_dim, val (fm.get m (a.q_at qh i)) = q i)
    (hk : ∀ i < a.head_dim, val (fm.get m (a.k_at qh j i)) = k i)
    (hscale : val (fm.ofBits (num a.scale_bits)) = scale) :
    val (a.score fm m qh j) = (scale * ∑ i ∈ Finset.range a.head_dim, q i * k i : K) := by
  have hdot : ∀ n ≤ a.head_dim, val (a.dot fm m qh j n) = (∑ i ∈ Finset.range n, q i * k i : K) := by
    intro n hn
    induction n with
    | zero => exact hexact.zero
    | succ n ih =>
      rw [Finset.sum_range_succ, add_comm _ (q n * k n), mul_comm (q n)]
      exact hexact.fmadd (hk n hn) (hq n hn) (ih (by omega))
  rw [mul_comm]
  exact hexact.fmul (hdot _ (Nat.le_refl _)) hscale

theorem exact_sum_values (hexact : Exact fm sqrt exp val) {a : pv_decode_args} {qh k : Nat}
    {p v : Nat → K} (hp : ∀ j < a.cur_pos + 1, val (fm.get m (a.p_at qh j)) = p j)
    (hv : ∀ j < a.cur_pos + 1, val (fm.get m (a.v_at qh j k)) = v j) :
    val (a.out fm m qh k) = (∑ j ∈ Finset.range (a.cur_pos + 1), p j * v j : K) := by
  have hsum : ∀ n ≤ a.cur_pos + 1,
      val (a.sum fm m qh k n) = (∑ j ∈ Finset.range n, p j * v j : K) := by
    intro n hn
    induction n with
    | zero => exact hexact.zero
    | succ n ih =>
      rw [pv.sum_succ, Finset.sum_range_succ]
      exact hexact.fadd (ih (by omega)) (hexact.fmul (hp n hn) (hv n hn))
  exact hsum _ (Nat.le_refl _)

end

/-! ## The buffers -/

/-- The buffers that test_multistep_decode allocates beside the cache, with the scale. -/
structure Buffers where
  Q_off : Nat
  scores_off : Nat
  O_off : Nat
  qkt_args : Nat
  softmax_args : Nat
  pv_args : Nat
  scale_bits : Nat

namespace Buffers

variable (b : Buffers) (c : KvCache) (layer cur_pos q_per_kv : Nat)

/-- The heads of the query. -/
def heads : Nat := c.num_kv_heads * q_per_kv

def qkt : qkt_decode_args :=
  ⟨b.Q_off, layer_off c c.K_dev_off layer, b.scores_off, cur_pos, c.max_seq, c.head_dim, q_per_kv,
    b.scale_bits⟩

def sm : softmax_decode_args := ⟨b.scores_off, cur_pos, c.max_seq⟩

def pv : pv_decode_args :=
  ⟨b.scores_off, layer_off c c.V_dev_off layer, b.O_off, cur_pos, c.max_seq, c.head_dim, q_per_kv⟩

/-- Where the buffers begin, and their sizes. -/
def spans : List (Nat × Nat) :=
  [(b.Q_off, 4 * (heads c q_per_kv * c.head_dim)), (c.K_dev_off, c.bytes), (c.V_dev_off, c.bytes),
    (b.scores_off, 4 * (heads c q_per_kv * c.max_seq)), (b.O_off, 4 * (heads c q_per_kv * c.head_dim)),
    (b.qkt_args, 32), (b.softmax_args, 12), (b.pv_args, 28)]

end Buffers

/-- The buffers lie apart in the address space, and the three arguments are written. -/
structure Laid (fm : Format V C) (m : Nat → C) (b : Buffers) (c : KvCache)
    (layer cur_pos q_per_kv : Nat) : Prop where
  ends : ∀ p ∈ b.spans c q_per_kv, p.1 + p.2 ≤ 2 ^ 32
  apart : (b.spans c q_per_kv).Pairwise SpansApart
  qkt : Args fm m b.qkt_args (b.qkt c layer cur_pos q_per_kv).words
  softmax : Args fm m b.softmax_args (b.sm c cur_pos).words
  pv : Args fm m b.pv_args (b.pv c layer cur_pos q_per_kv).words

/-- The sizes of the launches. -/
structure Sizes (c : KvCache) (layer cur_pos q_per_kv : Nat) : Prop where
  layer : layer < c.num_layers
  cur_pos : cur_pos < c.max_seq
  kv_heads : 0 < c.num_kv_heads
  q_pos : 0 < q_per_kv
  heads : Buffers.heads c q_per_kv ≤ 2 ^ 19
  whole : 32 ∣ c.head_dim

section

variable {m : Nat → C} {b : Buffers} {c : KvCache} {layer cur_pos q_per_kv : Nat}

/-- The part of a layer lies in its buffer. -/
theorem layer_part {x : Nat} (hlayer : layer < c.num_layers) (hx : x + c.bytes ≤ 2 ^ 32) :
    x ≤ layer_off c x layer ∧
      layer_off c x layer + 4 * (c.num_kv_heads * (c.max_seq * c.head_dim)) ≤ x + c.bytes := by
  have hpart : (layer + 1) * (c.num_kv_heads * c.max_seq * c.width) ≤ c.bytes := by
    refine Nat.le_trans (Nat.mul_le_mul_right _ hlayer) (Nat.le_of_eq ?_)
    unfold KvCache.bytes
    ring
  have hbytes : 4 * (c.num_kv_heads * (c.max_seq * c.head_dim)) = c.num_kv_heads * c.max_seq * c.width := by
    unfold KvCache.width SIZEOF_FLOAT
    ring
  have hoff : layer * c.num_kv_heads * c.max_seq * c.width =
      layer * (c.num_kv_heads * c.max_seq * c.width) := by
    ring
  rw [Nat.succ_mul] at hpart
  rw [layer_off_in hlayer hx, hbytes, hoff]
  omega

variable (hs : Sizes c layer cur_pos q_per_kv) (hlaid : Laid fm m b c layer cur_pos q_per_kv)
include hs hlaid

theorem Sizes.qkt_ready : qkt.Ready fm m b.qkt_args (b.qkt c layer cur_pos q_per_kv)
      (Buffers.heads c q_per_kv) c.num_kv_heads ∧
    qkt.Clear b.qkt_args (b.qkt c layer cur_pos q_per_kv) (Buffers.heads c q_per_kv) c.num_kv_heads := by
  have hends := hlaid.ends
  have happ := hlaid.apart
  simp only [Buffers.spans, List.forall_mem_cons, List.pairwise_cons, SpansApart] at hends happ
  obtain ⟨hQ, hK, -, hscores, -, hargs, -⟩ := hends
  obtain ⟨hQs, hKs, -, hss, -⟩ := happ
  obtain ⟨hfirst, hlast⟩ := layer_part hs.layer hK
  have hq : q_per_kv ≤ Buffers.heads c q_per_kv := Nat.le_mul_of_pos_left _ hs.kv_heads
  have hheads := hs.heads
  exact ⟨⟨hlaid.qkt, hargs, hQ, hlast.trans hK, hscores, hs.cur_pos, hs.heads, hs.q_pos,
      show q_per_kv < 2 ^ 31 by omega, Nat.le_refl _⟩,
    ⟨hss.2.1, hQs.2.2.1.symm, hKs.2.1.symm.imp (·.trans hfirst) hlast.trans⟩⟩

theorem Sizes.softmax_ready : softmax.Ready fm m b.softmax_args (b.sm c cur_pos)
      (Buffers.heads c q_per_kv) ∧
    softmax.Clear b.softmax_args (b.sm c cur_pos) (Buffers.heads c q_per_kv) := by
  have hends := hlaid.ends
  have happ := hlaid.apart
  simp only [Buffers.spans, List.forall_mem_cons, List.pairwise_cons, SpansApart] at hends happ
  obtain ⟨-, -, -, hscores, -, -, hargs, -⟩ := hends
  obtain ⟨-, -, -, hss, -⟩ := happ
  exact ⟨⟨hlaid.softmax, hargs, hs.cur_pos, hs.heads, hscores⟩, hss.2.2.1⟩

theorem Sizes.pv_ready : pv.Ready fm m b.pv_args (b.pv c layer cur_pos q_per_kv)
      (Buffers.heads c q_per_kv) c.num_kv_heads ∧
    pv.Clear b.pv_args (b.pv c layer cur_pos q_per_kv) (Buffers.heads c q_per_kv) c.num_kv_heads := by
  have hends := hlaid.ends
  have happ := hlaid.apart
  simp only [Buffers.spans, List.forall_mem_cons, List.pairwise_cons, SpansApart] at hends happ
  obtain ⟨-, -, hV, hscores, hO, -, -, hargs, -⟩ := hends
  obtain ⟨-, -, hVs, hss, hOs, -⟩ := happ
  obtain ⟨hfirst, hlast⟩ := layer_part hs.layer hV
  have hq : q_per_kv ≤ Buffers.heads c q_per_kv := Nat.le_mul_of_pos_left _ hs.kv_heads
  have hheads := hs.heads
  exact ⟨⟨hlaid.pv, hargs, hscores, hlast.trans hV, hO, hs.cur_pos, hs.heads, hs.q_pos,
      show q_per_kv < 2 ^ 31 by omega, Nat.le_refl _⟩,
    ⟨hOs.2.2.1, hss.1.symm, hVs.2.1.symm.imp (·.trans hfirst) hlast.trans⟩⟩

omit hs in
/-- A change in the scores leaves the other buffers as they were. -/
theorem Laid.beside_scores {m1 : Nat → C} (hm1 : ∀ y, y < b.scores_off ∨
      b.scores_off + 4 * (Buffers.heads c q_per_kv * c.max_seq) ≤ y → m1 y = m y)
    {p : Nat × Nat} (hp : p ∈ [(b.Q_off, 4 * (Buffers.heads c q_per_kv * c.head_dim)), (c.V_dev_off, c.bytes),
      (b.qkt_args, 32), (b.softmax_args, 12), (b.pv_args, 28)]) {x : Nat} (hx : InBuf p.1 p.2 x) :
    fm.get m1 x = fm.get m x := by
  have happ := hlaid.apart
  simp only [Buffers.spans, List.pairwise_cons, List.forall_mem_cons, SpansApart] at happ
  obtain ⟨hQs, -, hVs, hss, -⟩ := happ
  have hapart : p.1 + p.2 ≤ b.scores_off ∨
      b.scores_off + 4 * (Buffers.heads c q_per_kv * c.max_seq) ≤ p.1 := by
    simp only [List.mem_cons, List.not_mem_nil, or_false] at hp
    rcases hp with rfl | rfl | rfl | rfl | rfl
    · exact hQs.2.2.1
    · exact hVs.1
    · exact hss.2.1.symm
    · exact hss.2.2.1.symm
    · exact hss.2.2.2.1.symm
  unfold InBuf at hx
  exact get_congr _ fun y h1 h2 => hm1 y (by omega)

omit hs in
theorem Laid.after_scores {m1 : Nat → C} (hm1 : ∀ y, y < b.scores_off ∨
      b.scores_off + 4 * (Buffers.heads c q_per_kv * c.max_seq) ≤ y → m1 y = m y) :
    Laid fm m1 b c layer cur_pos q_per_kv :=
  ⟨hlaid.ends, hlaid.apart,
    hlaid.qkt.of_get fun _ hx => hlaid.beside_scores hm1 (p := (b.qkt_args, 32)) (by simp) hx,
    hlaid.softmax.of_get fun _ hx => hlaid.beside_scores hm1 (p := (b.softmax_args, 12)) (by simp) hx,
    hlaid.pv.of_get fun _ hx => hlaid.beside_scores hm1 (p := (b.pv_args, 28)) (by simp) hx⟩

end

/-! ## The rows of the cache -/

/-- The device has the bytes of the host: a word of them is the value with these bits. -/
def Hosts (fm : Format V C) (cell : UInt8 → C) : Prop :=
  ∀ (m : Mem) (x : Nat), fm.get (fun y => cell (m y)) x = fm.ofBits (word m x)

/-- The device finds the rows of a layer, up to the current token, as the host left them. -/
def Mirrors (cell : UInt8 → C) (s : kv.State) (layer cur_pos : Nat) (m : Nat → C) : Prop :=
  ∀ h < s.cache.num_kv_heads, ∀ t ≤ cur_pos, ∀ y, s.cache.InRows 0 layer h t y →
    m y = cell (s.ctx.buddy.mem (s.ctx.vram_mmap + y))

section

variable {cell : UInt8 → C} {s : kv.State} {layer cur_pos h t i : Nat} {m : Nat → C} {e : Entry}

/-- The float `i` of a row is that of the host array. -/
theorem float_of_row (hhosts : Hosts fm cell) {x y : Nat} {f : Nat → UInt8}
    (hm : ∀ z < s.cache.width, m (x + z) = cell (s.ctx.buddy.mem (s.ctx.vram_mmap + (x + z))))
    (hrow : ∀ z < s.cache.width, s.ctx.buddy.mem (s.ctx.vram_mmap + (x + z)) = f (y + z))
    (hi : i < s.cache.head_dim) : fm.get m (x + 4 * i) = fm.ofBits (word f (y + 4 * i)) := by
  have hin : ∀ z, x + 4 * i ≤ z → z < x + 4 * i + 4 → z - x < s.cache.width := by
    intro z h1 h2
    unfold KvCache.width SIZEOF_FLOAT
    omega
  have hget : fm.get m (x + 4 * i) =
      fm.get (fun z => cell (s.ctx.buddy.mem (s.ctx.vram_mmap + z))) (x + 4 * i) := by
    refine get_congr _ fun z h1 h2 => ?_
    have hz := hm (z - x) (hin z h1 h2)
    rwa [Nat.add_sub_cancel' (by omega : x ≤ z)] at hz
  rw [hget, hhosts (fun z => s.ctx.buddy.mem (s.ctx.vram_mmap + z))]
  congr 1
  refine word_congr fun z hz => ?_
  have hrz := hrow (4 * i + z) (by unfold KvCache.width SIZEOF_FLOAT; omega)
  rwa [← Nat.add_assoc x, ← Nat.add_assoc y] at hrz

variable {T : Nat} {ctx0 : context.GpgpuCtx} {c0 : KvCache}

/-- A key and a value that the kernels read are those that the append of their token
brought. -/
theorem floats_of_entry (hhosts : Hosts fm cell) (hi : Inv T ctx0 c0 s)
    (hmirror : Mirrors cell s layer cur_pos m) (he : e ∈ s.log) (hlayer : e.layer = layer)
    (htoken : e.token ≤ cur_pos) (hh : h < s.cache.num_kv_heads) (hi' : i < s.cache.head_dim) :
    fm.get m (layer_off s.cache s.cache.K_dev_off layer +
        4 * ((h * s.cache.max_seq + e.token) * s.cache.head_dim + i)) =
      fm.ofBits (word e.K_new (4 * (h * s.cache.head_dim + i))) ∧
    fm.get m (layer_off s.cache s.cache.V_dev_off layer +
        4 * ((h * s.cache.max_seq + e.token) * s.cache.head_dim + i)) =
      fm.ofBits (word e.V_new (4 * (h * s.cache.head_dim + i))) := by
  subst hlayer
  obtain ⟨hl, ht⟩ := hi.has_lt (hi.has he)
  have hat : ∀ x, x + e.layer * s.cache.num_kv_heads * s.cache.max_seq * s.cache.width +
      4 * ((h * s.cache.max_seq + e.token) * s.cache.head_dim + i) =
      x + s.cache.row e.layer h e.token + 4 * i := by
    intro x
    unfold KvCache.row rows.cell KvCache.width SIZEOF_FLOAT
    ring
  have hsrc : 4 * (h * s.cache.head_dim + i) = h * s.cache.width + 4 * i := by
    unfold KvCache.width SIZEOF_FLOAT
    ring
  have hkept := hi.kept e he
  rw [hi.rooms.layer_off_eq hl hi.rooms.K_fits, hi.rooms.layer_off_eq hl hi.rooms.V_fits, hat, hat, hsrc]
  constructor
  · refine float_of_row hhosts (fun z hz => hmirror h hh _ htoken _ (.inl ⟨by omega, by omega⟩))
      (fun z hz => ?_) hi'
    rw [← hkept.K_row h (Nat.zero_le _) (by omega) z hz]
    congr 1
    omega
  · refine float_of_row hhosts (fun z hz => hmirror h hh _ htoken _ (.inr ⟨by omega, by omega⟩))
      (fun z hz => ?_) hi'
    rw [← hkept.V_row h (Nat.zero_le _) (by omega) z hz]
    congr 1
    omega

end

/-! ## The three launches -/

section

variable {K : Type} [Field K] [LinearOrder K] {sqrt exp : K → K} {val : V → WithBot K} {m : Nat → C}
  {b : Buffers} {c : KvCache} {layer cur_pos q_per_kv : Nat} {order : List Nat}
  (hexact : Exact fm sqrt exp val) (hs : Sizes c layer cur_pos q_per_kv)
  (hlaid : Laid fm m b c layer cur_pos q_per_kv)
  (horder : order.Perm (List.range (Buffers.heads c q_per_kv)))
include hexact hs hlaid horder

/-- The first launch leaves the scaled products. -/
theorem scores_of_launch (regs : Nat → Fin 32 → Regs V) {q k : Nat → Nat → Nat → K} {scale : K}
    (hq : ∀ qh < Buffers.heads c q_per_kv, ∀ j < cur_pos + 1, ∀ i < c.head_dim,
      val (fm.get m ((b.qkt c layer cur_pos q_per_kv).q_at qh i)) = q qh j i ∧
      val (fm.get m ((b.qkt c layer cur_pos q_per_kv).k_at qh j i)) = k qh j i)
    (hscale : val (fm.ofBits (num b.scale_bits)) = scale) :
    Ends fm (assemble source.qkt_decode) regs (num b.qkt_args) order m fun m1 _ =>
      (∀ y, y < b.scores_off ∨ b.scores_off + 4 * (Buffers.heads c q_per_kv * c.max_seq) ≤ y →
        m1 y = m y) ∧
      ∀ qh < Buffers.heads c q_per_kv, ∀ j < cur_pos + 1, val (fm.get m1 ((b.sm c cur_pos).s_at qh j)) =
        (scale * ∑ i ∈ Finset.range c.head_dim, q qh j i * k qh j i : K) := by
  obtain ⟨hready, hclear⟩ := hs.qkt_ready hlaid
  refine (qkt_decode_spec hready hclear regs horder).mono fun m1 _ ⟨_, hscore, hframe⟩ =>
    ⟨fun y hy => hframe y fun qh hqh j hj => ?_, fun qh hqh j hj => ?_⟩
  · have hcur := hs.cur_pos
    have hin := qkt.s_in (a := b.qkt c layer cur_pos q_per_kv) hqh
      (show j < c.max_seq by simp only [Buffers.qkt] at hj; omega)
    unfold InBuf Buffers.qkt at *
    dsimp only at hin ⊢
    omega
  · refine (congrArg val (hscore qh hqh j hj)).trans
      (exact_score hexact (fun i hi => ?_) (fun i hi => ?_) hscale)
    · exact (hq qh hqh j hj i hi).1
    · exact (hq qh hqh j hj i hi).2

/-- The second one leaves their softmax. -/
theorem softmax_of_launch (regs : Nat → Fin 32 → Regs V) {r : Nat → Nat → K}
    (hr : ∀ qh < Buffers.heads c q_per_kv, ∀ j < cur_pos + 1,
      val (fm.get m ((b.sm c cur_pos).s_at qh j)) = r qh j) :
    Ends fm (assemble source.softmax_decode) regs (num b.softmax_args) order m fun m1 _ =>
      (∀ y, y < b.scores_off ∨ b.scores_off + 4 * (Buffers.heads c q_per_kv * c.max_seq) ≤ y →
        m1 y = m y) ∧
      ∀ qh < Buffers.heads c q_per_kv, ∀ j < cur_pos + 1, val (fm.get m1 ((b.sm c cur_pos).s_at qh j)) =
        (softmax_ref exp (r qh) cur_pos j : K) := by
  obtain ⟨hready, hclear⟩ := hs.softmax_ready hlaid
  refine (softmax_decode_spec hready hclear regs horder).mono fun m1 _ ⟨_, hval, hframe⟩ =>
    ⟨fun y hy => hframe y fun qh hqh => ?_, fun qh hqh j hj => ?_⟩
  · have hcur := hs.cur_pos
    have hlast := softmax.s_in (a := b.sm c cur_pos) hqh hs.cur_pos
    unfold InBuf softmax_decode_args.S softmax_decode_args.s_at Buffers.sm at *
    dsimp only at hlast ⊢
    omega
  · have hsplit : j / 32 * 32 + (Fin.ofNat 32 j).val = j := by
      rw [Fin.val_ofNat]
      omega
    have hturn : j / 32 < kernels.turns (cur_pos + 1) (Fin.ofNat 32 j) :=
      kernels.turns_iff.mpr (by omega)
    have hget := hval qh hqh (Fin.ofNat 32 j) (j / 32) hturn
    have hout := exact_out (x := (b.sm c cur_pos).row fm m qh) hexact (hr qh hqh) hturn
    rw [hsplit] at hget hout
    rw [hget]
    exact hout

/-- The third one leaves the sums of the values with these weights. -/
theorem values_of_launch (regs : Nat → Fin 32 → Regs V) {p : Nat → Nat → K} {v : Nat → Nat → Nat → K}
    (hp : ∀ qh < Buffers.heads c q_per_kv, ∀ j < cur_pos + 1,
      val (fm.get m ((b.sm c cur_pos).s_at qh j)) = p qh j)
    (hv : ∀ qh < Buffers.heads c q_per_kv, ∀ j < cur_pos + 1, ∀ i < c.head_dim,
      val (fm.get m ((b.pv c layer cur_pos q_per_kv).v_at qh j i)) = v qh j i) :
    Ends fm (assemble source.pv_decode) regs (num b.pv_args) order m fun m1 _ =>
      (∀ y, y < b.O_off ∨ b.O_off + 4 * (Buffers.heads c q_per_kv * c.head_dim) ≤ y → m1 y = m y) ∧
      ∀ qh < Buffers.heads c q_per_kv, ∀ i < c.head_dim,
        val (fm.get m1 (b.O_off + 4 * (qh * c.head_dim + i))) =
          (∑ j ∈ Finset.range (cur_pos + 1), p qh j * v qh j i : K) := by
  obtain ⟨hready, hclear⟩ := hs.pv_ready hlaid
  have hwhole : c.head_dim / 32 * 32 = c.head_dim := Nat.div_mul_cancel hs.whole
  refine (pv_decode_spec hready hclear regs horder).mono fun m1 _ ⟨_, hout, _, hframe⟩ =>
    ⟨hframe, fun qh hqh i hi => ?_⟩
  refine (congrArg val (hout qh hqh i (Nat.lt_of_lt_of_eq hi hwhole.symm))).trans ?_
  exact exact_sum_values hexact (fun j hj => hp qh hqh j hj) fun j hj => hv qh hqh j hj i hi

end

/-- After any calls on a fresh cache the three launches write, for each head of the query, the
softmax of its scaled products with the keys that the appends brought, times their values. The
blocks of each launch may run in any order, and the registers may hold anything. -/
theorem attention_over_the_cache_is_the_reference (fm : Format V C) (cell : UInt8 → C)
    (hhosts : Hosts fm cell) {T : Nat} {ctx : context.GpgpuCtx} {c : KvCache} (hrooms : Rooms T ctx c)
    (hfilled : c.filled = 0) (hpending : c.pending = 0) (calls : List Call) (s : kv.State)
    (hrun : run kv.step ⟨ctx, c, []⟩ calls = some s) (layer cur_pos q_per_kv : Nat)
    (hs : Sizes s.cache layer cur_pos q_per_kv) (hhas : ∀ j ≤ cur_pos, s.cache.Has j layer)
    (m : Nat → C) (b : Buffers) (hlaid : Laid fm m b s.cache layer cur_pos q_per_kv)
    (hmirror : Mirrors cell s layer cur_pos m) (regs1 regs2 regs3 : Nat → Fin 32 → Regs V)
    (order1 order2 order3 : List Nat)
    (horder1 : order1.Perm (List.range (Buffers.heads s.cache q_per_kv)))
    (horder2 : order2.Perm (List.range (Buffers.heads s.cache q_per_kv)))
    (horder3 : order3.Perm (List.range (Buffers.heads s.cache q_per_kv)))
    {K : Type} [Field K] [LinearOrder K] (sqrt exp : K → K) (val : V → WithBot K)
    (hexact : Exact fm sqrt exp val) (scale : K) (hscale : val (fm.ofBits (num b.scale_bits)) = scale)
    (q : Nat → Nat → K) (hq : ∀ qh < Buffers.heads s.cache q_per_kv, ∀ i < s.cache.head_dim,
      val (fm.get m (b.Q_off + 4 * (qh * s.cache.head_dim + i))) = q qh i)
    (k v : Nat → Nat → Nat → K)
    (hrows : ∀ e ∈ s.log, e.layer = layer → ∀ h < s.cache.num_kv_heads, ∀ i < s.cache.head_dim,
      val (fm.ofBits (word e.K_new (4 * (h * s.cache.head_dim + i)))) = k e.token h i ∧
      val (fm.ofBits (word e.V_new (4 * (h * s.cache.head_dim + i)))) = v e.token h i) :
    Ends fm (assemble source.qkt_decode) regs1 (num b.qkt_args) order1 m fun m1 _ =>
    Ends fm (assemble source.softmax_decode) regs2 (num b.softmax_args) order2 m1 fun m2 _ =>
    Ends fm (assemble source.pv_decode) regs3 (num b.pv_args) order3 m2 fun m3 _ =>
      ∀ qh < Buffers.heads s.cache q_per_kv, ∀ i < s.cache.head_dim,
        val (fm.get m3 (b.O_off + 4 * (qh * s.cache.head_dim + i))) =
          (∑ j ∈ Finset.range (cur_pos + 1),
            softmax_ref exp (fun j => scale * ∑ i ∈ Finset.range s.cache.head_dim,
              q qh i * k j (qh / q_per_kv) i) cur_pos j * v j (qh / q_per_kv) i : K) := by
  obtain ⟨s', hs', hi⟩ := run_keeps (fun s call hi => hi.step call)
    (fresh_inv hrooms hfilled hpending) calls
  obtain rfl : s = s' := Option.some.inj (hrun.symm.trans hs')
  -- What the appends brought is what the kernels read.
  have hfloats : ∀ qh < Buffers.heads s.cache q_per_kv, ∀ j < cur_pos + 1, ∀ i < s.cache.head_dim,
      val (fm.get m ((b.qkt s.cache layer cur_pos q_per_kv).k_at qh j i)) = k j (qh / q_per_kv) i ∧
      val (fm.get m ((b.pv s.cache layer cur_pos q_per_kv).v_at qh j i)) = v j (qh / q_per_kv) i := by
    intro qh hqh j hj i hi'
    obtain ⟨e, he, heq⟩ := List.mem_map.mp ((hi.logged j layer).mpr (hhas j (by omega)))
    simp only [Prod.mk.injEq] at heq
    obtain ⟨rfl, hlayer⟩ := heq
    have hh : qh / q_per_kv < s.cache.num_kv_heads := (Nat.div_lt_iff_lt_mul hs.q_pos).mpr hqh
    obtain ⟨hkey, hvalue⟩ := floats_of_entry hhosts hi hmirror he hlayer (by omega) hh hi'
    obtain ⟨hk, hv⟩ := hrows e he hlayer _ hh i hi'
    exact ⟨(congrArg val hkey).trans hk, (congrArg val hvalue).trans hv⟩
  refine (scores_of_launch hexact hs hlaid horder1 regs1 (q := fun qh _ => q qh)
    (fun qh hqh j hj i hi' => ⟨hq qh hqh i hi', (hfloats qh hqh j hj i hi').1⟩) hscale).mono
    fun m1 _ ⟨hm1, hscores⟩ => ?_
  have hlaid1 := hlaid.after_scores hm1
  refine (softmax_of_launch hexact hs hlaid1 horder2 regs2 hscores).mono fun m2 _ ⟨hm2, hweights⟩ => ?_
  have hm : ∀ y, y < b.scores_off ∨
      b.scores_off + 4 * (Buffers.heads s.cache q_per_kv * s.cache.max_seq) ≤ y → m2 y = m y :=
    fun y hy => (hm2 y hy).trans (hm1 y hy)
  refine (values_of_launch hexact hs (hlaid1.after_scores hm2) horder3 regs3 hweights
    (v := fun qh j i => v j (qh / q_per_kv) i) fun qh hqh j hj i hi' => ?_).mono fun m3 _ h => h.2
  rw [← (hfloats qh hqh j hj i hi').2]
  congr 1
  obtain ⟨hready, -⟩ := hs.pv_ready hlaid
  have hcur := hs.cur_pos
  have hin := v_in hready hqh (show j < s.cache.max_seq by omega) hi'
  have hV := hlaid.ends (s.cache.V_dev_off, s.cache.bytes) (by simp [Buffers.spans])
  obtain ⟨hfirst, hlast⟩ := layer_part hs.layer hV
  refine hlaid.beside_scores hm (p := (s.cache.V_dev_off, s.cache.bytes)) (by simp) ?_
  exact ⟨hfirst.trans hin.1, hin.2.trans hlast⟩

/-- The bytes of floats that are all 1. -/
def ones (i : Nat) : UInt8 := [0, 0, 0x80, 0x3F].getD (i % 4) 0

theorem word_ones (x : Nat) : word ones (4 * x) = 0x3F800000 :=
  (word_congr (a := 0) fun i _ => by unfold ones; rw [Nat.mul_add_mod, Nat.zero_add]).trans (by decide)

/-- One layer with one head of 32 elements and two tokens. -/
def twoTokens (filled pending : Nat) : KvCache := ⟨1, 1, 2, 32, 0, 256, filled, pending⟩

def onesBuffers : Buffers := ⟨1024, 2048, 3072, 512, 544, 556, 0x3F800000⟩

/-- The arguments, and a query that is all 1. -/
def onesArgs : Mem :=
  put (put (put (put (fun _ => 0) 512 [1024, 0, 2048, 1, 2, 32, 1, 0x3F800000]) 544 [2048, 1, 2])
    556 [2048, 256, 3072, 1, 2, 32, 1]) 1024 (List.replicate 32 0x3F800000)

/-- The cache of the host in front of them. -/
def onesMem (s : kv.State) (y : Nat) : Cell ℚ :=
  .byte (if y < 512 then s.ctx.buddy.mem (s.ctx.vram_mmap + y) else onesArgs y)

theorem byteFormat_hosts : Hosts (byteFormat (K := ℚ) id fun _ => 1) Cell.byte := fun _ _ => rfl

theorem get_onesMem (s : kv.State) {x : Nat} (hx : 512 ≤ x) :
    (byteFormat (K := ℚ) id fun _ => 1).get (onesMem s) x = .bits (word onesArgs x) := by
  have hword : word (fun y => if y < 512 then s.ctx.buddy.mem (s.ctx.vram_mmap + y) else onesArgs y) x =
      word onesArgs x :=
    word_congr fun i _ => if_neg (by omega)
  rw [← hword]
  rfl

theorem args_onesMem (s : kv.State) {a : Nat} {vs : List Nat} (ha : 512 ≤ a)
    (h : Args countingFormat onesArgs a vs) :
    Args (byteFormat (K := ℚ) id fun _ => 1) (onesMem s) a vs := by
  induction vs generalizing a with
  | nil => trivial
  | cons v vs ih => exact ⟨(congrArg Val.toBits (get_onesMem s ha)).trans h.1, ih (by omega) h.2⟩

theorem step_append {s : kv.State} {layer : Nat} {K_new V_new : Nat → UInt8} {ctx : context.GpgpuCtx}
    {c : KvCache} (h : kv_cache_append_layer s.ctx s.cache layer K_new V_new = some (0, ctx, c)) :
    kv.step s (.append layer K_new V_new) =
      some ⟨ctx, c, ⟨s.cache.filled, layer, K_new, V_new⟩ :: s.log⟩ := by
  simp [kv.step, h]

theorem two_tokens_of_ones : ∃ s, run kv.step ⟨context.blankCtx, twoTokens 0 0, []⟩
      [.append 0 ones ones, .commit, .append 0 ones ones] = some s ∧
    Ends (byteFormat id fun _ => 1) (assemble source.qkt_decode) (fun _ _ => ⟨fun _ => 0, fun _ => .bits 0⟩)
      (num 512) [0] (onesMem s) fun m1 _ =>
    Ends (byteFormat id fun _ => 1) (assemble source.softmax_decode)
      (fun _ _ => ⟨fun _ => 0, fun _ => .bits 0⟩) (num 544) [0] m1 fun m2 _ =>
    Ends (byteFormat id fun _ => 1) (assemble source.pv_decode) (fun _ _ => ⟨fun _ => 0, fun _ => .bits 0⟩)
      (num 556) [0] m2 fun m3 _ =>
      ∀ i < 32, ((byteFormat id fun _ => 1).get m3 (3072 + 4 * i)).read = (1 : ℚ) := by
  have hrooms : Rooms 512 context.blankCtx (twoTokens 0 0) := by
    refine ⟨?_, ?_, ?_, ?_, ?_⟩ <;> decide
  obtain ⟨m1, hfirst, -⟩ := append_spec ones ones hrooms (by decide) (by decide)
  have hrooms1 : Rooms 512 (context.blankCtx.setMem m1) (twoTokens 1 0) := (hrooms.setMem m1).count 1 0
  obtain ⟨m2, hsecond, -⟩ := append_spec ones ones hrooms1 (by decide) (by decide)
  have hstep1 : kv.step ⟨context.blankCtx, twoTokens 0 0, []⟩ (.append 0 ones ones) =
      some ⟨context.blankCtx.setMem m1, twoTokens 0 1, [⟨0, 0, ones, ones⟩]⟩ := step_append hfirst
  have hstep2 : kv.step ⟨context.blankCtx.setMem m1, twoTokens 1 0, [⟨0, 0, ones, ones⟩]⟩
      (.append 0 ones ones) = some ⟨(context.blankCtx.setMem m1).setMem m2, twoTokens 1 1,
        [⟨1, 0, ones, ones⟩, ⟨0, 0, ones, ones⟩]⟩ := step_append hsecond
  have hrun : run kv.step ⟨context.blankCtx, twoTokens 0 0, []⟩
      [.append 0 ones ones, .commit, .append 0 ones ones] = some ⟨(context.blankCtx.setMem m1).setMem m2,
        twoTokens 1 1, [⟨1, 0, ones, ones⟩, ⟨0, 0, ones, ones⟩]⟩ := by
    have hcommit : kv.step ⟨context.blankCtx.setMem m1, twoTokens 0 1, [⟨0, 0, ones, ones⟩]⟩ .commit =
        some ⟨context.blankCtx.setMem m1, twoTokens 1 0, [⟨0, 0, ones, ones⟩]⟩ := rfl
    simp only [run, hstep1, hcommit, hstep2, Option.bind_some]
  generalize hs : (⟨(context.blankCtx.setMem m1).setMem m2, twoTokens 1 1,
    [⟨1, 0, ones, ones⟩, ⟨0, 0, ones, ones⟩]⟩ : kv.State) = s at hrun
  have hcache : s.cache = twoTokens 1 1 := by rw [← hs]
  have hlog : s.log = [⟨1, 0, ones, ones⟩, ⟨0, 0, ones, ones⟩] := by rw [← hs]
  have hsizes : Sizes s.cache 0 1 1 := by
    rw [hcache]
    refine ⟨?_, ?_, ?_, ?_, ?_, ?_⟩ <;> decide
  have hlaid : Laid (byteFormat (K := ℚ) id fun _ => 1) (onesMem s) onesBuffers s.cache 0 1 1 := by
    rw [hcache]
    refine ⟨by decide, by unfold SpansApart; decide, ?_, ?_, ?_⟩
    · exact args_onesMem s (by decide) ⟨by decide, by decide, by decide, by decide, by decide, by decide,
        by decide, by decide, trivial⟩
    · exact args_onesMem s (by decide) ⟨by decide, by decide, by decide, trivial⟩
    · exact args_onesMem s (by decide) ⟨by decide, by decide, by decide, by decide, by decide, by decide,
        by decide, trivial⟩
  have hmirror : Mirrors Cell.byte s 0 1 (onesMem s) := by
    intro h hh t ht y hy
    have hrow := row_le_bytes (c := twoTokens 1 1) (l := 0) (by decide) (hcache ▸ hh)
      (show t < 2 by omega)
    rw [hcache] at hy
    have hy : y < 512 := by
      simp only [KvCache.InRows, KvCache.InRow, show (twoTokens 1 1).bytes = 256 from rfl,
        show (twoTokens 1 1).K_dev_off = 0 from rfl, show (twoTokens 1 1).V_dev_off = 256 from rfl] at hy hrow
      omega
    unfold onesMem
    rw [if_pos hy]
  have hquery : ∀ i < 32, word onesArgs (1024 + 4 * i) = 0x3F800000 := by decide +kernel
  refine ⟨s, hrun, ?_⟩
  have h := attention_over_the_cache_is_the_reference (byteFormat (K := ℚ) id fun _ => 1) Cell.byte
    byteFormat_hosts hrooms rfl rfl _ s hrun 0 1 1 hsizes
    (by rw [hcache]; intro j hj; unfold KvCache.Has twoTokens; dsimp only; omega) (onesMem s) onesBuffers
    hlaid hmirror (fun _ _ => ⟨fun _ => 0, fun _ => .bits 0⟩) (fun _ _ => ⟨fun _ => 0, fun _ => .bits 0⟩)
    (fun _ _ => ⟨fun _ => 0, fun _ => .bits 0⟩) [0] [0] [0] (by rw [hcache]; decide)
    (by rw [hcache]; decide) (by rw [hcache]; decide) id (fun _ => 1) Val.read
    (byteFormat_exact id fun _ => 1) 1 Val.read_one (fun _ _ => 1) (fun qh hqh i hi => ?_)
    (fun _ _ _ => 1) (fun _ _ _ => 1) fun e he _ h _ i _ => ?_
  · refine h.mono fun m1 _ h => h.mono fun m2 _ h => h.mono fun m3 _ h i hi => ?_
    have hout := h 0 (by rw [hcache]; decide) i (by rw [hcache]; exact hi)
    simp only [mul_one] at hout
    rw [softmax_ref_sum (fun _ => one_pos), Nat.zero_mul, Nat.zero_add] at hout
    exact hout
  · rw [hcache] at hqh hi
    obtain rfl : qh = 0 := Nat.lt_one_iff.mp hqh
    rw [Nat.zero_mul, Nat.zero_add, get_onesMem s (Nat.le_trans (by decide) (Nat.le_add_right _ _)),
      show onesBuffers.Q_off = 1024 from rfl, hquery i hi]
    exact Val.read_one
  · rw [hlog] at he
    rcases List.mem_cons.mp he with rfl | he
    · rw [word_ones]
      exact ⟨Val.read_one, Val.read_one⟩
    · obtain rfl := List.mem_singleton.mp he
      rw [word_ones]
      exact ⟨Val.read_one, Val.read_one⟩

end gpgpu.attention
