-- Where the launches of a step read and write, with the default config: every span of a launch
-- lies in a buffer that one of its arguments names, and the results lie apart from what other
-- lanes read.
import Gpgpu.Machine
import Gpgpu.Stage

open memory words buffers

namespace gpgpu.desk

open buddy context core kernels device kv weights transformer reference

/-! ## Spans in buffers -/

/-- The span lies in buffer `b`. -/
def SpanIn (lay : Layout Buf) (b : Buf) (p : Nat × Nat) : Prop :=
  lay.off b ≤ p.1 ∧ p.1 + p.2 ≤ lay.off b + lay.size b

/-- The words of its arguments with the addresses that a kernel loads from. -/
def inputs : Kernel → List Nat
  | .rmsnorm | .broadcast_add => [0, 2]
  | .gemm | .vmul | .rope | .embedding_lookup | .qkt_decode | .pv_decode => [0, 1]
  | .silu | .softmax_decode | .argmax => [0]

/-- Such a word has an address in buffer `b`. -/
def Names (lay : Layout Buf) (k : Kernel) (args : List Nat) (b : Buf) : Prop :=
  ∃ i ∈ inputs k, lay.off b ≤ args.getD i 0 ∧ args.getD i 0 < lay.off b + lay.size b

/-- The spans of a launch have buffers that its arguments name. A result lies apart from what
the launch reads, or a lane finds there what it is to replace. -/
structure Homed (lay : Layout Buf) (k : Kernel) (args : List Nat) (grid : Nat) (rd : Nat → Word) :
    Prop where
  sized : k.Sized grid (args.getD · 0)
  own : ∀ q ∈ k.own grid (args.getD · 0), ∃ b, Names lay k args b ∧ SpanIn lay b q
  shared : ∀ q ∈ k.shared grid (args.getD · 0) rd, ∃ b, Names lay k args b ∧ SpanIn lay b q
  results : ∀ p ∈ k.results grid (args.getD · 0), ∃ b, Target lay k args b ∧ b ≠ .args k ∧ SpanIn lay b p
  own_apart : ∀ p ∈ k.results grid (args.getD · 0), ∀ q ∈ k.own grid (args.getD · 0),
    p = q ∨ SpansApart p q
  shared_apart : ∀ p ∈ k.results grid (args.getD · 0), ∀ q ∈ k.shared grid (args.getD · 0) rd,
    SpansApart p q
  results_apart : (k.results grid (args.getD · 0)).Pairwise SpansApart

section

variable {dev : Device} {ws : Workspace} {wl : WeightLoader} {c : KvCache} {lay : Layout Buf} {m0 : Mem}
  {host : Libm} {k : Kernel} {args : List Nat} {grid : Nat} {rd : Nat → Word} {b b' : Buf} {p q : Nat × Nat}
  {s : Scratch}

theorem SpanIn.apart (hp : SpanIn lay b p) (hq : SpanIn lay b' q) (hne : b ≠ b') : SpansApart p q := by
  have happ := lay.apart b b' hne
  unfold SpanIn at hp hq
  unfold SpansApart
  omega

theorem SpanIn.le (hr : Room dev ws c lay m0) (hp : SpanIn lay b p) : p.1 + p.2 ≤ 2 ^ 32 := by
  have hfits := lay.fits b
  have hsmall := hr.small
  unfold SpanIn at hp
  omega

theorem names_of_span {n : Nat} (i : Nat) (hi : i ∈ inputs k) (h : SpanIn lay b (args.getD i 0, n))
    (hn : 0 < n) : Names lay k args b := by
  unfold SpanIn at h
  exact ⟨i, hi, by omega, by omega⟩

/-- With its spans in buffers a launch fits the code of its kernel. -/
theorem Homed.fit (hr : Room dev ws c lay m0) (h : Homed lay k args grid rd) :
    k.Fit grid (args.getD · 0) rd (ws.args k) := by
  obtain ⟨hoff, hsize⟩ := hr.args k
  have harity := arity_le k
  have hargs : SpanIn lay (.args k) (ws.args k, 4 * arity k) := by
    unfold SpanIn
    omega
  refine ⟨h.sized, hargs.le hr, fun q hq => ?_, fun q hq => ?_, fun p hp => ?_, fun p hp => ?_,
    h.own_apart, h.shared_apart, h.results_apart⟩
  · obtain ⟨b, -, hspan⟩ := h.own q hq
    exact hspan.le hr
  · obtain ⟨b, -, hspan⟩ := h.shared q hq
    exact hspan.le hr
  · obtain ⟨b, -, -, hspan⟩ := h.results p hp
    exact hspan.le hr
  · obtain ⟨b, -, hne, hspan⟩ := h.results p hp
    exact hspan.apart hargs hne

/-- A launch with one result. -/
theorem homed_one {i : Nat} (hsized : k.Sized grid (args.getD · 0))
    (hres : k.results grid (args.getD · 0) = [p]) (hs : s ≠ .sincos) (hi : i ∈ outputs k)
    (hname : args.getD i 0 = lay.off (.work s)) (hp : SpanIn lay (.work s) p)
    (hown : ∀ q ∈ k.own grid (args.getD · 0), ∃ b, Names lay k args b ∧ SpanIn lay b q ∧
      (b = .work s → p = q))
    (hshared : ∀ q ∈ k.shared grid (args.getD · 0) rd, ∃ b, Names lay k args b ∧ SpanIn lay b q ∧
      b ≠ .work s) : Homed lay k args grid rd := by
  refine ⟨hsized, fun q hq => ?_, fun q hq => ?_, ?_, ?_, ?_, ?_⟩
  · obtain ⟨b, hb, hspan, -⟩ := hown q hq
    exact ⟨b, hb, hspan⟩
  · obtain ⟨b, hb, hspan, -⟩ := hshared q hq
    exact ⟨b, hb, hspan⟩
  all_goals rw [hres]
  · intro p' hp'
    rw [List.mem_singleton.mp hp']
    exact ⟨.work s, ⟨hs, i, hi, hname⟩, by simp, hp⟩
  · intro p' hp' q hq
    rw [List.mem_singleton.mp hp']
    obtain ⟨b, -, hspan, hsame⟩ := hown q hq
    by_cases hb : b = .work s
    · exact .inl (hsame hb)
    · exact .inr (hp.apart hspan (Ne.symm hb))
  · intro p' hp' q hq
    rw [List.mem_singleton.mp hp']
    obtain ⟨b, -, hspan, hne⟩ := hshared q hq
    exact hp.apart hspan hne.symm
  · exact List.pairwise_singleton _ _

/-! ## The kernels -/

section

variable {x w : Nat} {a t : Buf}

theorem homed_rmsnorm (hs : s ≠ .sincos) (hx : SpanIn lay a (x, 3584)) (ha : a ≠ .work s)
    (hw : SpanIn lay t (w, 3584)) (ht : t ≠ .work s)
    (hout : SpanIn lay (.work s) (lay.off (.work s), 3584)) (D : Nat) (inv eps : Nat) :
    Homed lay .rmsnorm [x, lay.off (.work s), w, D, inv, eps] 1 rd := by
  refine homed_one (i := 1) rfl rfl hs (by decide) rfl hout ?_ ?_
  · simp only [Kernel.own, List.forall_mem_singleton]
    exact ⟨a, names_of_span 0 (by decide) hx (by decide), hx, fun h => absurd h ha⟩
  · simp only [Kernel.shared, List.forall_mem_singleton]
    exact ⟨t, names_of_span 2 (by decide) hw (by decide), hw, ht⟩

theorem homed_gemm {K N : Nat} (hs : s ≠ .sincos) (hx : SpanIn lay a (x, 4 * K)) (ha : a ≠ .work s)
    (hw : SpanIn lay t (w, 4 * (K * N))) (ht : t ≠ .work s)
    (hout : SpanIn lay (.work s) (lay.off (.work s), 4 * N)) (hK : 0 < K) (hN : 0 < N)
    (hle : N ≤ 2 ^ 24) : Homed lay .gemm [x, w, lay.off (.work s), 1, K, N]
      (calc_dispatch (1 * N % 2 ^ 32)) rd := by
  have hprod : 0 < K * N := Nat.mul_pos hK hN
  refine homed_one (i := 2) (p := (lay.off (.work s), 4 * (1 * N))) ⟨Nat.one_pos, hN, ?_, rfl⟩ rfl hs
    (by decide) rfl (by rwa [Nat.one_mul]) (by simp [Kernel.own]) ?_
  · show 1 * N ≤ 2 ^ 24
    omega
  · simp only [Kernel.shared, List.forall_mem_cons, List.getD_cons_zero, List.getD_cons_succ, Nat.one_mul]
    exact ⟨⟨a, names_of_span 0 (by decide) hx (by omega), hx, ha⟩,
      ⟨t, names_of_span 1 (by decide) hw (by omega), hw, ht⟩, by simp⟩

theorem homed_add {N : Nat} (hs : s ≠ .sincos) (hx : SpanIn lay a (x, 4 * N))
    (ha : a = .work s → x = lay.off (.work s)) (hw : SpanIn lay t (w, 4 * N)) (ht : t ≠ .work s)
    (hout : SpanIn lay (.work s) (lay.off (.work s), 4 * N)) (hN : 0 < N) (hle : N ≤ 2 ^ 24) :
    Homed lay .broadcast_add [x, lay.off (.work s), w, 1, N] (calc_dispatch (1 * N % 2 ^ 32)) rd := by
  refine homed_one (i := 1) (p := (lay.off (.work s), 4 * (1 * N))) ⟨Nat.one_pos, hN, ?_, rfl⟩ rfl hs
    (by decide) rfl (by rwa [Nat.one_mul]) ?_ ?_
  · show 1 * N ≤ 2 ^ 24
    omega
  · simp only [Kernel.own, List.forall_mem_singleton, List.getD_cons_zero, List.getD_cons_succ,
      Nat.one_mul]
    exact ⟨a, names_of_span 0 (by decide) hx (by omega), hx, fun h => by rw [ha h]⟩
  · simp only [Kernel.shared, List.forall_mem_singleton, List.getD_cons_zero, List.getD_cons_succ]
    exact ⟨t, names_of_span 2 (by decide) hw (by omega), hw, ht⟩

theorem homed_silu {D : Nat} (hs : s ≠ .sincos)
    (hout : SpanIn lay (.work s) (lay.off (.work s), 4 * D)) (hD : 0 < D) (hle : D ≤ 2 ^ 24) :
    Homed lay .silu [lay.off (.work s), lay.off (.work s), D] (calc_dispatch D) rd := by
  refine homed_one (i := 1) ⟨hle, rfl⟩ rfl hs (by decide) rfl hout ?_ (by simp [Kernel.shared])
  simp only [Kernel.own, List.forall_mem_singleton]
  exact ⟨_, names_of_span 0 (by decide) hout (by omega), hout, fun _ => rfl⟩

theorem homed_vmul {n : Nat} (hs : s ≠ .sincos) (hx : SpanIn lay a (x, 4 * n)) (ha : a ≠ .work s)
    (hout : SpanIn lay (.work s) (lay.off (.work s), 4 * n)) (hn : 0 < n) (hmod : n % 32 = 0) :
    Homed lay .vmul [lay.off (.work s), x, lay.off (.work s), n] 1 rd := by
  refine homed_one (i := 2) ⟨hmod, rfl⟩ rfl hs (by decide) rfl hout ?_ (by simp [Kernel.shared])
  simp only [Kernel.own, List.forall_mem_cons, List.getD_cons_zero, List.getD_cons_succ]
  exact ⟨⟨_, names_of_span 0 (by decide) hout (by omega), hout, fun _ => trivial⟩,
    ⟨a, names_of_span 1 (by decide) hx (by omega), hx, fun h => absurd h ha⟩, by simp⟩

theorem homed_rope {heads pos : Nat} (hs : s ≠ .sincos)
    (hout : SpanIn lay (.work s) (lay.off (.work s), 4 * (heads * 64))) (hheads : 0 < heads)
    (hx : SpanIn lay a (x, 4 * ((pos + 1) * 64))) (ha : a ≠ .work s) :
    Homed lay .rope [lay.off (.work s), x, heads, 64, pos] 1 rd := by
  refine homed_one (i := 0) ⟨hheads, rfl, rfl⟩ rfl hs (by decide) rfl hout ?_ ?_
  · simp only [Kernel.own, List.forall_mem_singleton]
    exact ⟨_, names_of_span 0 (by decide) hout (by omega), hout, fun _ => trivial⟩
  · simp only [Kernel.shared, List.forall_mem_singleton, List.getD_cons_zero, List.getD_cons_succ]
    exact ⟨a, names_of_span 1 (by decide) hx (by omega), hx, ha⟩

theorem homed_embedding {y D n : Nat} (hs : s ≠ .sincos) (hD : D = 32 * n) (hn : 0 < n)
    (hy : SpanIn lay a (y, 4)) (ha : a ≠ .work s)
    (hx : SpanIn lay t (x, 4 * D)) (hrow : SpanIn lay t (x + 4 * ((rd y).toNat * D), 4 * D))
    (ht : t ≠ .work s) (hout : SpanIn lay (.work s) (lay.off (.work s), 4 * D)) :
    Homed lay .embedding_lookup [x, y, lay.off (.work s), D, n] 1 rd := by
  have hle : 32 ≤ D := by omega
  refine homed_one (i := 2) ⟨hD, hle, rfl⟩ rfl hs (by decide) rfl hout (by simp [Kernel.own]) ?_
  simp only [Kernel.shared, List.forall_mem_cons, List.getD_cons_zero, List.getD_cons_succ]
  exact ⟨⟨a, names_of_span 1 (by decide) hy (by decide), hy, ha⟩,
    ⟨t, names_of_span 0 (by decide) hx (by omega), hrow, ht⟩, by simp⟩

theorem homed_argmax {V : Nat} (hV : 0 < V) (hx : SpanIn lay (.work .LOGITS) (x, 4 * V))
    (htok : SpanIn lay (.work .token_id_buf) (lay.off (.work .token_id_buf), 4))
    (hdebug : SpanIn lay (.work .argmax_debug) (lay.off (.work .argmax_debug), 1024)) :
    Homed lay .argmax [x, V, lay.off (.work .token_id_buf), lay.off (.work .argmax_debug)] 1 rd := by
  refine ⟨⟨hV, rfl⟩, by simp [Kernel.own], ?_, ?_, by simp [Kernel.own], ?_, ?_⟩
  · simp only [Kernel.shared, List.forall_mem_singleton]
    exact ⟨_, names_of_span 0 (by decide) hx (by omega), hx⟩
  · simp only [Kernel.results, List.forall_mem_cons]
    have htarget : Scratch.token_id_buf ≠ .sincos ∧ Scratch.argmax_debug ≠ .sincos := by decide
    exact ⟨⟨.work .token_id_buf, ⟨htarget.1, 2, by decide, rfl⟩, by simp, htok⟩,
      ⟨.work .argmax_debug, ⟨htarget.2, 3, by decide, rfl⟩, by simp, hdebug⟩, by simp⟩
  · simp only [Kernel.results, Kernel.shared, List.forall_mem_cons]
    exact ⟨⟨htok.apart hx (by simp), by simp⟩, ⟨hdebug.apart hx (by simp), by simp⟩, by simp⟩
  · simp only [Kernel.results, List.pairwise_cons, List.forall_mem_singleton, List.Pairwise.nil]
    exact ⟨htok.apart hdebug (by simp), by simp⟩

theorem homed_qkt {pos max_seq head_dim per scale : Nat} (hs : s ≠ .sincos) (hpos : pos < max_seq)
    (hhead : 0 < head_dim) (hper : 0 < per) (hper' : per < 2 ^ 31) (hgrid : 0 < grid)
    (hblocks : grid ≤ 2 ^ 19) (hx : SpanIn lay a (x, 4 * (grid * head_dim))) (ha : a ≠ .work s)
    (hw : SpanIn lay t (w, 4 * (kv_heads grid per * (max_seq * head_dim)))) (ht : t ≠ .work s)
    (hout : SpanIn lay (.work s) (lay.off (.work s), 4 * (grid * max_seq))) :
    Homed lay .qkt_decode [x, w, lay.off (.work s), pos, max_seq, head_dim, per, scale] grid rd := by
  have hsize : 0 < grid * head_dim := Nat.mul_pos hgrid hhead
  have hheads : 0 < kv_heads grid per := Nat.div_pos (by omega) hper
  have hcache : 0 < kv_heads grid per * (max_seq * head_dim) :=
    Nat.mul_pos hheads (Nat.mul_pos (by omega) hhead)
  refine homed_one (i := 2) ⟨hpos, hper, hper', hblocks⟩ rfl hs (by decide) rfl hout
    (by simp [Kernel.own]) ?_
  simp only [Kernel.shared, List.forall_mem_cons, List.getD_cons_zero, List.getD_cons_succ]
  exact ⟨⟨a, names_of_span 0 (by decide) hx (by omega), hx, ha⟩,
    ⟨t, names_of_span 1 (by decide) hw (by omega), hw, ht⟩, by simp⟩

theorem homed_softmax {pos max_seq : Nat} (hs : s ≠ .sincos) (hpos : pos < max_seq) (hgrid : 0 < grid)
    (hblocks : grid ≤ 2 ^ 19) (hout : SpanIn lay (.work s) (lay.off (.work s), 4 * (grid * max_seq))) :
    Homed lay .softmax_decode [lay.off (.work s), pos, max_seq] grid rd := by
  have hsize : 0 < grid * max_seq := Nat.mul_pos hgrid (by omega)
  refine homed_one (i := 0) ⟨hpos, hblocks⟩ rfl hs (by decide) rfl hout ?_ (by simp [Kernel.shared])
  simp only [Kernel.own, List.forall_mem_singleton]
  exact ⟨_, names_of_span 0 (by decide) hout (by omega), hout, fun _ => trivial⟩

theorem homed_pv {pos max_seq head_dim per : Nat} (hs : s ≠ .sincos) (hpos : pos < max_seq)
    (hhead : 0 < head_dim) (hper : 0 < per) (hper' : per < 2 ^ 31) (hgrid : 0 < grid)
    (hblocks : grid ≤ 2 ^ 19) (hx : SpanIn lay a (x, 4 * (grid * max_seq))) (ha : a ≠ .work s)
    (hw : SpanIn lay t (w, 4 * (kv_heads grid per * (max_seq * head_dim)))) (ht : t ≠ .work s)
    (hout : SpanIn lay (.work s) (lay.off (.work s), 4 * (grid * head_dim))) :
    Homed lay .pv_decode [x, w, lay.off (.work s), pos, max_seq, head_dim, per] grid rd := by
  have hsize : 0 < grid * max_seq := Nat.mul_pos hgrid (by omega)
  have hheads : 0 < kv_heads grid per := Nat.div_pos (by omega) hper
  have hcache : 0 < kv_heads grid per * (max_seq * head_dim) :=
    Nat.mul_pos hheads (Nat.mul_pos (by omega) hhead)
  refine homed_one (i := 2) ⟨hpos, hper, hper', hblocks⟩ rfl hs (by decide) rfl hout
    (by simp [Kernel.own]) ?_
  simp only [Kernel.shared, List.forall_mem_cons, List.getD_cons_zero, List.getD_cons_succ]
  exact ⟨⟨a, names_of_span 0 (by decide) hx (by omega), hx, ha⟩,
    ⟨t, names_of_span 1 (by decide) hw (by omega), hw, ht⟩, by simp⟩

end

/-! ## The operations of a step -/

/-- The launch of an operation has its spans in buffers, whatever the memory holds. -/
def HomedOp (lay : Layout Buf) : Op → Prop
  | .launch k args grid => ∀ rd, Homed lay k args grid rd
  | _ => True

variable {M : Model} {ctx : GpgpuCtx} {pos l : Nat}

/-- The start of a buffer of the workspace. -/
theorem Stage.work_span (h : Stage dev host ws wl c ctx lay M) (s : Scratch) {n : Nat}
    (hn : n ≤ workBytes s) : SpanIn lay (.work s) (lay.off (.work s), n) := by
  have hsize := (h.loaded.work s).2
  exact ⟨Nat.le_refl _, by dsimp only; omega⟩

theorem span_of_rom {x n : Nat} {v : List Word} (h : Rom lay m0 x n v) :
    ∃ r, SpanIn lay (.region r) (x, 4 * n) := by
  obtain ⟨r, i, rfl, hi, -⟩ := h
  exact ⟨r, Nat.le_add_right _ _, by dsimp only; omega⟩

theorem Stage.tensor_span (h : Stage dev host ws wl c ctx lay M) (hl : l < WL_NUM_LAYERS) (t : Tensor) :
    ∃ r, SpanIn lay (.region r) (tensor_addr wl l t, 4 * (TENSOR_TABLE t).n_floats) := by
  obtain ⟨x, hx, hrom⟩ := h.loaded.tensor l hl t
  rw [weight_loader_layer, if_pos hl] at hx
  cases hx
  exact span_of_rom hrom

/-- A layer of the cache, for both of its heads. -/
theorem Stage.layer_span (h : Stage dev host ws wl c ctx lay M) (hl : l < WL_NUM_LAYERS) :
    SpanIn lay .keys (layer_off c c.K_dev_off l, 65536) ∧
      SpanIn lay .vals (layer_off c c.V_dev_off l, 65536) := by
  have hsmall := h.room.small
  have hkeys := lay.fits .keys
  have hvals := lay.fits .vals
  have hK := h.room.keys
  have hV := h.room.vals
  obtain ⟨hKsize, hVsize⟩ := h.cache
  have hlayers : c.num_layers = WL_NUM_LAYERS := by
    rw [h.fresh]
    rfl
  have hbytes : c.bytes = CACHE_BYTES := by
    rw [h.fresh]
    exact default_bytes ..
  have hrow : l * c.num_kv_heads * c.max_seq * c.width = l * 65536 := by
    rw [h.fresh]
    show l * 2 * 128 * 256 = l * 65536
    omega
  rw [layer_off_in (by omega) (by omega), layer_off_in (by omega) (by omega), hrow]
  unfold WL_NUM_LAYERS at hl
  unfold CACHE_BYTES at hbytes
  unfold SpanIn
  omega

theorem Stage.qkv_homed (h : Stage dev host ws wl c ctx lay M) (hl : l < WL_NUM_LAYERS)
    (hpos : pos < 128) : ∀ o ∈ qkv_ops host ws wl l pos, HomedOp lay o := by
  have hoff : ∀ s, ws.off s = lay.off (.work s) := fun s => (h.loaded.work s).1.symm
  have hcfg := h.loaded.cfg
  have htensor := h.tensor_span hl
  have hsincos : 4 * ((pos + 1) * 64) ≤ workBytes .sincos := by
    show _ ≤ 32768
    omega
  unfold qkv_ops rmsnorm_op gemm_op add_op rope_op kv_dim
  simp only [List.forall_mem_cons, hcfg, hoff]
  refine ⟨fun rd => ?_, fun rd => ?_, fun rd => ?_, fun rd => ?_, fun rd => ?_, fun rd => ?_,
    fun rd => ?_, fun rd => ?_, fun rd => ?_, by simp⟩
  · obtain ⟨r, hw⟩ := htensor .input_norm
    exact homed_rmsnorm (by decide) (h.work_span .RESID_A (by decide)) (by simp) hw (by simp)
      (h.work_span _ (by decide)) _ _ _
  · obtain ⟨r, hw⟩ := htensor .q_proj_w
    exact homed_gemm (by decide) (h.work_span .SCRATCH_X (by decide)) (by simp) hw (by simp)
      (h.work_span _ (by decide)) (by decide) (by decide) (by decide)
  · obtain ⟨r, hw⟩ := htensor .q_proj_b
    exact homed_add (by decide) (h.work_span .SCRATCH_Q (by decide)) (fun _ => rfl) hw (by simp)
      (h.work_span _ (by decide)) (by decide) (by decide)
  · obtain ⟨r, hw⟩ := htensor .k_proj_w
    exact homed_gemm (by decide) (h.work_span .SCRATCH_X (by decide)) (by simp) hw (by simp)
      (h.work_span _ (by decide)) (by decide) (by decide) (by decide)
  · obtain ⟨r, hw⟩ := htensor .k_proj_b
    exact homed_add (by decide) (h.work_span .SCRATCH_K (by decide)) (fun _ => rfl) hw (by simp)
      (h.work_span _ (by decide)) (by decide) (by decide)
  · obtain ⟨r, hw⟩ := htensor .v_proj_w
    exact homed_gemm (by decide) (h.work_span .SCRATCH_X (by decide)) (by simp) hw (by simp)
      (h.work_span _ (by decide)) (by decide) (by decide) (by decide)
  · obtain ⟨r, hw⟩ := htensor .v_proj_b
    exact homed_add (by decide) (h.work_span .SCRATCH_V (by decide)) (fun _ => rfl) hw (by simp)
      (h.work_span _ (by decide)) (by decide) (by decide)
  · exact homed_rope (by decide) (h.work_span _ (by decide)) (by decide)
      (h.work_span .sincos hsincos) (by simp)
  · exact homed_rope (by decide) (h.work_span _ (by decide)) (by decide)
      (h.work_span .sincos hsincos) (by simp)

theorem Stage.attention_homed (h : Stage dev host ws wl c ctx lay M) (hl : l < WL_NUM_LAYERS)
    (hpos : pos < 128) : ∀ o ∈ attention_ops host ws c l pos, HomedOp lay o := by
  have hoff : ∀ s, ws.off s = lay.off (.work s) := fun s => (h.loaded.work s).1.symm
  have hcfg := h.loaded.cfg
  obtain ⟨hK, hV⟩ := h.layer_span hl
  unfold attention_ops q_per_kv
  simp only [List.forall_mem_cons, hcfg, hoff]
  refine ⟨fun rd => ?_, fun rd => ?_, fun rd => ?_, by simp⟩
  · exact homed_qkt (by decide) hpos (by decide) (by decide) (by decide) (by decide) (by decide)
      (h.work_span .SCRATCH_Q (by decide)) (by simp) hK (by simp) (h.work_span _ (by decide))
  · exact homed_softmax (by decide) hpos (by decide) (by decide) (h.work_span _ (by decide))
  · exact homed_pv (by decide) hpos (by decide) (by decide) (by decide) (by decide) (by decide)
      (h.work_span .SCRATCH_SCORES (by decide)) (by simp) hV (by simp) (h.work_span _ (by decide))

theorem Stage.ffn_homed (h : Stage dev host ws wl c ctx lay M) (hl : l < WL_NUM_LAYERS) :
    ∀ o ∈ ffn_ops host ws wl l, HomedOp lay o := by
  have hoff : ∀ s, ws.off s = lay.off (.work s) := fun s => (h.loaded.work s).1.symm
  have hcfg := h.loaded.cfg
  have htensor := h.tensor_span hl
  unfold ffn_ops rmsnorm_op gemm_op add_op
  simp only [List.forall_mem_cons, hcfg, hoff]
  refine ⟨fun rd => ?_, fun rd => ?_, fun rd => ?_, fun rd => ?_, fun rd => ?_, fun rd => ?_,
    fun rd => ?_, fun rd => ?_, fun rd => ?_, by simp⟩
  · obtain ⟨r, hw⟩ := htensor .o_proj_w
    exact homed_gemm (by decide) (h.work_span .SCRATCH_X (by decide)) (by simp) hw (by simp)
      (h.work_span _ (by decide)) (by decide) (by decide) (by decide)
  · exact homed_add (by decide) (h.work_span .RESID_A (by decide)) (by simp)
      (h.work_span .SCRATCH_Q (by decide)) (by simp) (h.work_span _ (by decide)) (by decide) (by decide)
  · obtain ⟨r, hw⟩ := htensor .post_norm
    exact homed_rmsnorm (by decide) (h.work_span .RESID_B (by decide)) (by simp) hw (by simp)
      (h.work_span _ (by decide)) _ _ _
  · obtain ⟨r, hw⟩ := htensor .gate_proj_w
    exact homed_gemm (by decide) (h.work_span .SCRATCH_X (by decide)) (by simp) hw (by simp)
      (h.work_span _ (by decide)) (by decide) (by decide) (by decide)
  · obtain ⟨r, hw⟩ := htensor .up_proj_w
    exact homed_gemm (by decide) (h.work_span .SCRATCH_X (by decide)) (by simp) hw (by simp)
      (h.work_span _ (by decide)) (by decide) (by decide) (by decide)
  · exact homed_silu (by decide) (h.work_span _ (by decide)) (by decide) (by decide)
  · exact homed_vmul (by decide) (h.work_span .SCRATCH_FFN_B (by decide)) (by simp)
      (h.work_span _ (by decide)) (by decide) (by decide)
  · obtain ⟨r, hw⟩ := htensor .down_proj_w
    exact homed_gemm (by decide) (h.work_span .SCRATCH_FFN_A (by decide)) (by simp) hw (by simp)
      (h.work_span _ (by decide)) (by decide) (by decide) (by decide)
  · exact homed_add (by decide) (h.work_span .RESID_B (by decide)) (by simp)
      (h.work_span .SCRATCH_X (by decide)) (by simp) (h.work_span _ (by decide)) (by decide) (by decide)

theorem Stage.last_homed (h : Stage dev host ws wl c ctx lay M) :
    ∀ o ∈ last_ops host ws wl, HomedOp lay o := by
  have hoff : ∀ s, ws.off s = lay.off (.work s) := fun s => (h.loaded.work s).1.symm
  have hcfg := h.loaded.cfg
  unfold last_ops rmsnorm_op gemm_op
  simp only [List.forall_mem_cons, hcfg, hoff]
  refine ⟨fun rd => ?_, fun rd => ?_, fun rd => ?_, trivial, by simp⟩
  · obtain ⟨r, hw⟩ := span_of_rom h.loaded.final_norm
    exact homed_rmsnorm (by decide) (h.work_span .RESID_A (by decide)) (by simp) hw (by simp)
      (h.work_span _ (by decide)) _ _ _
  · obtain ⟨r, hw⟩ := span_of_rom h.loaded.lm_head
    exact homed_gemm (by decide) (h.work_span .SCRATCH_X (by decide)) (by simp) hw (by simp)
      (h.work_span _ (by decide)) (by decide) (by decide) (by decide)
  · exact homed_argmax (by decide) (h.work_span _ (by decide)) (h.work_span _ (by decide))
      (h.work_span _ (by decide))

/-- All operations after the two first ones. -/
def later_ops (host : Libm) (ws : Workspace) (wl : WeightLoader) (c : KvCache) (pos : Nat) : List Op :=
  (List.range ws.cfg.num_layers).flatMap (layer_ops host ws wl c pos) ++ last_ops host ws wl

theorem Stage.later_homed (h : Stage dev host ws wl c ctx lay M) (hpos : pos < 128) :
    ∀ o ∈ later_ops host ws wl c pos, HomedOp lay o := by
  unfold later_ops
  simp only [List.forall_mem_append, List.mem_flatMap, List.mem_range]
  refine ⟨?_, h.last_homed⟩
  rintro o ⟨l, hl, ho⟩
  rw [h.loaded.cfg] at hl
  rw [layer_ops_eq] at ho
  simp only [List.mem_append, List.mem_cons] at ho
  rcases ho with ho | rfl | ho | ho
  · exact h.qkv_homed hl hpos o ho
  · trivial
  · exact h.attention_homed hl hpos o ho
  · exact h.ffn_homed hl o ho

/-- The embedding of a token that the vocabulary has. -/
theorem Stage.embedding_homed (h : Stage dev host ws wl c ctx lay M)
    (htok : (rd (ws.off .token_id_buf)).toNat < 151936) :
    Homed lay .embedding_lookup [weight_loader_embedding wl, ws.off .token_id_buf, ws.off .RESID_A,
      ws.cfg.D, ws.cfg.D / 32] 1 rd := by
  have hoff : ∀ s, ws.off s = lay.off (.work s) := fun s => (h.loaded.work s).1.symm
  rw [hoff] at htok
  rw [hoff, hoff, h.loaded.cfg]
  obtain ⟨r, hw⟩ := span_of_rom h.loaded.embedding
  obtain ⟨h1, h2⟩ : lay.off (.region r) ≤ wl.embedding_addr ∧
    wl.embedding_addr + 4 * (151936 * 896) ≤ lay.off (.region r) + lay.size (.region r) := hw
  have hfirst : SpanIn lay (.region r) (wl.embedding_addr, 4 * 896) := ⟨h1, by dsimp only; omega⟩
  have hrow : SpanIn lay (.region r)
      (wl.embedding_addr + 4 * ((rd (lay.off (.work .token_id_buf))).toNat * 896), 4 * 896) :=
    ⟨by dsimp only; omega, by dsimp only; omega⟩
  exact homed_embedding (by decide) rfl (by decide) (h.work_span _ (by decide)) (by simp) hfirst hrow
    (by simp) (h.work_span _ (by decide))

end

end gpgpu.desk
