-- The operations of a decode step, as changes of the desk. Each one reads vectors that
-- the desk or the weights have, and leaves one vector.
import Gpgpu.Desk

open memory words buffers

namespace gpgpu.desk

open buddy context kernels device kv weights transformer reference

variable {env : Env} {ws : Workspace} {wl : WeightLoader} {lay : Layout Buf} {M : Model} {m0 m : Mem}
  {st : Run} {d d' d'' : Desk} {s : Scratch}

/-! ## Actions one after the other -/

/-- An action that goes well on every state that shows `d`, and leaves one that shows
`d'`. -/
def Does (lay : Layout Buf) (m0 : Mem) (a : Action) (d d' : Desk) : Prop :=
  ∀ st, At lay m0 st d → ∃ st', a st = some (TRANSFORMER_OK, st') ∧ At lay m0 st' d'

theorem does_nil : Does lay m0 (seq []) d d := fun st h => ⟨st, rfl, h⟩

theorem Does.cons {a : Action} {as : List Action} (h1 : Does lay m0 a d d')
    (h2 : Does lay m0 (seq as) d' d'') : Does lay m0 (seq (a :: as)) d d'' := by
  intro st h
  obtain ⟨st1, hcode1, hat1⟩ := h1 st h
  obtain ⟨st2, hcode2, hat2⟩ := h2 st1 hat1
  refine ⟨st2, ?_, hat2⟩
  rw [seq, hcode1]
  exact hcode2

theorem Does.append {as bs : List Action} (h1 : Does lay m0 (seq as) d d')
    (h2 : Does lay m0 (seq bs) d' d'') : Does lay m0 (seq (as ++ bs)) d d'' := by
  intro st h
  obtain ⟨st1, hcode1, hat1⟩ := h1 st h
  obtain ⟨st2, hcode2, hat2⟩ := h2 st1 hat1
  refine ⟨st2, ?_, hat2⟩
  rw [← hcode2]
  clear h1 h2 hat1 hat2 h hcode2
  induction as generalizing st with
  | nil =>
    cases hcode1
    rfl
  | cons a as ih =>
    rw [seq] at hcode1
    obtain ⟨⟨rc, st'⟩, ha, hrest⟩ := Option.bind_eq_some_iff.mp hcode1
    by_cases hrc : rc ≠ TRANSFORMER_OK
    · simp only [if_pos hrc] at hrest
      cases hrest
      exact absurd rfl hrc
    · simp only [if_neg hrc] at hrest
      rw [List.cons_append, seq, ha]
      simp only [Option.bind_some, if_neg hrc]
      exact ih st' hrest

/-! ## Vectors that an operation finds -/

/-- At offset `x` the device finds the vector `v` of `n` words. -/
def Finds (lay : Layout Buf) (m0 : Mem) (d : Desk) (x n : Nat) (v : List Word) : Prop :=
  x < 2 ^ 32 ∧ ∀ m, Shows lay m0 m d → vec (rd32 lay.base m) x n = v

theorem Loaded.finds_work (hl : Loaded env ws wl lay M m0) (hplain : Plain s) {n : Nat}
    (hn : n = workBytes s / 4) : Finds lay m0 d (ws.off s) n (d.vec s) :=
  ⟨hl.work_lt s, fun _ hs => hs.vec_eq hl.toPlaced hplain hn⟩

theorem Loaded.finds_rom (hl : Loaded env ws wl lay M m0) {x n : Nat} {v : List Word}
    (hrom : Rom lay m0 x n v) (hn : 0 < n) : Finds lay m0 d x n v := by
  refine ⟨?_, fun _ hs => hs.rom_eq hl.toPlaced hrom⟩
  obtain ⟨r, i, hx, hi, -⟩ := hrom
  have hfits := lay.fits (.region r)
  have hsmall := hl.small
  omega

/-! ## Operations with one vector as their result -/

/-- The words of its arguments that a kernel reads. -/
def arity : Kernel → Nat
  | .rmsnorm | .gemm => 6
  | .broadcast_add | .rope | .embedding_lookup => 5
  | .vmul | .argmax => 4
  | .silu | .softmax_decode => 3
  | .qkt_decode => 8
  | .pv_decode => 7

theorem stores_congr {k : Kernel} {arg arg' : Nat → Nat} (h : ∀ i < arity k, arg i = arg' i)
    (fpu : Fpu) (grid : Nat) (rd : Nat → Word) :
    k.stores fpu grid arg rd = k.stores fpu grid arg' rd := by
  cases k <;> simp [arity] at h <;> simp [Kernel.stores, h]

/-- An operation does what its stores do to the desk. -/
theorem Loaded.does_op (hl : Loaded env ws wl lay M m0) {k : Kernel} {args : List Nat} {grid : Nat}
    (hlen : args.length = arity k) (hargs : ∀ x ∈ args, x < 2 ^ 32)
    (hkv : d'.filled = d.filled ∧ d'.pending = d.pending ∧ d'.keys = d.keys ∧ d'.vals = d.vals)
    (hstores : ∀ m, Shows lay m0 m d → Shows lay m0 (store_all lay.base m
      (k.stores env.dev.fpu grid (args.getD · 0) (rd32 lay.base m))) d') :
    Does lay m0 (op env ws k args grid) d d' := by
  intro st h
  have harity : arity k ≤ 8 := by cases k <;> decide
  obtain ⟨m, arg, hs, harg, hcode⟩ := op_spec hl h k grid (by omega) hargs
  rw [hlen] at harg
  rw [stores_congr harg] at hcode
  exact ⟨_, hcode, h.launched (hstores m hs) hkv⟩

/-- A store of a whole buffer. -/
theorem Shows.store (hl : Loaded env ws wl lay M m0) (hs : Shows lay m0 m d) (hplain : Plain s)
    {v : List Word} (hv : 4 * v.length = workBytes s) :
    Shows lay m0 (store_all lay.base m [(ws.off s, v)]) (d.set s v) := by
  obtain ⟨hoff, hsize⟩ := hl.work s
  have hlt := hl.work_lt s
  have hput : store_all lay.base m [(ws.off s, v)] =
      put m (lay.base + lay.off (.work s) + 0) v := by
    simp only [store_all, List.foldl_cons, List.foldl_nil]
    rw [Nat.mod_eq_of_lt hlt, hoff, Nat.add_zero]
  rw [hput]
  apply hs.set hl.toPlaced hplain
  · exact Layout.changes_put (by omega)
  · rw [show workBytes s / 4 = v.length by omega]
    exact Layout.read_put ..

/-- The blocks of a dispatch have a thread for every element. -/
theorem le_dispatch {n : Nat} (hn : n < 2 ^ 31) : n ≤ calc_dispatch (1 * n % 2 ^ 32) * LANES := by
  unfold calc_dispatch LANES
  omega

theorem Loaded.does_rmsnorm (hl : Loaded env ws wl lay M m0) {a c : Scratch} {w : Nat}
    {x weight : List Word} (hx : Finds lay m0 d (ws.off a) 896 x)
    (hw : Finds lay m0 d w 896 weight) (hplain : Plain c) (hc : workBytes c = 3584) :
    Does lay m0 (op_rmsnorm env ws (ws.off a) (ws.off c) w) d
      (d.set c (normed env.dev.fpu M weight x)) := by
  have hcfg := hl.cfg
  apply hl.does_op
  · rfl
  · intro y hy
    simp only [List.mem_cons, List.not_mem_nil, or_false] at hy
    rcases hy with rfl | rfl | rfl | rfl | rfl | rfl
    · exact hx.1
    · exact hl.work_lt c
    · exact hw.1
    · rw [hcfg]
      decide
    · exact UInt32.toNat_lt _
    · exact UInt32.toNat_lt _
  · exact ⟨rfl, rfl, rfl, rfl⟩
  · intro m hs
    simp only [Kernel.stores, List.getD_cons_zero, List.getD_cons_succ]
    rw [show LANES * PER_LANE = 896 from rfl, hx.2 m hs, hw.2 m hs, UInt32.ofNat_toNat,
      UInt32.ofNat_toNat, hcfg]
    have hvec : rmsnorm env.dev.fpu (env.host.div ONE (env.host.ofNat transformer_default_config.D))
        transformer_default_config.rms_norm_eps x weight = normed env.dev.fpu M weight x := by
      unfold normed
      rw [hl.inv_d, hl.eps]
      rfl
    rw [hvec]
    apply hs.store hl hplain
    rw [hc]
    simp [normed, rmsnorm, LANES, PER_LANE]

theorem Loaded.does_gemm (hl : Loaded env ws wl lay M m0) {a c : Scratch} {w K N : Nat}
    {x weight : List Word} (hx : Finds lay m0 d (ws.off a) K x)
    (hw : Finds lay m0 d w (K * N) weight) (hplain : Plain c) (hc : workBytes c = 4 * N)
    (hK : K < 2 ^ 31) (hN : N < 2 ^ 31) :
    Does lay m0 (op_gemm env ws (ws.off a) w (ws.off c) 1 K N) d
      (d.set c (times env.dev.fpu K N x weight)) := by
  apply hl.does_op
  · rfl
  · intro y hy
    simp only [List.mem_cons, List.not_mem_nil, or_false] at hy
    rcases hy with rfl | rfl | rfl | rfl | rfl | rfl
    · exact hx.1
    · exact hw.1
    · exact hl.work_lt c
    · decide
    · omega
    · omega
  · exact ⟨rfl, rfl, rfl, rfl⟩
  · intro m hs
    have hlen : (times env.dev.fpu K N x weight).length = N := by simp [times, gemm]
    simp only [Kernel.stores, List.getD_cons_zero, List.getD_cons_succ]
    rw [Nat.one_mul K, hx.2 m hs, hw.2 m hs, ← times,
      List.take_of_length_le (by rw [hlen]; exact le_dispatch hN)]
    exact hs.store hl hplain (by rw [hlen, hc])

theorem Loaded.does_add (hl : Loaded env ws wl lay M m0) {a c : Scratch} {b N : Nat} {x y : List Word}
    (hx : Finds lay m0 d (ws.off a) N x) (hy : Finds lay m0 d b N y) (hplain : Plain c)
    (hc : workBytes c = 4 * N) (hN : N < 2 ^ 31) :
    Does lay m0 (op_broadcast_add env ws (ws.off a) b (ws.off c) 1 N) d
      (d.set c (plus env.dev.fpu N x y)) := by
  apply hl.does_op
  · rfl
  · intro z hz
    simp only [List.mem_cons, List.not_mem_nil, or_false] at hz
    rcases hz with rfl | rfl | rfl | rfl | rfl
    · exact hx.1
    · exact hl.work_lt c
    · exact hy.1
    · decide
    · omega
  · exact ⟨rfl, rfl, rfl, rfl⟩
  · intro m hs
    have hlen : (plus env.dev.fpu N x y).length = N := by simp [plus, broadcast_add]
    simp only [Kernel.stores, List.getD_cons_zero, List.getD_cons_succ]
    rw [Nat.one_mul N, hx.2 m hs, hy.2 m hs]
    have hvec : broadcast_add env.dev.fpu 1 N x y = plus env.dev.fpu N x y := rfl
    rw [hvec, List.take_of_length_le (by
      rw [hlen]
      have := le_dispatch hN
      rwa [Nat.one_mul] at this)]
    exact hs.store hl hplain (by rw [hlen, hc])

theorem Loaded.does_silu (hl : Loaded env ws wl lay M m0) {a : Scratch} {D : Nat} {x : List Word}
    (hx : Finds lay m0 d (ws.off a) D x) (hplain : Plain a) (ha : workBytes a = 4 * D)
    (hD : D < 2 ^ 31) :
    Does lay m0 (op_silu env ws (ws.off a) (ws.off a) D) d (d.set a (silu env.dev.fpu D x)) := by
  apply hl.does_op
  · rfl
  · intro y hy
    simp only [List.mem_cons, List.not_mem_nil, or_false] at hy
    rcases hy with rfl | rfl | rfl
    · exact hx.1
    · exact hx.1
    · omega
  · exact ⟨rfl, rfl, rfl, rfl⟩
  · intro m hs
    have hlen : (silu env.dev.fpu D x).length = D := by simp [silu]
    simp only [Kernel.stores, List.getD_cons_zero, List.getD_cons_succ]
    rw [hx.2 m hs, List.take_of_length_le (by
      rw [hlen]
      have := le_dispatch hD
      rwa [Nat.one_mul, Nat.mod_eq_of_lt (by omega)] at this)]
    exact hs.store hl hplain (by rw [hlen, ha])

theorem Loaded.does_vmul (hl : Loaded env ws wl lay M m0) {a b : Scratch} {n : Nat} {x y : List Word}
    (hx : Finds lay m0 d (ws.off a) n x) (hy : Finds lay m0 d (ws.off b) n y) (hplain : Plain a)
    (ha : workBytes a = 4 * n) (hn : n < 2 ^ 31) (hturns : n % 32 = 0) :
    Does lay m0 (op_vmul env ws (ws.off a) (ws.off b) (ws.off a) n) d
      (d.set a (vmul env.dev.fpu n x y)) := by
  intro st h
  unfold op_vmul
  rw [if_neg (by simp [hturns])]
  revert st
  apply hl.does_op
  · rfl
  · intro z hz
    simp only [List.mem_cons, List.not_mem_nil, or_false] at hz
    rcases hz with rfl | rfl | rfl | rfl
    · exact hx.1
    · exact hy.1
    · exact hx.1
    · omega
  · exact ⟨rfl, rfl, rfl, rfl⟩
  · intro m hs
    simp only [Kernel.stores, List.getD_cons_zero, List.getD_cons_succ]
    rw [hx.2 m hs, hy.2 m hs]
    apply hs.store hl hplain
    rw [ha]
    simp only [vmul, List.length_map, List.length_range, LANES]
    omega

/-! ## Operations that store rows -/

theorem store_all_rows (base : Nat) (m : Mem) {x w n : Nat} {g : Nat → Nat} (f : Nat → List Word)
    (hg : ∀ h < n, g h % 2 ^ 32 = x + h * w) :
    store_all base m ((List.range n).map fun h => (g h, f h)) = putRows m (base + x) w f n := by
  induction n with
  | zero => rfl
  | succ n ih =>
    have hlast := hg n (by omega)
    rw [putRows_succ, ← ih fun h hh => hg h (by omega), List.range_succ, List.map_append]
    simp only [store_all, List.foldl_append, List.map_cons, List.map_nil, List.foldl_cons,
      List.foldl_nil]
    rw [hlast, Nat.add_assoc]

theorem store_all_cons (base : Nat) (m : Mem) (a : Nat × List Word) (l : Stores) :
    store_all base m (a :: l) = store_all base (store_all base m [a]) l := rfl

/-- A store of rows that fill a whole buffer. -/
theorem Shows.store_rows (hl : Loaded env ws wl lay M m0) (hs : Shows lay m0 m d) (hplain : Plain s)
    {n : Nat} {f : Nat → List Word} (hf : ∀ h < n, (f h).length = 64)
    (hn : 256 * n = workBytes s) :
    Shows lay m0 (store_all lay.base m ((List.range n).map fun h => (ws.off s + h * 64 * 4, f h)))
      (d.set s ((List.range n).flatMap f)) := by
  obtain ⟨hoff, hsize⟩ := hl.work s
  have hfits := lay.fits (.work s)
  have hsmall := hl.small
  have hrow : ∀ h < n, (ws.off s + h * 64 * 4) % 2 ^ 32 = ws.off s + h * 256 := by
    intro h hh
    rw [Nat.mod_eq_of_lt (by omega)]
    omega
  have hlen : 4 * ((List.range n).flatMap f).length = workBytes s := by
    rw [List.length_flatMap, ← hn, List.map_congr_left (g := fun _ => 64)
      (fun h hh => hf h (List.mem_range.mp hh)), List.map_const', List.sum_replicate]
    simp
    omega
  rw [store_all_rows _ _ _ hrow, putRows_eq_put (fun h hh => by rw [hf h hh])]
  have hput := hs.store hl hplain hlen
  simp only [store_all, List.foldl_cons, List.foldl_nil] at hput
  rwa [Nat.mod_eq_of_lt (hl.work_lt s)] at hput

theorem Loaded.does_rope (hl : Loaded env ws wl lay M m0) {heads pos : Nat} (hplain : Plain s)
    (hheads : 256 * heads = workBytes s) (hpos : pos < 128) (hsin : d.vec .sincos = M.sincos) :
    Does lay m0 (op_rope env ws (ws.off s) heads pos) d
      (d.set s (rotate env.dev.fpu transformer_default_config M heads pos (d.vec s))) := by
  have hcfg := hl.cfg
  have hbytes : workBytes s ≤ 607744 := by cases s <;> decide
  have hone : max 1 heads = heads := by
    have := workBytes_pos s
    omega
  apply hl.does_op
  · rfl
  · intro y hy
    simp only [List.mem_cons, List.not_mem_nil, or_false] at hy
    rcases hy with rfl | rfl | rfl | rfl | rfl
    · exact hl.work_lt s
    · exact hl.work_lt .sincos
    · omega
    · rw [hcfg]
      decide
    · omega
  · exact ⟨rfl, rfl, rfl, rfl⟩
  · intro m hs
    simp only [Kernel.stores, List.getD_cons_zero, List.getD_cons_succ, hcfg, hone]
    have hcs : vec (rd32 lay.base m) (ws.off .sincos + pos * 64 * 4) (2 * LANES) =
        stretch M.sincos (pos * 64) 64 := by
      rw [← hsin]
      exact hs.stretch_eq hl.toPlaced ⟨by decide, by decide⟩ (by show pos * 64 + 64 ≤ 32768 / 4; omega)
    have hrows : ((List.range heads).map fun h => (ws.off s + h * 64 * 4,
        rope_head env.dev.fpu (stretch M.sincos (pos * 64) 64)
          (vec (rd32 lay.base m) (ws.off s + h * 64 * 4) (2 * LANES)))) =
        (List.range heads).map fun h => (ws.off s + h * 64 * 4,
          rope_head env.dev.fpu (stretch M.sincos (pos * 64) 64) (stretch (d.vec s) (h * 64) 64)) := by
      apply List.map_congr_left
      intro h hh
      have hlt := List.mem_range.mp hh
      rw [show 2 * LANES = 64 from rfl, hs.stretch_eq hl.toPlaced hplain (by omega)]
    show Shows lay m0 (store_all lay.base m ((List.range heads).map fun h =>
      (ws.off s + h * 64 * 4, rope_head env.dev.fpu
        (vec (rd32 lay.base m) (ws.off .sincos + pos * 64 * 4) (2 * LANES))
        (vec (rd32 lay.base m) (ws.off s + h * 64 * 4) (2 * LANES))))) _
    rw [hcs, hrows]
    exact hs.store_rows hl hplain (fun h _ => by simp [rope_head, LANES]) hheads

/-! ## The ends of a step -/

/-- A stretch of the weights. -/
theorem Shows.rom_stretch (hl : Loaded env ws wl lay M m0) (hs : Shows lay m0 m d) {x n i k : Nat}
    {v : List Word} (hrom : Rom lay m0 x n v) (hi : i + k ≤ n) :
    vec (rd32 lay.base m) (x + i * 4) k = stretch v i k := by
  have hall := hs.rom_eq hl.toPlaced hrom
  rw [← hall, stretch, vec_stretch _ hi, Nat.mul_comm i 4]

theorem Loaded.does_write_token (hl : Loaded env ws wl lay M m0) (tok : Word) :
    Does lay m0 (write_token ws tok) d (d.set .token_id_buf [tok]) := by
  intro st h
  have hlt := hl.work_lt .token_id_buf
  have hfits := lay.fits (.work .token_id_buf)
  have hend := hl.ends
  obtain ⟨hoff, hsize⟩ := hl.work .token_id_buf
  have hcopy : gpuMemcpy st.ctx (ws.off .token_id_buf) (bytesOf [tok]) 4 GPU_MEMCPY_H2D =
      (0, st.ctx.setMem (store_all lay.base st.ctx.buddy.mem [(ws.off .token_id_buf, [tok])]),
        bytesOf [tok]) := by
    rw [show GPU_MEMCPY_H2D = 0 from rfl, gpuMemcpy_H2D (by rw [h.mapped]; omega), h.mapped]
    simp only [store_all, List.foldl_cons, List.foldl_nil]
    rw [Nat.mod_eq_of_lt hlt]
    rfl
  refine ⟨{ st with ctx := st.ctx.setMem (store_all lay.base st.ctx.buddy.mem
    [(ws.off .token_id_buf, [tok])]) }, ?_, ?_⟩
  · unfold write_token
    simp only [hcopy]
    rfl
  · exact ⟨h.mapped, h.shows.store hl ⟨by decide, by decide⟩ rfl, h.kv, h.filled_le, h.pending_le,
      h.keys_length, h.vals_length⟩

theorem Loaded.does_embedding (hl : Loaded env ws wl lay M m0) {tok : Nat} (htok : tok < 151936)
    (hd : d.vec .token_id_buf = [UInt32.ofNat tok]) :
    Does lay m0 (op_embedding env ws (weight_loader_embedding wl) (ws.off .RESID_A)) d
      (d.set .RESID_A (embed transformer_default_config M tok)) := by
  have hcfg := hl.cfg
  have hrom := hl.embedding
  have htable := (hl.finds_rom (d := d) hrom (by decide)).1
  apply hl.does_op
  · rfl
  · intro y hy
    simp only [List.mem_cons, List.not_mem_nil, or_false] at hy
    rcases hy with rfl | rfl | rfl | rfl | rfl
    · exact htable
    · exact hl.work_lt .token_id_buf
    · exact hl.work_lt .RESID_A
    · rw [hcfg]
      decide
    · rw [hcfg]
      decide
  · exact ⟨rfl, rfl, rfl, rfl⟩
  · intro m hs
    simp only [Kernel.stores, List.getD_cons_zero, List.getD_cons_succ, hcfg]
    have hword : rd32 lay.base m (ws.off .token_id_buf) = UInt32.ofNat tok := by
      have hvec := hs.vec_eq hl.toPlaced (s := .token_id_buf) (n := 1) ⟨by decide, by decide⟩ rfl
      rw [hd] at hvec
      simpa [vec] using hvec
    have hrow : vec (rd32 lay.base m) (weight_loader_embedding wl + tok * 896 * 4) 896 =
        embed transformer_default_config M tok := by
      apply hs.rom_stretch hl hrom
      show tok * 896 + 896 ≤ 151936 * 896
      omega
    rw [hword, UInt32.toNat_ofNat_of_lt' (by simp only [UInt32.size]; omega)]
    show Shows lay m0 (store_all lay.base m [(ws.off .RESID_A,
      vec (rd32 lay.base m) (weight_loader_embedding wl + tok * 896 * 4) 896)]) _
    have hlen : (embed transformer_default_config M tok).length = 896 := by
      rw [← hrow, vec_length]
    rw [hrow]
    exact hs.store hl ⟨by decide, by decide⟩ (by rw [hlen]; rfl)

theorem Loaded.does_argmax (hl : Loaded env ws wl lay M m0) :
    Does lay m0 (op_argmax env ws) d
      (d.set .token_id_buf [argmax env.dev.fpu 151936 (d.vec .LOGITS)]) := by
  have hcfg := hl.cfg
  apply hl.does_op
  · rfl
  · intro y hy
    simp only [List.mem_cons, List.not_mem_nil, or_false] at hy
    rcases hy with rfl | rfl | rfl | rfl
    · exact hl.work_lt .LOGITS
    · rw [hcfg]
      decide
    · exact hl.work_lt .token_id_buf
    · exact hl.work_lt .argmax_debug
  · exact ⟨rfl, rfl, rfl, rfl⟩
  · intro m hs
    obtain ⟨hoff, hsize⟩ := hl.work .argmax_debug
    have hbytes : workBytes .argmax_debug = 1024 := rfl
    have hfits := lay.fits (.work .argmax_debug)
    have hsmall := hl.small
    simp only [Kernel.stores, List.getD_cons_zero, List.getD_cons_succ, hcfg]
    rw [show transformer_default_config.vocab_size = 151936 from rfl,
      hs.vec_eq hl.toPlaced (s := .LOGITS) (n := 151936) ⟨by decide, by decide⟩ rfl]
    -- The result first, then the rows of the debug buffer.
    rw [store_all_cons]
    have hfirst := hs.store hl (s := .token_id_buf)
      (v := [argmax env.dev.fpu 151936 (d.vec .LOGITS)]) ⟨by decide, by decide⟩ rfl
    apply hfirst.debug hl.toPlaced
    have hrows : ∀ h < LANES, (ws.off .argmax_debug + h * 32) % 2 ^ 32 =
        ws.off .argmax_debug + h * 32 := by
      intro h hh
      unfold LANES at hh
      exact Nat.mod_eq_of_lt (by omega)
    intro y hy
    have hnot := hy _ (List.mem_singleton_self _)
    unfold Layout.In at hnot
    rw [store_all_rows _ _ (argmax_debug env.dev.fpu 151936 (d.vec .LOGITS)) hrows]
    apply putRows_outside
    · intro h _
      simp [argmax_debug]
    · unfold LANES
      omega

theorem Loaded.does_commit (hfilled : d.filled < 128) (hpending : d.pending = 24) :
    Does lay m0 commit_token d { d with filled := d.filled + 1, pending := 0 } := by
  intro st h
  have hcode : kv_cache_commit_token st.kv =
      some (0, { st.kv with pending := 0, filled := st.kv.filled + 1 }) := by
    rw [h.kv]
    unfold kv_cache_commit_token
    simp only [hpending]
    rw [if_neg (by decide), if_neg (by simp), if_pos hfilled]
  refine ⟨{ st with kv := { st.kv with pending := 0, filled := st.kv.filled + 1 } }, ?_, ?_⟩
  · unfold commit_token
    rw [hcode]
    rfl
  · refine ⟨h.mapped, ⟨h.shows.code, h.shows.region, h.shows.vecs, h.shows.heads, h.shows.scores,
      h.shows.keys, h.shows.vals⟩, ?_, hfilled, by simp, fun l hl => ?_, fun l hl => ?_⟩
    · simp [h.kv]
    · have hlen := h.keys_length l hl
      rw [hpending, if_pos hl] at hlen
      simpa using hlen
    · have hlen := h.vals_length l hl
      rw [hpending, if_pos hl] at hlen
      simpa using hlen

end gpgpu.desk
