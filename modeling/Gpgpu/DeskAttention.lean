-- Attention on the desk: the cache takes in a key and a value, the scores get a row
-- for each query head, and the rows mix the values.
import Gpgpu.DeskOps

open memory words buffers

namespace gpgpu.desk

open buddy context kernels device kv weights transformer reference

variable {env : Env} {ws : Workspace} {wl : WeightLoader} {lay : Layout Buf} {M : Model}
  {m0 m m' : Mem} {st : Run} {d : Desk} {l pos : Nat}

/-! ## The rows of scores -/

/-- New rows of scores. -/
theorem Shows.setScores (hl : Loaded env ws wl lay M m0) (hs : Shows lay m0 m d)
    {rows : List (List Word)} (hch : lay.Changes [.work .SCRATCH_SCORES] m m')
    (hlen : rows.length ≤ 14) (hrows : ∀ h < rows.length, (rows.getD h []).length ≤ 128 ∧
      lay.read m' (.work .SCRATCH_SCORES) (h * 512) (rows.getD h []).length = rows.getD h []) :
    Shows lay m0 m' { d with scores := rows } := by
  refine ⟨fun k y hy => ?_, fun r y hy => ?_, fun s hplain => ?_, hlen, hrows,
    hs.keys.congr hl.keys (hch.same (by simp)), hs.vals.congr hl.vals (hch.same (by simp))⟩
  · rw [hch.same (by simp) y hy, hs.code k y hy]
  · rw [hch.same (by simp) y hy, hs.region r y hy]
  · have hsame : lay.Same (.work s) m m' := hch.same (by simpa using hplain.1)
    rw [hsame.read (by rw [(hl.work s).2]; omega)]
    exact hs.vecs s hplain

theorem getD_map_range {f : Nat → List Word} {n h : Nat} (hh : h < n) :
    ((List.range n).map f).getD h [] = f h := by
  simp [hh]

/-- A store of one row for each query head. -/
theorem Shows.store_scores (hl : Loaded env ws wl lay M m0) (hs : Shows lay m0 m d)
    {f : Nat → List Word} (hf : ∀ h < 14, (f h).length ≤ 128) :
    Shows lay m0 (store_all lay.base m
        ((List.range 14).map fun h => (ws.off .SCRATCH_SCORES + h * 128 * 4, f h)))
      { d with scores := (List.range 14).map f } := by
  obtain ⟨hoff, hsize⟩ := hl.work .SCRATCH_SCORES
  have hbytes : workBytes .SCRATCH_SCORES = 7168 := rfl
  have hfits := lay.fits (.work .SCRATCH_SCORES)
  have hsmall := hl.small
  have hrow : ∀ h < 14, (ws.off .SCRATCH_SCORES + h * 128 * 4) % 2 ^ 32 =
      ws.off .SCRATCH_SCORES + h * 512 := by
    intro h hh
    rw [Nat.mod_eq_of_lt (by omega)]
    omega
  have hwide : ∀ h < 14, 4 * (f h).length ≤ 512 := by
    intro h hh
    have := hf h hh
    omega
  rw [store_all_rows _ _ _ hrow]
  apply hs.setScores hl
  · intro y hy
    have hnot := hy _ (List.mem_singleton_self _)
    unfold Layout.In at hnot
    exact putRows_outside hwide (by omega)
  · simp
  · intro h hh
    have hlt : h < 14 := by simpa using hh
    rw [getD_map_range hlt]
    refine ⟨hf h hlt, ?_⟩
    unfold Layout.read
    rw [hoff]
    exact vec_putRows hwide hlt

/-! ## Where the cache lies -/

/-- The bytes of a cache of the default sizes. -/
theorem default_bytes (K_dev_off V_dev_off filled pending : Nat) :
    (KvCache.mk 24 2 128 64 K_dev_off V_dev_off filled pending).bytes = CACHE_BYTES := by
  unfold KvCache.bytes KvCache.width SIZEOF_FLOAT CACHE_BYTES
  norm_num

theorem Loaded.rooms (hl : Loaded env ws wl lay M m0) (h : At lay m0 st d) :
    Rooms lay.top st.ctx st.kv := by
  have hkeys := lay.fits .keys
  have hvals := lay.fits .vals
  have happ := lay.apart .keys .vals (by decide)
  rw [hl.keys] at hkeys happ
  rw [hl.vals] at hvals happ
  have hbytes : st.kv.bytes = CACHE_BYTES := by
    rw [h.kv]
    exact default_bytes ..
  have hK : st.kv.K_dev_off = lay.off .keys := by rw [h.kv]
  have hV : st.kv.V_dev_off = lay.off .vals := by rw [h.kv]
  refine ⟨?_, ?_, ?_, hl.small, by rw [h.mapped]; exact hl.ends⟩
  · rwa [hbytes, hK]
  · rwa [hbytes, hV]
  · rwa [hbytes, hK, hV]

theorem Loaded.K_off_eq (hl : Loaded env ws wl lay M m0) (h : At lay m0 st d) (hlayer : l < 24) :
    kv_cache_K_off st.kv l = some (lay.off .keys + l * 65536) := by
  have hr := hl.rooms h
  have hlt : l < st.kv.num_layers := by
    rw [h.kv]
    exact hlayer
  unfold kv_cache_K_off
  rw [if_pos hlt, hr.layer_off_eq hlt hr.K_fits, h.kv]
  simp only [KvCache.width, SIZEOF_FLOAT, Option.some.injEq]
  omega

theorem Loaded.V_off_eq (hl : Loaded env ws wl lay M m0) (h : At lay m0 st d) (hlayer : l < 24) :
    kv_cache_V_off st.kv l = some (lay.off .vals + l * 65536) := by
  have hr := hl.rooms h
  have hlt : l < st.kv.num_layers := by
    rw [h.kv]
    exact hlayer
  unfold kv_cache_V_off
  rw [if_pos hlt, hr.layer_off_eq hlt hr.V_fits, h.kv]
  simp only [KvCache.width, SIZEOF_FLOAT, Option.some.injEq]
  omega

/-- The device finds the row of token `j` and head `kh` of a layer in the cache. -/
theorem Loaded.cache_row (hl : Loaded env ws wl lay M m0) {b : Buf} {rows : Nat → List (List Word)}
    (hb : lay.size b = CACHE_BYTES) (hrows : RowsOf lay m b rows) (hlayer : l < 24) (j kh : Nat)
    {x : Nat}
    (hj : j < (rows l).length) (hkh : kh < 2)
    (hx : x = lay.off b + ((l * 2 + kh) * 128 + j) * 256) :
    vec (rd32 lay.base m) x 64 = stretch ((rows l).getD j []) (kh * 64) 64 := by
  obtain ⟨hlen, hread⟩ := hrows l hlayer
  rw [hl.vec_rd32 hx (by rw [hb]; exact row_fits hlayer hkh (by omega))]
  exact hread j hj kh hkh

/-! ## Scores, weights and the mix of values -/

theorem map_range_getD {α : Type} (f : List Word → α) (rows : List (List Word)) :
    ((List.range rows.length).map fun j => f (rows.getD j [])) = rows.map f := by
  apply List.ext_getElem
  · simp
  · intro j h1 h2
    have hj : j < rows.length := by simpa using h2
    simp [hj]

/-- The scores that `qkt_decode` leaves. -/
def scoresOf (fpu : Fpu) (M : Model) (q : List Word) (keys : List (List Word)) : List (List Word) :=
  (List.range 14).map fun h => keys.map fun k =>
    score fpu M.scale 64 (stretch q (h * 64) 64) (shared transformer_default_config h k)

theorem Loaded.does_qkt (hl : Loaded env ws wl lay M m0) (hlayer : l < 24) (hpos : pos < 128)
    (hkeys : (d.keys l).length = pos + 1) :
    Does lay m0 (fun st => (kv_cache_K_off st.kv l).bind fun K =>
        op_qkt_decode env ws (ws.off .SCRATCH_Q) K (ws.off .SCRATCH_SCORES) pos
          (env.host.div ONE (env.host.sqrtf (env.host.ofNat ws.cfg.head_dim))) st) d
      { d with scores := scoresOf env.dev.fpu M (d.vec .SCRATCH_Q) (d.keys l) } := by
  have hcfg := hl.cfg
  have hfits := lay.fits .keys
  have hsmall := hl.small
  rw [hl.keys] at hfits
  have hcache : CACHE_BYTES = 1572864 := rfl
  intro st h
  simp only [hl.K_off_eq h hlayer, Option.bind_some, op_qkt_decode]
  rw [if_neg (by rw [hcfg]; decide)]
  revert st
  apply hl.does_op
  · rfl
  · intro y hy
    simp only [List.mem_cons, List.not_mem_nil, or_false] at hy
    rcases hy with rfl | rfl | rfl | rfl | rfl | rfl | rfl | rfl
    · exact hl.work_lt .SCRATCH_Q
    · omega
    · exact hl.work_lt .SCRATCH_SCORES
    · omega
    · rw [hcfg]
      decide
    · rw [hcfg]
      decide
    · rw [hcfg]
      decide
    · exact UInt32.toNat_lt _
  · exact ⟨rfl, rfl, rfl, rfl⟩
  · intro m hs
    simp only [Kernel.stores, List.getD_cons_zero, List.getD_cons_succ, hcfg, UInt32.ofNat_toNat]
    have hrows : ∀ h < 14, ((List.range (pos + 1)).map fun j =>
        score env.dev.fpu M.scale 64
          (vec (rd32 lay.base m) (ws.off .SCRATCH_Q + h * 64 * 4) 64)
          (vec (rd32 lay.base m)
            (lay.off .keys + l * 65536 + h / 7 * 64 * 128 * 4 + 64 * j * 4) 64)) =
        (d.keys l).map fun k => score env.dev.fpu M.scale 64 (stretch (d.vec .SCRATCH_Q) (h * 64) 64)
          (shared transformer_default_config h k) := by
      intro h hh
      rw [hs.stretch_eq hl.toPlaced ⟨by decide, by decide⟩ (by show h * 64 + 64 ≤ 3584 / 4; omega),
        ← map_range_getD, hkeys]
      apply List.map_congr_left
      intro j hj
      have hlt := List.mem_range.mp hj
      rw [hl.cache_row hl.keys hs.keys hlayer j (h / 7) (by omega) (by omega) (by omega)]
      rfl
    have hscale : env.host.div ONE (env.host.sqrtf (env.host.ofNat
        transformer_default_config.head_dim)) = M.scale := hl.scale.symm
    rw [hscale]
    have hall := hs.store_scores hl (f := fun h => (d.keys l).map fun k =>
      score env.dev.fpu M.scale 64 (stretch (d.vec .SCRATCH_Q) (h * 64) 64)
        (shared transformer_default_config h k)) (fun h _ => by rw [List.length_map, hkeys]; omega)
    have hstores : ((List.range 14).map fun h => (ws.off .SCRATCH_SCORES + h * 128 * 4,
        (List.range (pos + 1)).map fun j => score env.dev.fpu M.scale 64
          (vec (rd32 lay.base m) (ws.off .SCRATCH_Q + h * 64 * 4) 64)
          (vec (rd32 lay.base m)
            (lay.off .keys + l * 65536 + h / 7 * 64 * 128 * 4 + 64 * j * 4) 64))) =
        (List.range 14).map fun h => (ws.off .SCRATCH_SCORES + h * 128 * 4,
          (d.keys l).map fun k => score env.dev.fpu M.scale 64
            (stretch (d.vec .SCRATCH_Q) (h * 64) 64) (shared transformer_default_config h k)) := by
      apply List.map_congr_left
      intro h hh
      rw [hrows h (List.mem_range.mp hh)]
    rw [← hstores] at hall
    exact hall

/-- The device finds a row of scores. -/
theorem Loaded.scores_row (hl : Loaded env ws wl lay M m0) (hs : Shows lay m0 m d)
    (hheads : d.scores.length = 14) (hrows : ∀ h < 14, (d.scores.getD h []).length = pos + 1) {h : Nat}
    (hh : h < 14) : vec (rd32 lay.base m) (ws.off .SCRATCH_SCORES + h * 128 * 4) (pos + 1) =
      d.scores.getD h [] := by
  obtain ⟨hlen, hread⟩ := hs.scores h (by omega)
  rw [hrows h hh] at hlen hread
  obtain ⟨hoff, hsize⟩ := hl.work .SCRATCH_SCORES
  rw [hl.vec_rd32 (b := .work .SCRATCH_SCORES) (i := h * 512) (by rw [hoff]; omega)
    (by rw [hsize]; exact scores_row_fits hh hlen)]
  exact hread

theorem Loaded.does_softmax (hl : Loaded env ws wl lay M m0) (hpos : pos < 128)
    (hheads : d.scores.length = 14) (hrows : ∀ h < 14, (d.scores.getD h []).length = pos + 1) :
    Does lay m0 (op_softmax_decode env ws (ws.off .SCRATCH_SCORES) pos) d
      { d with scores := (List.range 14).map fun h =>
          softmax_row env.dev.fpu (d.scores.getD h []) } := by
  have hcfg := hl.cfg
  apply hl.does_op
  · rfl
  · intro y hy
    simp only [List.mem_cons, List.not_mem_nil, or_false] at hy
    rcases hy with rfl | rfl | rfl
    · exact hl.work_lt .SCRATCH_SCORES
    · omega
    · rw [hcfg]
      decide
  · exact ⟨rfl, rfl, rfl, rfl⟩
  · intro m hs
    simp only [Kernel.stores, List.getD_cons_zero, List.getD_cons_succ, hcfg]
    have hall := hs.store_scores hl (f := fun h => softmax_row env.dev.fpu (d.scores.getD h []))
      (fun h hh => by simp only [softmax_row, List.length_map, List.length_range, hrows h hh]; omega)
    have hstores : ((List.range 14).map fun h => (ws.off .SCRATCH_SCORES + h * 128 * 4,
        softmax_row env.dev.fpu
          (vec (rd32 lay.base m) (ws.off .SCRATCH_SCORES + h * 128 * 4) (pos + 1)))) =
        (List.range 14).map fun h => (ws.off .SCRATCH_SCORES + h * 128 * 4,
          softmax_row env.dev.fpu (d.scores.getD h [])) := by
      apply List.map_congr_left
      intro h hh
      rw [hl.scores_row hs hheads hrows (List.mem_range.mp hh)]
    rw [← hstores] at hall
    exact hall

theorem Loaded.does_pv (hl : Loaded env ws wl lay M m0) (hlayer : l < 24) (hpos : pos < 128)
    (hheads : d.scores.length = 14) (hrows : ∀ h < 14, (d.scores.getD h []).length = pos + 1)
    (hvals : (d.vals l).length = pos + 1) :
    Does lay m0 (fun st => (kv_cache_V_off st.kv l).bind fun V =>
        op_pv_decode env ws (ws.off .SCRATCH_SCORES) V (ws.off .SCRATCH_X) pos st) d
      (d.set .SCRATCH_X ((List.range 14).flatMap fun h => pv_row env.dev.fpu 64
        (d.scores.getD h []) ((d.vals l).map (shared transformer_default_config h)))) := by
  have hcfg := hl.cfg
  have hfits := lay.fits .vals
  have hsmall := hl.small
  rw [hl.vals] at hfits
  have hcache : CACHE_BYTES = 1572864 := rfl
  intro st h
  simp only [hl.V_off_eq h hlayer, Option.bind_some, op_pv_decode]
  rw [if_neg (by rw [hcfg]; decide)]
  revert st
  apply hl.does_op
  · rfl
  · intro y hy
    simp only [List.mem_cons, List.not_mem_nil, or_false] at hy
    rcases hy with rfl | rfl | rfl | rfl | rfl | rfl | rfl
    · exact hl.work_lt .SCRATCH_SCORES
    · omega
    · exact hl.work_lt .SCRATCH_X
    · omega
    · rw [hcfg]
      decide
    · rw [hcfg]
      decide
    · rw [hcfg]
      decide
  · exact ⟨rfl, rfl, rfl, rfl⟩
  · intro m hs
    simp only [Kernel.stores, List.getD_cons_zero, List.getD_cons_succ, hcfg]
    have hall := hs.store_rows hl (s := .SCRATCH_X) (n := 14) (f := fun h => pv_row env.dev.fpu 64
      (d.scores.getD h []) ((d.vals l).map (shared transformer_default_config h)))
      ⟨by decide, by decide⟩ (fun h _ => by simp [pv_row, LANES]) rfl
    have hstores : ((List.range 14).map fun h => (ws.off .SCRATCH_X + h * 64 * 4,
        pv_row env.dev.fpu 64
          (vec (rd32 lay.base m) (ws.off .SCRATCH_SCORES + h * 128 * 4) (pos + 1))
          ((List.range (pos + 1)).map fun j => vec (rd32 lay.base m)
            (lay.off .vals + l * 65536 + h / 7 * 128 * 64 * 4 + j * (64 * 4)) 64))) =
        (List.range 14).map fun h => (ws.off .SCRATCH_X + h * 64 * 4, pv_row env.dev.fpu 64
          (d.scores.getD h []) ((d.vals l).map (shared transformer_default_config h))) := by
      apply List.map_congr_left
      intro h hh
      have hlt := List.mem_range.mp hh
      rw [hl.scores_row hs hheads hrows hlt, ← map_range_getD, hvals]
      congr 2
      apply List.map_congr_left
      intro j hj
      have hjlt := List.mem_range.mp hj
      exact hl.cache_row hl.vals hs.vals hlayer j (h / 7) (by omega) (by omega) (by omega)
    rw [← hstores] at hall
    exact hall

/-! ## The cache takes in a token -/

/-- The rows of the cache after layer `l` has got one more. The bytes of the new row are
those of the vector `v` in the buffer `s`. -/
theorem RowsOf.push {b : Buf} {rows : Nat → List (List Word)} {s : Scratch} {v : List Word}
    (hrows : RowsOf lay m b rows) (hlen : (rows l).length = pos) (hpos : pos < 128)
    (hread : lay.read m (.work s) 0 128 = v)
    (hnew : ∀ h < 2, ∀ i < 256, m' (lay.base + lay.off b + ((l * 2 + h) * 128 + pos) * 256 + i) =
      m (lay.base + lay.off (.work s) + (h * 256 + i)))
    (hold : ∀ l' < 24, ∀ t < (rows l').length, ∀ h < 2, ∀ i < 256,
      m' (lay.base + lay.off b + ((l' * 2 + h) * 128 + t) * 256 + i) =
        m (lay.base + lay.off b + ((l' * 2 + h) * 128 + t) * 256 + i)) :
    RowsOf lay m' b (Function.update rows l (rows l ++ [v])) := by
  -- Rows that were there before.
  have hkeep : ∀ l' < 24, ∀ t < (rows l').length, ∀ h < 2,
      lay.read m' b (((l' * 2 + h) * 128 + t) * 256) 64 =
        stretch ((rows l').getD t []) (h * 64) 64 := by
    intro l' hl' t ht h hh
    rw [← (hrows l' hl').2 t ht h hh]
    apply vec_congr
    intro k hk
    apply word_congr
    intro j hj
    have := hold l' hl' t ht h hh (4 * k + j) (by omega)
    rwa [← Nat.add_assoc] at this
  intro l' hl'
  by_cases heq : l' = l
  · subst heq
    rw [Function.update_self]
    refine ⟨by simp; omega, fun t ht h hh => ?_⟩
    by_cases hlast : t < (rows l').length
    · rw [List.getD_append _ _ _ _ hlast]
      exact hkeep l' hl' t hlast h hh
    · obtain rfl : t = pos := by simp at ht; omega
      have hget : (rows l' ++ [v]).getD t [] = v := by
        rw [List.getD_append_right _ _ _ _ (by omega), hlen, Nat.sub_self]
        rfl
      rw [hget, ← hread, stretch, Layout.read_stretch _ _ (by omega)]
      apply vec_congr
      intro k hk
      apply word_congr
      intro j hj
      have := hnew h hh (4 * k + j) (by omega)
      rw [← Nat.add_assoc] at this
      rw [this]
      congr 1
      omega
  · rw [Function.update_of_ne heq]
    exact ⟨(hrows l' hl').1, fun t ht h hh => hkeep l' hl' t ht h hh⟩

/-- What a copy of a vector to the host brings there. -/
def copied (lay : Layout Buf) (m : Mem) (s : Scratch) (n : Nat) : Nat → UInt8 := fun i =>
  if i < n then m (lay.base + lay.off (.work s) + i) else 0

theorem Loaded.copy_out (hl : Loaded env ws wl lay M m0) (h : At lay m0 st d) (s : Scratch)
    (n : Nat) : gpuMemcpy st.ctx (ws.off s) (fun _ => 0) n GPU_MEMCPY_D2H =
      (0, st.ctx, copied lay st.ctx.buddy.mem s n) := by
  have hfits := lay.fits (.work s)
  have hend := hl.ends
  obtain ⟨hoff, hsize⟩ := hl.work s
  unfold gpuMemcpy
  rw [if_neg (by decide), if_pos rfl, h.mapped, ← hoff, add64_eq (by omega)]
  rfl

/-- The rows of the cache lie in its two buffers. -/
theorem Loaded.rows_inside (hl : Loaded env ws wl lay M m0) (h : At lay m0 st d) {y h' t : Nat}
    (hlayer : l < 24) (hh : h' < 2) (ht : t < 128) (hy : st.kv.InRows lay.base l h' t y) :
    lay.In .keys y ∨ lay.In .vals y := by
  have hrow := row_fits hlayer hh ht
  rw [h.kv] at hy
  unfold Layout.In
  rw [hl.keys, hl.vals]
  simp only [KvCache.InRows, KvCache.InRow, KvCache.row, KvCache.width, rows.cell,
    SIZEOF_FLOAT] at hy
  omega

/-- The memory after an append shows the rows with one more for the layer. -/
theorem Loaded.shows_append (hl : Loaded env ws wl lay M m0) (h : At lay m0 st d)
    (hlayer : d.pending < 24) (hpos : d.filled < 128)
    (hw : Written st.kv lay.base d.pending d.filled 0 2
      (copied lay st.ctx.buddy.mem .SCRATCH_K 512) (copied lay st.ctx.buddy.mem .SCRATCH_V 512)
      st.ctx.buddy.mem m) :
    Shows lay m0 m { d with
      keys := Function.update d.keys d.pending (d.keys d.pending ++ [d.vec .SCRATCH_K])
      vals := Function.update d.vals d.pending (d.vals d.pending ++ [d.vec .SCRATCH_V])
      pending := d.pending + 1 } := by
  have hs := h.shows
  have hch : lay.Changes [.keys, .vals] st.ctx.buddy.mem m := by
    intro y hy
    apply hw.outside
    intro h' _ hh hin
    rcases hl.rows_inside h hlayer (by omega) hpos hin with hk | hv
    · exact hy .keys (by simp) hk
    · exact hy .vals (by simp) hv
  -- Rows of other layers and tokens keep their bytes.
  have hold : ∀ l < 24, ∀ t < 128, ∀ h' < 2, (l = d.pending → t ≠ d.filled) → ∀ y,
      st.kv.InRows lay.base l h' t y → m y = st.ctx.buddy.mem y := by
    intro l hl' t ht h' hh' hne y hy
    apply hw.outside
    intro h'' _ hh''
    refine (hl.rooms h).row_alone ?_ ?_ ?_ ?_ ?_ ?_ ?_ hy <;> try rw [h.kv]
    · exact hl'
    · exact hlayer
    · exact hh'
    · simpa using hh''
    · exact ht
    · exact hpos
    · intro heq
      simp only [Prod.mk.injEq] at heq
      exact hne heq.1 heq.2.2
  have hlen : ∀ l < 24, ∀ t < d.filled + (if l < d.pending then 1 else 0),
      t < 128 ∧ (l = d.pending → t ≠ d.filled) := by
    intro l _ t ht
    split at ht <;> omega
  have hKrow := hw.K_row
  have hVrow := hw.V_row
  unfold KvCache.InRows KvCache.InRow at hold
  rw [h.kv] at hold hKrow hVrow
  simp only [KvCache.row, KvCache.width, rows.cell, SIZEOF_FLOAT, Nat.reduceMul] at hold hKrow hVrow
  refine hs.cache hl.toPlaced (fun _ => hch.same (by simp)) (fun _ => hch.same (by simp))
    (fun _ _ => hch.same (by simp)) ?_ ?_ d.filled (d.pending + 1)
  · apply hs.keys.push _ hpos (hs.vecs .SCRATCH_K ⟨by decide, by decide⟩)
    · intro h' hh' i hi
      rw [hKrow h' (Nat.zero_le _) (by omega) i hi, copied, if_pos (by omega)]
    · intro l' hl' t ht h' hh' i hi
      rw [h.keys_length l' hl'] at ht
      obtain ⟨ht', hne⟩ := hlen l' hl' t ht
      exact hold l' hl' t ht' h' hh' hne _ (Or.inl ⟨by omega, by omega⟩)
    · rw [h.keys_length _ hlayer, if_neg (Nat.lt_irrefl _), Nat.add_zero]
  · apply hs.vals.push _ hpos (hs.vecs .SCRATCH_V ⟨by decide, by decide⟩)
    · intro h' hh' i hi
      rw [hVrow h' (Nat.zero_le _) (by omega) i hi, copied, if_pos (by omega)]
    · intro l' hl' t ht h' hh' i hi
      rw [h.vals_length l' hl'] at ht
      obtain ⟨ht', hne⟩ := hlen l' hl' t ht
      exact hold l' hl' t ht' h' hh' hne _ (Or.inr ⟨by omega, by omega⟩)
    · rw [h.vals_length _ hlayer, if_neg (Nat.lt_irrefl _), Nat.add_zero]

theorem Loaded.does_append (hl : Loaded env ws wl lay M m0) (hlayer : d.pending < 24)
    (hpos : d.filled < 128) :
    Does lay m0
      (kv_append_from_device env ws d.pending d.filled (ws.off .SCRATCH_K) (ws.off .SCRATCH_V)) d
      { d with
        keys := Function.update d.keys d.pending (d.keys d.pending ++ [d.vec .SCRATCH_K])
        vals := Function.update d.vals d.pending (d.vals d.pending ++ [d.vec .SCRATCH_V])
        pending := d.pending + 1 } := by
  intro st h
  have hcur : kv_cache_cur_pos st.kv = some d.filled := by
    rw [h.kv]
    exact if_pos hpos
  have hnbytes : ws.cfg.num_kv_heads * ws.cfg.head_dim % 2 ^ 32 * 4 = 512 := by
    rw [hl.cfg]
    rfl
  obtain ⟨m, hcode, hw⟩ := append_spec (copied lay st.ctx.buddy.mem .SCRATCH_K 512)
    (copied lay st.ctx.buddy.mem .SCRATCH_V 512) (hl.rooms h) (by rw [h.kv]; exact hpos)
    (by rw [h.kv]; exact hlayer)
  have hpend : st.kv.pending = d.pending := by rw [h.kv]
  have hfill : st.kv.filled = d.filled := by rw [h.kv]
  have hheads : st.kv.num_kv_heads = 2 := by rw [h.kv]
  rw [hpend, hfill, hheads, h.mapped] at hw
  rw [hpend] at hcode
  refine ⟨⟨st.ctx.setMem m, { st.kv with pending := d.pending + 1 }, st.calls + 2⟩, ?_, ?_⟩
  · unfold kv_append_from_device
    simp only [hcur, hnbytes, Option.bind_eq_bind, Option.bind_some, hl.ok, hl.copy_out h, hcode,
      Bool.and_self, Bool.true_eq_false, ne_eq, not_true_eq_false, if_false, lt_self_iff_false,
      or_self, Option.map_some]
  · refine ⟨h.mapped, hl.shows_append h hlayer hpos hw, ?_, h.filled_le, hlayer, ?_, ?_⟩
    · rw [h.kv]
    all_goals
      intro l hl'
      by_cases heq : l = d.pending
      · subst heq
        have hk := h.keys_length _ hl'
        have hv := h.vals_length _ hl'
        rw [if_neg (Nat.lt_irrefl _)] at hk hv
        simp [hk, hv]
      · have hk := h.keys_length _ hl'
        have hv := h.vals_length _ hl'
        have hiff : l < d.pending + 1 ↔ l < d.pending := by omega
        simp only [Function.update_of_ne heq, hk, hv, hiff]

end gpgpu.desk
