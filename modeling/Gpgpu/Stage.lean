-- The library with the default config between two steps: where its buffers lie, what they
-- hold, and what a step leaves as it was.
import Gpgpu.DecodeLaws
import Gpgpu.StepFrame

open memory words buffers

namespace gpgpu.desk

open buddy context kernels device kv weights transformer reference

/-! ## After the calls that set the library up -/

/-- The code, the weights and the cache are in place, and the buffers are the room of a
step. -/
structure Stage (dev : Device) (host : Libm) (ws : Workspace) (wl : WeightLoader) (c : KvCache)
    (ctx : GpgpuCtx) (lay : Layout Buf) (M : Model) : Prop where
  mapped : ctx.vram_mmap = lay.base
  bufs : ∀ b, lay.off b = bufOff ws wl c b ∧ lay.size b = bufSize dev b
  loaded : Loaded ⟨dev, host, fun _ => true⟩ ws wl lay M ctx.buddy.mem
  room : Room dev ws c lay ctx.buddy.mem
  suited : Suited ws wl c lay
  fresh : c = ⟨24, 2, 128, 64, c.K_dev_off, c.V_dev_off, 0, 0⟩

section

variable {files : WeightFile → Option FileData} {dev : Device} {host : Libm} {io : InitIo}
  {ws : Workspace} {wl : WeightLoader} {c : KvCache} {ctx ctx' : GpgpuCtx}

theorem suited_of_housed {T : Nat} {pool : Pool} (hh : Housed T files dev ws wl c ctx pool)
    (hcfg : ws.cfg = transformer_default_config)
    (hfresh : c = ⟨24, 2, 128, 64, c.K_dev_off, c.V_dev_off, 0, 0⟩) : Suited ws wl c hh.layout := by
  have hp := hh.placed hcfg hfresh
  have hbytes : c.bytes = CACHE_BYTES := by
    rw [hfresh]
    exact default_bytes ..
  refine ⟨⟨hh.checked, .inr ?_, ?_, ?_, fun _ => ⟨hp.keys.trans hbytes.symm, hp.vals.trans hbytes.symm⟩,
    hh.max_seq, hh.low⟩, _, hcfg ▸ default_wide, fun s => (hh.workroom.work s).2⟩
  · rw [hcfg]
    exact ⟨by decide, by decide⟩
  · rw [hcfg]
    decide
  · rw [hcfg, hfresh]
    exact (by decide : transformer_default_config.num_layers ≤ 24)

/-- After `transformer_init` the stage is set, whatever the buffers hold that start with any
content. -/
theorem stage_beside (hprep : Prepared files ctx (some wl) (some c))
    (hinit : transformer_init dev host io ctx c transformer_default_config = some (some ws, ctx'))
    {m : Mem} (hm : AgreesBeside dev ws wl c ctx' m) :
    ∃ lay, Stage dev host ws wl c (ctx'.setMem m) lay (modelOf host files) ∧
      lay.read m (.work .sincos) 0 8192 = (modelOf host files).sincos := by
  obtain ⟨T, pool, hh, hl, hsincos⟩ := loaded_after_init hprep hinit hm
  have hfresh := hprep.fresh c rfl
  have hr := hh.room
  refine ⟨hh.layout, ⟨rfl, hh.bufs hl.cfg hfresh, hl, ?_, suited_of_housed hh hl.cfg hfresh, hfresh⟩,
    hsincos⟩
  exact ⟨hr.small, hr.ends, hr.low, hr.work, hr.bytes, hr.code, hr.args, hr.keys, hr.vals, hl.binary⟩

theorem stage_of_init (hprep : Prepared files ctx (some wl) (some c))
    (hinit : transformer_init dev host io ctx c transformer_default_config = some (some ws, ctx')) :
    ∃ lay, Stage dev host ws wl c ctx' lay (modelOf host files) := by
  obtain ⟨lay, hs, -⟩ := stage_beside hprep hinit fun _ _ => rfl
  exact ⟨lay, hs⟩

end

/-! ## Between two steps -/

/-- A state between two steps: the buffers that the steps write hold anything, and the cache
has any number of tokens. -/
structure Between (dev : Device) (ws : Workspace) (wl : WeightLoader) (c : KvCache) (ctx : GpgpuCtx)
    (st : Run) : Prop where
  context : st.ctx = ctx.setMem st.ctx.buddy.mem
  mem : ∀ y, (∀ b, Mine b → ¬ (ctx.vram_mmap + bufOff ws wl c b ≤ y ∧
    y < ctx.vram_mmap + bufOff ws wl c b + bufSize dev b)) → st.ctx.buddy.mem y = ctx.buddy.mem y
  kv : st.kv = { c with filled := st.kv.filled, pending := 0 }
  filled : st.kv.filled < 128

/-- The rows of a layer for `n` tokens in a buffer of the cache. -/
def rowsAt (lay : Layout Buf) (m : Mem) (b : Buf) (n l : Nat) : List (List Word) :=
  (List.range n).map fun t => lay.read m b ((l * 2 * 128 + t) * 256) 64 ++
    lay.read m b (((l * 2 + 1) * 128 + t) * 256) 64

/-- The desk that a memory shows between two steps. -/
def deskOf (lay : Layout Buf) (m : Mem) (n : Nat) : Desk :=
  ⟨fun s => lay.read m (.work s) 0 (workBytes s / 4), [], rowsAt lay m .keys n, rowsAt lay m .vals n,
    n, 0⟩

section

variable {dev : Device} {host : Libm} {ws : Workspace} {wl : WeightLoader} {c : KvCache}
  {lay : Layout Buf} {M : Model} {m0 m : Mem} {ctx : GpgpuCtx} {st st' : Run} {n : Nat}

theorem rowsOf_rowsAt (b : Buf) (hn : n ≤ 128) : RowsOf lay m b (rowsAt lay m b n) := by
  intro l _
  have hlen : (rowsAt lay m b n l).length = n := by simp [rowsAt]
  refine ⟨by omega, fun t ht h hh => ?_⟩
  rw [hlen] at ht
  have hget : (rowsAt lay m b n l).getD t [] = lay.read m b ((l * 2 * 128 + t) * 256) 64 ++
      lay.read m b (((l * 2 + 1) * 128 + t) * 256) 64 := by
    simp [rowsAt, List.getD, ht]
  rw [hget, stretch]
  have hcases : h = 0 ∨ h = 1 := by omega
  rcases hcases with rfl | rfl
  · simp
  · simp

/-- Between two steps the code, the weights and the table are as they were. -/
theorem Stage.same (hs : Stage dev host ws wl c ctx lay M) (hb : Between dev ws wl c ctx st) {b : Buf}
    (hne : ¬ Mine b) : lay.Same b ctx.buddy.mem st.ctx.buddy.mem := by
  intro y hy
  apply hb.mem
  intro b' hmine hin
  rw [hs.mapped, ← (hs.bufs b').1, ← (hs.bufs b').2] at hin
  exact hne (hy.unique hin ▸ hmine)

theorem Stage.sound (hs : Stage dev host ws wl c ctx lay M) (hb : Between dev ws wl c ctx st) :
    Sound lay ctx.buddy.mem c st := by
  refine ⟨?_, fun k => hs.same hb (not_mine_code k), ?_⟩
  · rw [hb.context]
    exact hs.mapped
  · unfold SamePlace
    rw [hb.kv]
    rfl

/-- The cache has its rows. -/
theorem Stage.cache (hs : Stage dev host ws wl c ctx lay M) : CacheRoom lay c := by
  apply hs.suited.cache
  rw [hs.loaded.cfg]
  decide

theorem Stage.opens (hs : Stage dev host ws wl c ctx lay M) (hb : Between dev ws wl c ctx st) :
    Open ws.cfg st.kv := by
  have hplace := (hs.sound hb).place
  have hmax := hplace.max_seq.trans hs.suited.max_seq
  refine ⟨by rw [hmax]; exact hb.filled, .inl ⟨?_, by rw [hb.kv], ?_⟩⟩
  · rw [hs.loaded.cfg]
    decide
  · rw [hplace.num_layers, hs.loaded.cfg, hs.fresh]
    rfl

/-- The memory between two steps shows its desk. -/
theorem Stage.shows (hs : Stage dev host ws wl c ctx lay M) (hb : Between dev ws wl c ctx st) :
    At lay ctx.buddy.mem st (deskOf lay st.ctx.buddy.mem st.kv.filled) := by
  have hfilled := hb.filled
  have hregion : ∀ r, ¬ Mine (.region r) := by
    rintro r (h | h | h)
    · exact h
    · cases h
    · cases h
  refine ⟨(hs.sound hb).mapped, ⟨fun k => hs.same hb (not_mine_code k),
    fun r => hs.same hb (hregion r), fun s _ => rfl, Nat.zero_le _, by simp [deskOf],
    rowsOf_rowsAt _ (by omega), rowsOf_rowsAt _ (by omega)⟩, ?_, ?_, Nat.zero_le _, ?_, ?_⟩
  · rw [hs.room.keys, hs.room.vals, hb.kv, hs.fresh]
    rfl
  · show st.kv.filled ≤ 128
    omega
  · simp [deskOf, rowsAt]
  · simp [deskOf, rowsAt]

/-! ## What a step leaves as it was -/

/-- No operation of a step touches a row of a token that the cache has. -/
theorem Room.committed_untouched {env : Env} (hr : Room env.dev ws c lay m0)
    (hcache : CacheRoom lay c) {pos : Nat} {o : Op} (hfits : Fits lay env.dev.fpu c pos o)
    {l h t y : Nat} (hl : l < c.num_layers) (hh : h < c.num_kv_heads) (ht : t < pos) (hpos : pos < c.max_seq)
    (hy : c.InRows lay.base l h t y) : ¬ Touches lay env.dev.fpu c pos o y := by
  have hin := hr.rows_in hcache hl hh (by omega) hy
  intro htouch
  by_cases happend : ∀ layer, o ≠ .append layer
  · obtain ⟨b, hb, hby⟩ := hfits.scratchy htouch happend
    rcases hin with hk | hv
    · rw [hby.unique hk] at hb
      exact hb
    · rw [hby.unique hv] at hb
      exact hb
  · obtain ⟨layer, rfl⟩ := not_forall_not.mp happend
    obtain ⟨h', hh', hrow⟩ := htouch
    have hne : (l, h, t) ≠ (layer, h', pos) := by
      intro heq
      simp only [Prod.mk.injEq] at heq
      omega
    have happ := lay.apart .keys .vals (by decide)
    rw [hr.keys, hcache.keys, hr.vals, hcache.vals] at happ
    exact row_alone happ hl hfits.formed.1 hh hh' (by omega) hpos hne hy hrow

end

end gpgpu.desk
