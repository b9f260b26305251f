-- The buffers after the calls that set the library up, for a cache of any dimensions and
-- any config that `transformer_init` takes: each has a live allocation of its own.
import Gpgpu.InitLaws

open memory words buffers runs

namespace gpgpu.desk

open buddy context kernels device kv weights transformer

/-! ## Configs -/

/-- The sizes are `uint32_t`. -/
structure Typed (cfg : Config) : Prop where
  D : cfg.D < 2 ^ 32
  intermediate : cfg.intermediate < 2 ^ 32
  num_q_heads : cfg.num_q_heads < 2 ^ 32
  num_kv_heads : cfg.num_kv_heads < 2 ^ 32
  head_dim : cfg.head_dim < 2 ^ 32
  vocab_size : cfg.vocab_size < 2 ^ 32

/-- What `transformer_init` checks. -/
structure Checked (cfg : Config) : Prop extends Typed cfg where
  S_max : cfg.S_max = 1
  max_seq : cfg.max_seq = 128

/-- The elements of a buffer of the workspace. -/
def floats (cfg : Config) : Scratch → Nat
  | .RESID_A | .RESID_B | .SCRATCH_X | .SCRATCH_Q => cfg.D
  | .SCRATCH_K | .SCRATCH_V => cfg.num_kv_heads * cfg.head_dim % 2 ^ 32
  | .SCRATCH_SCORES => cfg.num_q_heads * 128
  | .SCRATCH_FFN_A | .SCRATCH_FFN_B => cfg.intermediate
  | .LOGITS => cfg.vocab_size
  | .sincos => 128 * cfg.head_dim
  | .token_id_buf => 1
  | .argmax_debug => 256

/-- The buffers in the order of `scratch_sizes`. -/
def workOrder : List Scratch :=
  [.RESID_A, .RESID_B, .SCRATCH_X, .SCRATCH_Q, .SCRATCH_K, .SCRATCH_V, .SCRATCH_SCORES,
    .SCRATCH_FFN_A, .SCRATCH_FFN_B, .LOGITS, .sincos, .token_id_buf, .argmax_debug]

/-- No size is cut to 64 bits. -/
theorem scratch_sizes_eq {cfg : Config} (h : Checked cfg) :
    scratch_sizes cfg = workOrder.map fun s => (s, 4 * floats cfg s) := by
  have hD := h.D
  have hI := h.intermediate
  have hq := h.num_q_heads
  have hhd := h.head_dim
  have hvocab := h.vocab_size
  have hkv : cfg.num_kv_heads * cfg.head_dim % 2 ^ 32 < 2 ^ 32 := Nat.mod_lt _ (by decide)
  have hone : ∀ n, n < 2 ^ 32 → mul64 (mul64 1 n) 4 = 4 * n := by
    intro n hn
    unfold mul64
    omega
  have hscores : mul64 (mul64 cfg.num_q_heads 128) 4 = 4 * (cfg.num_q_heads * 128) := by
    unfold mul64
    omega
  have hsincos : mul64 (mul64 128 cfg.head_dim) 4 = 4 * (128 * cfg.head_dim) := by
    unfold mul64
    omega
  have hlogits : mul64 cfg.vocab_size 4 = 4 * cfg.vocab_size := by
    unfold mul64
    omega
  unfold scratch_sizes
  rw [h.S_max, h.max_seq]
  simp only [hone _ hD, hone _ hI, hone _ hkv, hscores, hsincos, hlogits]
  rfl

theorem mem_scratch_sizes {cfg : Config} (h : Checked cfg) (s : Scratch) :
    (s, 4 * floats cfg s) ∈ scratch_sizes cfg := by
  have hs : s ∈ workOrder := by cases s <;> decide
  rw [scratch_sizes_eq h]
  exact List.mem_map_of_mem hs

/-! ## The calls before `transformer_init` -/

/-- The contexts that a program can have when it calls `transformer_init`: it has
initialised one, used it in any way, and has loaded the weights and made a cache of any
dimensions, in any order and with other allocations between. -/
inductive Provided (files : WeightFile → Option FileData) :
    GpgpuCtx → Option WeightLoader → Option KvCache → Prop
  | start {ctx0 ctx : GpgpuCtx} {fd : Int} {base size : Nat} {malloc_ok : Slab → Bool}
      {events : List Event} {s : context.State} : Mapped base size →
      gpuInit ctx0 fd base malloc_ok size = some (0, ctx) →
      run context.step ⟨ctx, [], []⟩ events = some s → Provided files s.ctx none none
  | malloc {ctx ctx' : GpgpuCtx} {wl : Option WeightLoader} {c : Option KvCache} {size x : Nat}
      {ok : Bool} : Provided files ctx wl c → gpuMalloc ctx size ok = some (x, ctx') →
      Provided files ctx' wl c
  | load {ctx ctx' : GpgpuCtx} {wl : WeightLoader} {c : Option KvCache} {io : LoadIo} :
      Provided files ctx none c → weight_loader_load files io ctx = some (some wl, ctx') →
      Provided files ctx' (some wl) c
  | create {ctx ctx' : GpgpuCtx} {wl : Option WeightLoader} {c : KvCache} {L H S D : Nat}
      {host_ok K_ok V_ok : Bool} : Provided files ctx wl none →
      kv_cache_create ctx L H S D host_ok K_ok V_ok = some (some c, ctx') →
      Provided files ctx' wl (some c)

/-- The allocations of a loader. -/
def loaderLive : Option WeightLoader → List (Nat × Nat)
  | none => []
  | some wl => regions wl.region_base (List.range 8)

/-- The allocations of a cache of any dimensions. -/
def cacheSpans : Option KvCache → List (Nat × Nat)
  | none => []
  | some c => [(c.V_dev_off, c.asked), (c.K_dev_off, c.asked)]

/-- What has been set up is live, each allocation by itself, and the files lie in theirs. -/
structure Held (T : Nat) (files : WeightFile → Option FileData) (ctx : GpgpuCtx) (pool : Pool)
    (wl : Option WeightLoader) (c : Option KvCache) : Prop where
  carries : Carries T ctx pool
  live : (loaderLive wl ++ cacheSpans c).Subperm pool.live
  loaded : ∀ w, wl = some w → ∀ f ∈ weight_files,
    w.addr f = w.region_base (place f).1 + (place f).2 ∧ Lies files w ctx f

section

variable {T : Nat} {files : WeightFile → Option FileData} {ctx ctx' : GpgpuCtx} {pool pool' : Pool}
  {wl : Option WeightLoader} {c : Option KvCache} {new : List (Nat × Nat)}

theorem mem_regions {region_base : Nat → Nat} {f : WeightFile} (hf : f ∈ weight_files) :
    (region_base (place f).1, plan_bytes (place f).1) ∈ regions region_base (List.range 8) := by
  simp only [regions, List.mem_map, List.mem_range]
  exact ⟨_, (place_fits hf).1, rfl⟩

/-- What has been set up stays when allocations come to it. -/
theorem Held.grows (h : Held T files ctx pool wl c) (hg : Grows T ctx pool new ctx' pool') :
    Held T files ctx' pool' wl c := by
  refine ⟨hg.carries, ?_, fun w hw f hf => ?_⟩
  · rw [hg.live]
    exact h.live.trans (List.sublist_append_right _ _).subperm
  · obtain ⟨haddr, hlies⟩ := h.loaded w hw f hf
    have hmem : (w.region_base (place f).1, plan_bytes (place f).1) ∈ pool.live := by
      apply h.live.subset
      rw [hw]
      exact List.mem_append_left _ (mem_regions hf)
    have hfits := (place_fits hf).2
    exact ⟨haddr, hlies.grows h.carries hmem (by simp only; omega) hg⟩

theorem Provided.held (h : Provided files ctx wl c) : ∃ T pool, Held T files ctx pool wl c := by
  induction h with
  | @start ctx0 ctx fd base size malloc_ok events s hm hinit hrun =>
    obtain ⟨t0, hall⟩ := run_follows_pool hm hinit
    obtain ⟨s', hs', hf⟩ := hall events
    obtain rfl : s = s' := Option.some.inj (hrun.symm.trans hs')
    exact ⟨_, _, hf.carries, List.nil_subperm, by simp⟩
  | @malloc ctx ctx' wl c size x ok _ hcode ih =>
    obtain ⟨T, pool, hh⟩ := ih
    obtain ⟨pool', hcar, hlive, hmap, hkeep⟩ := hh.carries.grant hcode
    have hg : Grows T ctx pool (if x = NO_OFFSET then [] else [(x, size)]) ctx' pool' := by
      refine ⟨hcar, ?_, hmap, hkeep⟩
      rw [hlive]
      split <;> rfl
    exact ⟨T, pool', hh.grows hg⟩
  | @load ctx ctx' wl c io _ hcode ih =>
    obtain ⟨T, pool, hh⟩ := ih
    obtain ⟨pool', hg, hall⟩ := load_spec hh.carries hcode
    refine ⟨T, pool', hg.carries, ?_, fun w hw => ?_⟩
    · rw [hg.live]
      exact List.Subperm.append (List.reverse_perm _).symm.subperm hh.live
    · cases hw
      exact hall
  | @create ctx ctx' wl c L H S D host_ok K_ok V_ok _ hcode ih =>
    obtain ⟨T, pool, hh⟩ := ih
    obtain ⟨pool', hcar, -, hlive, hmap, hkeep⟩ := create_takes hh.carries hcode
    have hg : Grows T ctx pool (cacheSpans (some c)) ctx' pool' := ⟨hcar, hlive, hmap, hkeep⟩
    refine ⟨T, pool', hcar, ?_, (hh.grows hg).loaded⟩
    have hboth := List.Subperm.append (List.Subperm.refl (cacheSpans (some c))) hh.live
    simp only [cacheSpans, List.append_nil] at hboth
    rw [hlive]
    exact (List.perm_append_comm.subperm).trans hboth

end

/-! ## The buffers -/

/-- The offset of a buffer. -/
def bufOff (ws : Workspace) (wl : WeightLoader) (c : KvCache) : Buf → Nat
  | .work s => ws.off s
  | .code k => ws.kbin k
  | .args k => ws.args k
  | .region r => wl.region_base r
  | .keys => c.K_dev_off
  | .vals => c.V_dev_off

/-- The bytes of a buffer, for any config and any cache. -/
def bufBytes (dev : Device) (cfg : Config) (c : KvCache) : Buf → Nat
  | .work s => 4 * floats cfg s
  | .code k => (dev.binary k).length
  | .args _ => 32
  | .region r => plan_bytes r
  | .keys | .vals => c.asked

def workBufs : List Buf := (scratch_sizes transformer_default_config).map fun e => .work e.1

/-- All buffers, in the order of the calls but for the loader and the cache. -/
def setupBufs : List Buf := (List.finRange 8).map .region ++ [.vals, .keys]

def allBufs : List Buf :=
  kernel_list.map .args ++ (kernel_list.map .code ++ (workBufs ++ setupBufs))

theorem mem_allBufs (b : Buf) : b ∈ allBufs := by
  cases b with
  | work s => cases s <;> decide
  | code k => cases k <;> decide
  | args k => cases k <;> decide
  | region r => simp [allBufs, setupBufs]
  | keys => decide
  | vals => decide

section

variable {T : Nat} {files : WeightFile → Option FileData} {ctx ctx' ctx1 : GpgpuCtx} {pool : Pool}
  {dev : Device} {host : Libm} {io : InitIo} {cfg : Config} {ws ws' : Workspace} {wl : WeightLoader}
  {c : KvCache}

theorem setup_owns (h : Held T files ctx pool (some wl) (some c)) :
    Owns (bufOff ws wl c) (bufBytes dev cfg c) setupBufs pool := by
  have hregions : ((List.finRange 8).map Buf.region).map
      (fun b => (bufOff ws wl c b, bufBytes dev cfg c b)) =
      (List.range 8).map fun r => (wl.region_base r, plan_bytes r) := by
    rfl
  unfold Owns setupBufs
  rw [List.map_append, hregions]
  exact h.live

/-- The allocations of `transformer_init` come to those of the loader and the cache. -/
theorem init_owns (h : Held T files ctx pool (some wl) (some c)) (hcfg : Checked cfg)
    {a b d : GpgpuCtx} (hi : Inited dev host io cfg ctx a b d ws ctx') :
    ∃ new pool', Grows T ctx pool new d pool' ∧
      Owns (bufOff ws wl c) (bufBytes dev cfg c) allBufs pool' ∧
      ∀ k, BinaryAt d (ws.kbin k) (dev.binary k) := by
  have hsizes := scratch_sizes_eq hcfg
  have hkeys : ((scratch_sizes cfg).map Prod.fst).Nodup := by
    rw [hsizes, List.map_map]
    exact (by decide : (workOrder.map fun s => s).Nodup)
  obtain ⟨pool1, hg1⟩ := alloc_each_spec h.carries hkeys hi.scratch hi.scratch_ok
  obtain ⟨hbins, pool2, hg2⟩ := load_each_spec hg1.carries (by decide) hi.code hi.code_ok
  obtain ⟨pool3, hg3⟩ := alloc_each_spec hg2.carries (by decide) hi.args (by
    intro e he
    obtain ⟨k, hk, rfl⟩ := List.mem_map.mp he
    exact hi.args_ok k hk)
  have hwork : (scratch_sizes cfg).map (fun e => (ws.off e.1, e.2)) =
      workBufs.map fun b => (bufOff ws wl c b, bufBytes dev cfg c b) := by
    rw [hsizes, show workBufs = workOrder.map .work from rfl, List.map_map, List.map_map]
    rfl
  have hcode : kernel_list.map (fun k => (ws.kbin k, (dev.binary k).length)) =
      (kernel_list.map Buf.code).map fun b => (bufOff ws wl c b, bufBytes dev cfg c b) := by
    rw [List.map_map]
    rfl
  have hargs : (kernel_list.map (·, 32)).map (fun e => (ws.args e.1, e.2)) =
      (kernel_list.map Buf.args).map fun b => (bufOff ws wl c b, bufBytes dev cfg c b) := by
    rw [List.map_map, List.map_map]
    rfl
  have hlive : ∀ k, (ws.kbin k, (dev.binary k).length) ∈ pool2.live := by
    intro k
    rw [hg2.live]
    apply List.mem_append_left
    rw [List.mem_reverse]
    exact List.mem_map_of_mem (by cases k <;> decide)
  rw [hwork] at hg1
  have hbinary : ∀ k, BinaryAt d (ws.kbin k) (dev.binary k) := fun k =>
    (hbins k (by cases k <;> decide)).grows hg2.carries (hlive k) hg3
  rw [hcode] at hg2
  rw [hargs] at hg3
  exact ⟨_, pool3, (hg1.trans hg2).trans hg3, (((setup_owns h).grow _ hg1).grow _ hg2).grow _ hg3,
    hbinary⟩

/-- The buffers of a context that carries them all, as a layout. Each may take more than its
own bytes, up to the end of its block. -/
def layoutAt (ws : Workspace) (wl : WeightLoader) (c : KvCache) {asked : Buf → Nat} (size : Buf → Nat)
    (hcar : Carries T ctx pool) (howns : Owns (bufOff ws wl c) asked allBufs pool)
    (hsize : ∀ b, size b ≤ span (asked b)) : Layout Buf where
  base := ctx.vram_mmap
  top := T
  off := bufOff ws wl c
  size := size
  apart a b hne := howns.spans_apart hcar (mem_allBufs a) (mem_allBufs b) hne (hsize a) (hsize b)
  fits b := howns.span_le hcar (mem_allBufs b) (hsize b)

/-! ## The table and the zeros -/

/-- The buffers of the workspace are where it says, with the sizes of its config. -/
structure Workroom (ws : Workspace) (lay : Layout Buf) : Prop where
  checked : Checked ws.cfg
  ends : lay.base + lay.top < 2 ^ 64
  work : ∀ s, lay.off (.work s) = ws.off s ∧ lay.size (.work s) = 4 * floats ws.cfg s

variable {lay : Layout Buf}

/-- A copy to the start of a buffer of the workspace. -/
theorem copy_work (hp : Workroom ws lay) (hmapped : ctx.vram_mmap = lay.base) (s : Scratch)
    (src : Nat → UInt8) (n : Nat) : gpuMemcpy ctx (ws.off s) src n GPU_MEMCPY_H2D =
      (0, ctx.setMem (copy ctx.buddy.mem (lay.base + lay.off (.work s) + 0) src n), src) := by
  have hfits := lay.fits (.work s)
  have hend := hp.ends
  obtain ⟨hoff, -⟩ := hp.work s
  rw [← hoff, ← hmapped, Nat.add_zero]
  exact gpuMemcpy_H2D (by omega)

/-- The table lies in its buffer, and only the residual buffers change beside it. -/
theorem init_tables_spec (hp : Workroom ws lay) (hmapped : ctx.vram_mmap = lay.base)
    (hcode : init_tables host io ctx ws = some (some ws', ctx1)) :
    ∃ m, ctx1 = ctx.setMem m ∧ lay.Changes tabled ctx.buddy.mem m ∧
      lay.read m (.work .sincos) 0 (128 * ws.cfg.head_dim) =
        sincos_table host ws.cfg.rope_theta 128 ws.cfg.head_dim := by
  have hhd := hp.checked.head_dim
  have hD := hp.checked.D
  unfold init_tables at hcode
  obtain ⟨⟨err, table⟩, htable, hrest⟩ := Option.bind_eq_some_iff.mp hcode
  simp only at hrest
  split at hrest
  · exact absurd hrest init_fail_ne
  next herr =>
    obtain rfl : err = TRANSFORMER_OK := by simpa using herr
    rw [hp.checked.max_seq] at htable hrest
    rw [hp.checked.S_max] at hrest
    have htab := compute_sincos_table_ok htable
    have hlen : table.length = 128 * ws.cfg.head_dim := by rw [htab, sincos_table_length]
    rw [← htab, ← hlen]
    have hsize : ∀ s, lay.size (.work s) = 4 * floats ws.cfg s := fun s => (hp.work s).2
    have hbytes : mul64 (mul64 128 ws.cfg.head_dim) 4 = 4 * table.length := by
      rw [hlen]
      unfold mul64
      omega
    have hresid : mul64 (mul64 1 ws.cfg.D) 4 = 4 * ws.cfg.D := by
      unfold mul64
      omega
    rw [hbytes, hresid, copy_work hp hmapped] at hrest
    -- The table is in place before the zeros come.
    let m := put ctx.buddy.mem (lay.base + lay.off (.work .sincos) + 0) table
    have hput : lay.Changes [.work .sincos] ctx.buddy.mem m :=
      Layout.changes_put (by rw [hsize, hlen, floats]; omega)
    have hread : lay.read m (.work .sincos) 0 table.length = table := Layout.read_put ..
    split at hrest
    · exact absurd hrest init_fail_ne
    split at hrest
    · cases hrest
      refine ⟨m, rfl, fun y hy => hput y fun b hb => hy b ?_, hread⟩
      simp only [List.mem_singleton] at hb
      simp [tabled, hb]
    · -- The zeros come after the table, to buffers of their own.
      have hset : ∀ m', (ctx.setMem m').vram_mmap = lay.base := fun _ => hmapped
      have htwice : ∀ m1 m2, (ctx.setMem m1).setMem m2 = ctx.setMem m2 := fun _ _ => rfl
      have hmem : ∀ m', (ctx.setMem m').buddy.mem = m' := fun _ => rfl
      simp only [copy_work hp (hset _), htwice, hmem, Option.some.injEq, Prod.mk.injEq] at hrest
      obtain ⟨-, rfl⟩ := hrest
      have hzeros : ∀ s, floats ws.cfg s = ws.cfg.D → ∀ m', lay.Changes [.work s] m' (copy m'
          (lay.base + lay.off (.work s) + 0) (fun _ => 0) (4 * ws.cfg.D)) := fun s hs _ =>
        Layout.changes_copy (by rw [hsize, hs]; omega)
      have hA := hzeros .RESID_A rfl m
      have hB := hzeros .RESID_B rfl (copy m (lay.base + lay.off (.work .RESID_A) + 0) (fun _ => 0)
        (4 * ws.cfg.D))
      refine ⟨_, rfl, (hput.trans hA).trans hB, ?_⟩
      exact (((hA.trans hB).same (by decide)).read (by rw [hsize, hlen, floats]; omega)).trans hread

/-! ## After `transformer_init` -/

/-- Every buffer has a live allocation of its own, and the code of the kernels and the files
are in place. -/
structure Housed (T : Nat) (files : WeightFile → Option FileData) (dev : Device) (ws : Workspace)
    (wl : WeightLoader) (c : KvCache) (ctx : GpgpuCtx) (pool : Pool) : Prop where
  checked : Checked ws.cfg
  max_seq : c.max_seq = 128
  carries : Carries T ctx pool
  owns : Owns (bufOff ws wl c) (bufBytes dev ws.cfg c) allBufs pool
  code : ∀ k, BinaryAt ctx (ws.kbin k) (dev.binary k)
  loaded : ∀ f ∈ weight_files,
    wl.addr f = wl.region_base (place f).1 + (place f).2 ∧ Lies files wl ctx f

/-- What `transformer_init` has checked when there is a workspace. -/
theorem init_checks (hcode : transformer_init dev host io ctx c cfg = some (some ws, ctx1)) :
    cfg.S_max = 1 ∧ cfg.max_seq = 128 ∧ c.max_seq = 128 := by
  unfold transformer_init at hcode
  split at hcode
  · cases hcode
  split at hcode
  · cases hcode
  split at hcode
  · cases hcode
  omega

theorem Housed.le_span (h : Housed T files dev ws wl c ctx pool) (b : Buf) :
    bufBytes dev ws.cfg c b ≤ span (bufBytes dev ws.cfg c b) :=
  h.carries.good.le_span (h.owns.mem (mem_allBufs b))

/-- The buffers as a layout. -/
def Housed.layout (h : Housed T files dev ws wl c ctx pool) : Layout Buf :=
  layoutAt ws wl c (bufBytes dev ws.cfg c) h.carries h.owns h.le_span

theorem Housed.workroom (h : Housed T files dev ws wl c ctx pool) : Workroom ws h.layout := by
  refine ⟨h.checked, ?_, fun s => ⟨rfl, rfl⟩⟩
  show ctx.vram_mmap + T < 2 ^ 64
  rw [h.carries.mapped]
  exact h.carries.ends

/-- A byte of a buffer is behind a live allocation. -/
theorem Housed.in_live (h : Housed T files dev ws wl c ctx pool) {b : Buf} {y : Nat}
    (hy : h.layout.In b y) :
    (bufOff ws wl c b, bufBytes dev ws.cfg c b) ∈ pool.live ∧
      InSpan ctx.vram_mmap (bufOff ws wl c b, bufBytes dev ws.cfg c b) y := by
  refine ⟨h.owns.mem (mem_allBufs b), hy.1, Nat.lt_of_lt_of_le hy.2 ?_⟩
  exact Nat.add_le_add_left (h.le_span b) _

/-- A byte of a file is in the region of the file. -/
theorem Housed.in_region (h : Housed T files dev ws wl c ctx pool) {f : WeightFile}
    (hf : f ∈ weight_files) {i : Nat} (hi : i < expected_bytes f) :
    h.layout.In (.region ⟨(place f).1, (place_fits hf).1⟩) (ctx.vram_mmap + wl.addr f + i) := by
  have haddr := (h.loaded f hf).1
  have hfits := (place_fits hf).2
  show ctx.vram_mmap + wl.region_base (place f).1 ≤ _ ∧
    _ < ctx.vram_mmap + wl.region_base (place f).1 + plan_bytes (place f).1
  omega

/-- Bytes of the buffers may change, but for the code and the files. -/
theorem Housed.setMem (h : Housed T files dev ws wl c ctx pool) {m : Mem}
    (hm : ∀ y, (∀ b, (∀ k, b ≠ .code k) → (∀ r, b ≠ .region r) → ¬ h.layout.In b y) →
      m y = ctx.buddy.mem y) : Housed T files dev ws wl c (ctx.setMem m) pool := by
  refine ⟨h.checked, h.max_seq, h.carries.setMem fun y hy => hm y fun b _ _ hin => ?_, h.owns,
    fun k i hi => ?_, fun f hf => ⟨(h.loaded f hf).1, ?_⟩⟩
  · obtain ⟨hlive, hspan⟩ := h.in_live hin
    rw [h.carries.mapped] at hspan
    exact hy _ hlive hspan
  · have hcode : h.layout.In (.code k) (ctx.vram_mmap + ws.kbin k + i) :=
      ⟨Nat.le_add_right .., Nat.add_lt_add_left hi _⟩
    rw [← h.code k i hi]
    exact hm _ fun b hb _ hin => hb k (hin.unique hcode)
  · obtain ⟨file, hfile, hbytes⟩ := (h.loaded f hf).2
    refine ⟨file, hfile, fun i hi => ?_⟩
    rw [← hbytes i hi]
    exact hm _ fun b _ hb hin => hb _ (hin.unique (h.in_region hf hi))

/-- After `transformer_init` the buffers are there, and the table lies in its own. -/
theorem init_housed (h : Held T files ctx pool (some wl) (some c)) (htyped : Typed cfg)
    (hinit : transformer_init dev host io ctx c cfg = some (some ws, ctx')) :
    ∃ pool', ∃ hh : Housed T files dev ws wl c ctx' pool',
      hh.layout.read ctx'.buddy.mem (.work .sincos) 0 (128 * cfg.head_dim) =
        sincos_table host cfg.rope_theta 128 cfg.head_dim := by
  obtain ⟨h1, h2, h3⟩ := init_checks hinit
  obtain ⟨a, b, d, hi⟩ := init_cases hinit
  obtain ⟨new, pool', hg, howns, hbin⟩ := init_owns h ⟨htyped, h1, h2⟩ hi
  obtain rfl := hi.cfg_eq
  have hd : Housed T files dev ws wl c d pool' :=
    ⟨⟨htyped, h1, h2⟩, h3, hg.carries, howns, hbin, (h.grows hg).loaded wl rfl⟩
  obtain ⟨m, rfl, hm, hsincos⟩ := init_tables_spec hd.workroom rfl hi.tables
  have htabled : ∀ b ∈ tabled, (∀ k, b ≠ .code k) ∧ ∀ r, b ≠ .region r := by simp [tabled]
  exact ⟨pool', hd.setMem fun y hy => hm y fun b hb => hy b (htabled b hb).1 (htabled b hb).2,
    hsincos⟩

end

end gpgpu.desk
