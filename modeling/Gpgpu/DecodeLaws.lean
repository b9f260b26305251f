-- From the calls that set the library up to the tokens that come out: after
-- `weight_loader_load`, `kv_cache_create` and `transformer_init` the buffers lie apart,
-- and the calls of `transformer_step` return the tokens of the reference decoder.
import Gpgpu.SetupLaws
import Gpgpu.DeskLayer

open memory words buffers runs

namespace gpgpu.desk

open buddy context kernels device kv weights transformer reference

/-! ## The calls before `transformer_init` -/

/-- The contexts that a program can have when it calls `transformer_init` for the default
config: the cache is a new one with the sizes of that config. -/
structure Prepared (files : WeightFile → Option FileData) (ctx : GpgpuCtx) (wl : Option WeightLoader)
    (c : Option KvCache) : Prop where
  provided : Provided files ctx wl c
  fresh : ∀ k, c = some k → k = ⟨24, 2, 128, 64, k.K_dev_off, k.V_dev_off, 0, 0⟩

/-- `kv_cache_create` makes such a cache. -/
theorem Provided.prepared {files : WeightFile → Option FileData} {ctx ctx' : GpgpuCtx}
    {wl : Option WeightLoader} {c : KvCache} {host_ok K_ok V_ok : Bool}
    (h : Provided files ctx wl none)
    (hcode : kv_cache_create ctx 24 2 128 64 host_ok K_ok V_ok = some (some c, ctx')) :
    Prepared files ctx' wl (some c) := by
  obtain ⟨T, pool, hheld⟩ := h.held
  obtain ⟨-, -, hc, -⟩ := create_takes hheld.carries hcode
  exact ⟨.create h hcode, fun k hk => by cases hk; exact hc⟩

/-! ## The buffers after `transformer_init` -/

/-- The bytes of a buffer, with the default config and a cache of its sizes. -/
def bufSize (dev : Device) : Buf → Nat :=
  bufBytes dev transformer_default_config ⟨24, 2, 128, 64, 0, 0, 0, 0⟩

section

variable {T : Nat} {files : WeightFile → Option FileData} {ctx ctx' : GpgpuCtx} {pool : Pool}
  {dev : Device} {host : Libm} {io : InitIo} {ws : Workspace} {wl : WeightLoader} {c : KvCache}

theorem bufSize_work (s : Scratch) : bufSize dev (.work s) = workBytes s := by
  cases s <;> rfl

theorem default_asked (K_dev_off V_dev_off filled pending : Nat) :
    (KvCache.mk 24 2 128 64 K_dev_off V_dev_off filled pending).asked = CACHE_BYTES := by
  rw [asked_eq (by rw [default_bytes]; decide), default_bytes]

theorem bufSize_cache : bufSize dev .keys = CACHE_BYTES ∧ bufSize dev .vals = CACHE_BYTES :=
  ⟨default_asked .., default_asked ..⟩

theorem bufBytes_default (hfresh : c = ⟨24, 2, 128, 64, c.K_dev_off, c.V_dev_off, 0, 0⟩) :
    bufBytes dev transformer_default_config c = bufSize dev := by
  rw [hfresh]
  rfl

theorem default_checked : Checked transformer_default_config := by
  refine ⟨⟨?_, ?_, ?_, ?_, ?_, ?_⟩, rfl, rfl⟩ <;> decide

/-! ## The model in the files -/

/-- The bytes of a file. -/
def fileBytes (files : WeightFile → Option FileData) (f : WeightFile) : Mem := fun i =>
  match files f with
  | none => 0
  | some file => file.data i

/-- The words of a file from byte `i` on. -/
def fileWords (files : WeightFile → Option FileData) (f : WeightFile) (i n : Nat) : List Word :=
  vec (word (fileBytes files f)) i n

/-- The model that the files and the default config describe. -/
def modelOf (host : Libm) (files : WeightFile → Option FileData) : Model where
  embedding := fileWords files .embedding 0 (WL_VOCAB_SIZE * WL_HIDDEN_SIZE)
  lm_head := fileWords files .lm_head 0 (WL_HIDDEN_SIZE * WL_VOCAB_SIZE)
  final_norm := fileWords files .final_norm 0 WL_HIDDEN_SIZE
  tensor l t := fileWords files (.layer l) (TENSOR_TABLE t).offset (TENSOR_TABLE t).n_floats
  sincos := sincos_table host transformer_default_config.rope_theta 128 64
  inv_d := host.div ONE (host.ofNat 896)
  eps := transformer_default_config.rms_norm_eps
  scale := host.div ONE (host.sqrtf (host.ofNat 64))

/-- A stretch of a file is in the region of the file. -/
theorem rom_of_file {lay : Layout Buf} {m : Mem} {f : WeightFile} {i n : Nat}
    (hregion : ∀ r : Fin 8, lay.off (.region r) = wl.region_base r ∧
      lay.size (.region r) = plan_bytes r) (hf : f ∈ weight_files)
    (haddr : wl.addr f = wl.region_base (place f).1 + (place f).2)
    (hbytes : ∀ j < expected_bytes f, m (lay.base + wl.addr f + j) = fileBytes files f j)
    (hi : i + 4 * n ≤ expected_bytes f) : Rom lay m (wl.addr f + i) n (fileWords files f i n) := by
  obtain ⟨hr, hfits⟩ := place_fits hf
  obtain ⟨hoff, hsize⟩ := hregion ⟨(place f).1, hr⟩
  simp only at hoff hsize
  refine ⟨⟨(place f).1, hr⟩, (place f).2 + i, by omega, by omega, ?_⟩
  apply vec_congr
  intro k hk
  apply word_congr
  intro j hj
  rw [← hbytes (i + 4 * k + j) (by omega)]
  congr 1
  omega

/-- The tensors of a layer lie in its file. -/
theorem tensor_fits (t : Tensor) :
    (TENSOR_TABLE t).offset + 4 * (TENSOR_TABLE t).n_floats ≤ WL_LAYER_BYTES := by
  cases t <;> decide

/-! ## The tokens -/

/-- The buffers that may have any content before the first step: the scratch buffers, the
logits and the cache. -/
def anyContent : List Buf :=
  [.work .RESID_A, .work .RESID_B, .work .SCRATCH_X, .work .SCRATCH_Q, .work .SCRATCH_K,
    .work .SCRATCH_V, .work .SCRATCH_SCORES, .work .SCRATCH_FFN_A, .work .SCRATCH_FFN_B,
    .work .LOGITS, .keys, .vals]

/-- The memory `m` is that of the context, but for the buffers that may have any
content. -/
def AgreesBeside (dev : Device) (ws : Workspace) (wl : WeightLoader) (c : KvCache) (ctx : GpgpuCtx)
    (m : Mem) : Prop :=
  ∀ y, (∀ b ∈ anyContent, ¬ (ctx.vram_mmap + bufOff ws wl c b ≤ y ∧
    y < ctx.vram_mmap + bufOff ws wl c b + bufSize dev b)) → m y = ctx.buddy.mem y

theorem Housed.bufs (hh : Housed T files dev ws wl c ctx pool)
    (hcfg : ws.cfg = transformer_default_config)
    (hfresh : c = ⟨24, 2, 128, 64, c.K_dev_off, c.V_dev_off, 0, 0⟩) (b : Buf) :
    hh.layout.off b = bufOff ws wl c b ∧ hh.layout.size b = bufSize dev b := by
  refine ⟨rfl, ?_⟩
  rw [← bufBytes_default hfresh, ← hcfg]
  rfl

theorem Housed.placed (hh : Housed T files dev ws wl c ctx pool)
    (hcfg : ws.cfg = transformer_default_config)
    (hfresh : c = ⟨24, 2, 128, 64, c.K_dev_off, c.V_dev_off, 0, 0⟩) : Placed dev ws wl hh.layout := by
  have hsize := fun b => (hh.bufs hcfg hfresh b).2
  refine ⟨hcfg, hh.carries.small, hh.workroom.ends, fun s => ⟨rfl, ?_⟩, fun k => ⟨rfl, rfl⟩,
    fun k => ⟨rfl, rfl⟩, fun r => ⟨rfl, rfl⟩, ?_, ?_⟩
  · rw [hsize, bufSize_work]
  · rw [hsize, bufSize_cache.1]
  · rw [hsize, bufSize_cache.2]

/-- The code and the weights are in place, whatever the buffers hold that may have any
content. -/
theorem Housed.model_beside (hh : Housed T files dev ws wl c ctx pool)
    (hcfg : ws.cfg = transformer_default_config)
    (hfresh : c = ⟨24, 2, 128, 64, c.K_dev_off, c.V_dev_off, 0, 0⟩) {m : Mem}
    (hch : hh.layout.Changes anyContent ctx.buddy.mem m) :
    Loaded ⟨dev, host, fun _ => true⟩ ws wl hh.layout (modelOf host files) m := by
  have hp := hh.placed hcfg hfresh
  have hbytes : ∀ f ∈ weight_files, ∀ j < expected_bytes f,
      m (hh.layout.base + wl.addr f + j) = fileBytes files f j := by
    intro f hf j hj
    obtain ⟨file, hfile, hdata⟩ := (hh.loaded f hf).2
    have hsame : m (hh.layout.base + wl.addr f + j) = ctx.buddy.mem (ctx.vram_mmap + wl.addr f + j) :=
      hch.same (by simp [anyContent]) _ (hh.in_region hf hj)
    rw [hsame, fileBytes, hfile]
    exact hdata j hj
  have hrom : ∀ f ∈ weight_files, ∀ i n, i + 4 * n ≤ expected_bytes f →
      Rom hh.layout m (wl.addr f + i) n (fileWords files f i n) := fun f hf i n hin =>
    rom_of_file hp.region hf (hh.loaded f hf).1 (hbytes f hf) hin
  have hwhole : ∀ f ∈ weight_files, ∀ n, 4 * n = expected_bytes f →
      Rom hh.layout m (wl.addr f) n (fileWords files f 0 n) := by
    intro f hf n hn
    have hall := hrom f hf 0 n (by omega)
    rwa [Nat.add_zero] at hall
  have hembedding : Rom hh.layout m wl.embedding_addr (WL_VOCAB_SIZE * WL_HIDDEN_SIZE)
      (fileWords files .embedding 0 (WL_VOCAB_SIZE * WL_HIDDEN_SIZE)) :=
    hwhole .embedding (by decide) _ (Nat.mul_comm ..)
  have hlm_head : Rom hh.layout m wl.lm_head_addr (WL_HIDDEN_SIZE * WL_VOCAB_SIZE)
      (fileWords files .lm_head 0 (WL_HIDDEN_SIZE * WL_VOCAB_SIZE)) :=
    hwhole .lm_head (by decide) _ (Nat.mul_comm ..)
  have hfinal_norm : Rom hh.layout m wl.final_norm_addr WL_HIDDEN_SIZE
      (fileWords files .final_norm 0 WL_HIDDEN_SIZE) :=
    hwhole .final_norm (by decide) _ (Nat.mul_comm ..)
  refine ⟨hp, fun k i hk => ?_, fun l hl t => ?_, ?_, ?_, ?_, rfl, rfl, rfl, fun _ => rfl⟩
  · rw [hch.same (b := .code k) (by simp [anyContent]) _ ⟨by omega, Nat.add_lt_add_left hk _⟩]
    exact hh.code k i hk
  · have hlayer : WeightFile.layer l ∈ weight_files := by
      simp only [weight_files, List.mem_append, List.mem_map, List.mem_range]
      exact Or.inr ⟨l, hl, rfl⟩
    have hroms := hrom (.layer l) hlayer _ _ (tensor_fits t)
    obtain ⟨r, i, hx, hin, -⟩ := id hroms
    have hfits := hh.layout.fits (.region r)
    have hsmall := hp.small
    refine ⟨_, ?_, hroms⟩
    have hadd : add64 (wl.layer_base l) (TENSOR_TABLE t).offset =
        wl.addr (.layer l) + (TENSOR_TABLE t).offset :=
      add64_eq (show wl.addr (.layer l) + (TENSOR_TABLE t).offset < 2 ^ 64 by omega)
    unfold weight_loader_layer
    rw [if_pos hl, hadd]
  · simp only [modelOf]
    exact hembedding
  · simp only [modelOf]
    exact hlm_head
  · simp only [modelOf]
    exact hfinal_norm

/-- After `transformer_init` the code, the weights and the table are in place. -/
theorem loaded_after_init (hprep : Prepared files ctx (some wl) (some c))
    (hinit : transformer_init dev host io ctx c transformer_default_config = some (some ws, ctx'))
    {m : Mem} (hm : AgreesBeside dev ws wl c ctx' m) :
    ∃ T pool, ∃ hh : Housed T files dev ws wl c ctx' pool,
      Loaded ⟨dev, host, fun _ => true⟩ ws wl hh.layout (modelOf host files) m ∧
        hh.layout.read m (.work .sincos) 0 8192 = (modelOf host files).sincos := by
  obtain ⟨T, pool, hheld⟩ := hprep.provided.held
  obtain ⟨a, b, d, hi⟩ := init_cases hinit
  have hfresh := hprep.fresh c rfl
  obtain ⟨pool', hh, hsincos⟩ := init_housed hheld default_checked.toTyped hinit
  have hch : hh.layout.Changes anyContent ctx'.buddy.mem m := by
    intro y hy
    refine hm y fun b hb hin => hy b hb ?_
    rw [← (hh.bufs hi.cfg_eq hfresh b).2] at hin
    exact hin
  have hload : Loaded ⟨dev, host, fun _ => true⟩ ws wl hh.layout (modelOf host files) m :=
    hh.model_beside hi.cfg_eq hfresh hch
  refine ⟨T, pool', hh, hload, ?_⟩
  rw [show transformer_default_config.head_dim = 64 from rfl] at hsincos
  rw [(hch.same (by decide)).read (by rw [(hload.work _).2]; decide), hsincos]
  simp only [modelOf]

/-- The `i`-th call of `transformer_step` returns the token that the reference decoder
computes for the tokens up to `i`, whatever the scratch buffers, the logits and the cache
hold at the start. -/
theorem steps_return_the_reference_tokens (hprep : Prepared files ctx (some wl) (some c))
    (hinit : transformer_init dev host io ctx c transformer_default_config = some (some ws, ctx'))
    {m : Mem} (hm : AgreesBeside dev ws wl c ctx' m) (toks : List Nat) (hlen : toks.length ≤ 128)
    (hids : ∀ x ∈ toks, x < transformer_default_config.vocab_size) :
    ∃ st, decode ⟨dev, host, fun _ => true⟩ ws wl 0 toks ⟨ctx'.setMem m, c, 0⟩ =
      some ((List.range toks.length).map fun i => ((reference_token dev.fpu transformer_default_config
        (modelOf host files) (toks.take (i + 1))).toNat : Int), st) := by
  obtain ⟨T, pool, hh, hl, hsincos⟩ := loaded_after_init hprep hinit hm
  let d : Desk :=
    ⟨fun s => hh.layout.read m (.work s) 0 (workBytes s / 4), [], fun _ => [], fun _ => [], 0, 0⟩
  have hat : At hh.layout m ⟨ctx'.setMem m, c, 0⟩ d := by
    refine ⟨rfl, ⟨fun k y _ => rfl, fun r y _ => rfl, fun s _ => rfl, by simp [d], by simp [d],
      fun l _ => by simp [d], fun l _ => by simp [d]⟩, ?_, by simp [d], by simp [d], by simp [d],
      by simp [d]⟩
    exact hprep.fresh c rfl
  have hafter : d.After dev.fpu (modelOf host files) [] := by
    have hwords : workBytes .sincos / 4 = 8192 := by decide
    refine ⟨by simp only [d, hwords]; exact hsincos, rfl, rfl, fun l _ => ?_, fun l _ => ?_⟩
    · exact (List.length_eq_zero_iff.mp (keysFor_length ..)).symm
    · exact (List.length_eq_zero_iff.mp (valuesFor_length ..)).symm
  exact hl.decode_spec toks [] _ d (by simpa using hlen) hids hat hafter

end

/-! ## A setup that goes well -/

/-- Files of the right sizes. -/
def zeroFiles : WeightFile → Option FileData := fun f => some ⟨expected_bytes f, fun _ => 0⟩

def goodLoad : LoadIo := ⟨true, fun _ => true, fun _ => true⟩

def goodInit : InitIo :=
  ⟨true, fun _ => true, fun _ => true, fun _ => true, fun _ => true, true, true⟩

/-- The one byte of the binary of a kernel. -/
def mark : Kernel → UInt8
  | .rmsnorm => 0
  | .gemm => 1
  | .broadcast_add => 2
  | .silu => 3
  | .vmul => 4
  | .rope => 5
  | .embedding_lookup => 6
  | .argmax => 7
  | .qkt_decode => 8
  | .softmax_decode => 9
  | .pv_decode => 10

/-- A device that adds and multiplies words. -/
def wordDevice : Device where
  fpu := ⟨(· + ·), (· - ·), (· * ·), (· / ·), max, fun a b c => a * b + c, id, id,
    fun a b => decide (a < b), fun a b => decide (a = b)⟩
  binary k := [mark k]
  decode code := kernel_list.find? fun k => code 0 = mark k
  decode_binary k code h := by
    have hfirst : code 0 = mark k := h 0 Nat.one_pos
    cases k <;> simp [kernel_list, mark, hfirst]

def wordHost : Libm :=
  ⟨UInt32.ofNat, (· * ·), (· / ·), (· - ·), id, fun a _ => a, id, id, id, fun _ _ => false⟩

/-- The calls of a setup in a row. -/
def setup (size : Nat) : Option (GpgpuCtx × WeightLoader × KvCache × Workspace × GpgpuCtx) :=
  (gpuInit blankCtx 3 4096 (fun _ => true) size).bind fun r0 =>
  (weight_loader_load zeroFiles goodLoad r0.2).bind fun r1 => r1.1.bind fun wl =>
  (kv_cache_create r1.2 24 2 128 64 true true true).bind fun r2 => r2.1.bind fun c =>
  (transformer_init wordDevice wordHost goodInit r2.2 c transformer_default_config).bind fun r3 =>
  r3.1.bind fun ws => if r0.1 = 0 then some (r2.2, wl, c, ws, r3.2) else none

section

variable {size : Nat} {ctx ctx' : GpgpuCtx} {wl : WeightLoader} {c : KvCache} {ws : Workspace}

/-- The calls of a setup, when all of them go well. -/
theorem setup_cases (h : setup size = some (ctx, wl, c, ws, ctx')) : ∃ ctx0 ctx1,
    gpuInit blankCtx 3 4096 (fun _ => true) size = some (0, ctx0) ∧
    weight_loader_load zeroFiles goodLoad ctx0 = some (some wl, ctx1) ∧
    kv_cache_create ctx1 24 2 128 64 true true true = some (some c, ctx) ∧
    transformer_init wordDevice wordHost goodInit ctx c transformer_default_config =
      some (some ws, ctx') := by
  unfold setup at h
  simp only [Option.bind_eq_some_iff] at h
  obtain ⟨⟨rc, ctx0⟩, h0, ⟨wl0, ctx1⟩, h1, wl1, hwl, ⟨c0, ctx2⟩, h2, c1, hc, ⟨ws0, ctx3⟩, h3, ws1, hws,
    hlast⟩ := h
  simp only at hwl hc hws hlast
  split at hlast
  next hrc =>
    simp only [Option.some.injEq, Prod.mk.injEq] at hlast
    obtain ⟨rfl, rfl, rfl, rfl, rfl⟩ := hlast
    subst hrc hwl hc hws
    exact ⟨ctx0, ctx1, h0, h1, h2, h3⟩
  next => cases hlast

theorem setup_spec (hm : Mapped 4096 size) (h : setup size = some (ctx, wl, c, ws, ctx')) :
    Prepared zeroFiles ctx (some wl) (some c) ∧
      transformer_init wordDevice wordHost goodInit ctx c transformer_default_config =
        some (some ws, ctx') := by
  obtain ⟨ctx0, ctx1, h0, h1, h2, h3⟩ := setup_cases h
  have hrun : run context.step ⟨ctx0, [], []⟩ [] = some ⟨ctx0, [], []⟩ := rfl
  have hloaded : Provided zeroFiles ctx1 (some wl) none := .load (.start hm h0 hrun) h1
  exact ⟨hloaded.prepared h2, h3⟩

end

theorem setup_goes_well : (setup (2 ^ 32)).isSome = true := by
  decide +kernel

/-- Three tokens after a setup on a device with 4 GiB. -/
theorem three_tokens_after_a_setup : ∃ ctx wl c ws ctx',
    setup (2 ^ 32) = some (ctx, wl, c, ws, ctx') ∧
      ∃ st, decode ⟨wordDevice, wordHost, fun _ => true⟩ ws wl 0 [7, 0, 151935]
          ⟨ctx'.setMem ctx'.buddy.mem, c, 0⟩ =
        some ((List.range 3).map fun i => ((reference_token wordDevice.fpu transformer_default_config
          (modelOf wordHost zeroFiles) ([7, 0, 151935].take (i + 1))).toNat : Int), st) := by
  obtain ⟨⟨ctx, wl, c, ws, ctx'⟩, h⟩ := Option.isSome_iff_exists.mp setup_goes_well
  obtain ⟨hprep, hinit⟩ := setup_spec ⟨by decide, by decide⟩ h
  exact ⟨ctx, wl, c, ws, ctx', h, steps_return_the_reference_tokens hprep hinit (fun _ _ => rfl)
    [7, 0, 151935] (by decide) (by decide)⟩

end gpgpu.desk
