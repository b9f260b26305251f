-- The laws of the tensors: after a load each tensor has a range of bytes of its own in
-- the regions of the loader, and the range holds what the file of the tensor holds.
import Gpgpu.LifeLaws
import Gpgpu.DecodeLaws

open memory runs

namespace gpgpu.weights

open buddy context desk

/-! ## The tensors of a layer -/

/-- The tensors in the order in which they lie in the file of a layer. -/
def layer_tensors : List Tensor :=
  [.input_norm, .q_proj_w, .q_proj_b, .k_proj_w, .k_proj_b, .v_proj_w, .v_proj_b, .o_proj_w,
    .post_norm, .gate_proj_w, .up_proj_w, .down_proj_w]

theorem mem_layer_tensors (t : Tensor) : t ∈ layer_tensors := by
  cases t <;> decide

/-- The bytes of a tensor. -/
def TensorInfo.bytes (i : TensorInfo) : Nat := 4 * i.n_floats

/-- Two tensors of a layer lie apart in its file. -/
theorem tensors_apart {t u : Tensor} (hne : t ≠ u) :
    (TENSOR_TABLE t).offset + (TENSOR_TABLE t).bytes ≤ (TENSOR_TABLE u).offset ∨
      (TENSOR_TABLE u).offset + (TENSOR_TABLE u).bytes ≤ (TENSOR_TABLE t).offset := by
  have hpairs : ∀ t ∈ layer_tensors, ∀ u ∈ layer_tensors, t ≠ u →
      (TENSOR_TABLE t).offset + (TENSOR_TABLE t).bytes ≤ (TENSOR_TABLE u).offset ∨
        (TENSOR_TABLE u).offset + (TENSOR_TABLE u).bytes ≤ (TENSOR_TABLE t).offset := by decide
  exact hpairs t (mem_layer_tensors t) u (mem_layer_tensors u) hne

/-! ## The ranges -/

/-- The tensors that the loader has an address for. -/
inductive Range
  | layer (l : Fin WL_NUM_LAYERS) (t : Tensor)
  | embedding | lm_head | final_norm
deriving DecidableEq

namespace Range

/-- What the loader answers when it is asked for the tensor. -/
def addr (wl : WeightLoader) : Range → Option Nat
  | .layer l t => weight_loader_layer wl l t
  | .embedding => some (weight_loader_embedding wl)
  | .lm_head => some (weight_loader_lm_head wl)
  | .final_norm => some (weight_loader_final_norm wl)

def file : Range → WeightFile
  | .layer l _ => .layer l
  | .embedding => .embedding
  | .lm_head => .lm_head
  | .final_norm => .final_norm

/-- Where the tensor begins in its file. -/
def start : Range → Nat
  | .layer _ t => (TENSOR_TABLE t).offset
  | _ => 0

def bytes : Range → Nat
  | .layer _ t => (TENSOR_TABLE t).bytes
  | .embedding => WL_EMBEDDING_BYTES
  | .lm_head => WL_LM_HEAD_BYTES
  | .final_norm => WL_FINAL_NORM_BYTES

theorem file_mem (n : Range) : n.file ∈ weight_files := by
  cases n with
  | layer l t => simp [file, weight_files]
  | embedding => decide
  | lm_head => decide
  | final_norm => decide

theorem fits (n : Range) : n.start + n.bytes ≤ expected_bytes n.file := by
  cases n with
  | layer l t => exact tensor_fits t
  | embedding => exact Nat.le_refl _
  | lm_head => exact Nat.le_refl _
  | final_norm => exact Nat.le_refl _

/-- The address of a tensor is that of its file, and where in the file it begins. -/
theorem addr_eq {wl : WeightLoader} (hsmall : ∀ f ∈ weight_files, wl.addr f + expected_bytes f < 2 ^ 64)
    (n : Range) : n.addr wl = some (wl.addr n.file + n.start) := by
  cases n with
  | layer l t =>
    have hlt := hsmall _ (file_mem (.layer l t))
    have hfits := tensor_fits t
    simp only [addr, weight_loader_layer, file, start, WeightLoader.addr, if_pos l.isLt] at hlt ⊢
    rw [add64_eq]
    simp only [expected_bytes] at hlt
    omega
  | embedding => rfl
  | lm_head => rfl
  | final_norm => rfl

/-- Tensors of one file lie apart in it. -/
theorem apart {n k : Range} (hne : n ≠ k) (hfile : n.file = k.file) :
    n.start + n.bytes ≤ k.start ∨ k.start + k.bytes ≤ n.start := by
  cases n <;> cases k <;> simp only [file, WeightFile.layer.injEq, reduceCtorEq] at hfile
  case layer.layer l t l' u =>
    have htu : t ≠ u := fun heq => hne (by rw [heq, Fin.ext hfile])
    exact tensors_apart htu
  all_goals exact absurd rfl hne

end Range

/-! ## After a load -/

/-- Every file has been found in its full size. -/
theorem load_checked {files : WeightFile → Option FileData} {io : LoadIo} {ctx ctx' : GpgpuCtx}
    {wl : WeightLoader} (hcode : weight_loader_load files io ctx = some (some wl, ctx'))
    {f : WeightFile} (hf : f ∈ weight_files) {file : FileData} (hfile : files f = some file) :
    file.size = expected_bytes f := by
  unfold weight_loader_load at hcode
  split at hcode
  · cases hcode
  next hall =>
    simp only [List.any_eq_true, not_exists, not_and] at hall
    have hcheck := hall f hf
    unfold check_file_size at hcheck
    rw [hfile] at hcheck
    by_contra hsize
    simp [hsize] at hcheck

/-- The range of the tensor `n`: it lies in a region of the loader and holds what the file
holds. -/
structure Stored (files : WeightFile → Option FileData) (wl : WeightLoader) (ctx : GpgpuCtx)
    (n : Range) (x : Nat) : Prop where
  inside : ∃ r < NUM_REGIONS, wl.region_base r ≤ x ∧ x + n.bytes ≤ wl.region_base r + plan_bytes r
  holds : ∃ file, files n.file = some file ∧ file.size = expected_bytes n.file ∧
    ∀ i < n.bytes, ctx.buddy.mem (ctx.vram_mmap + x + i) = file.data (n.start + i)

/-- After a load in any state that a run reaches, the loader owns its regions, each tensor
is stored where the loader says, and no two tensors share a byte. -/
theorem every_tensor_has_its_own_range {ctx0 ctx : GpgpuCtx} {fd : Int} {base size : Nat}
    {malloc_ok : Slab → Bool} (hm : Mapped base size)
    (hinit : gpuInit ctx0 fd base malloc_ok size = some (0, ctx)) {events : List Event}
    {s : context.State} (hrun : run context.step ⟨ctx, [], []⟩ events = some s)
    {files : WeightFile → Option FileData} {io : LoadIo} {wl : WeightLoader} {ctx' : GpgpuCtx}
    (hload : weight_loader_load files io s.ctx = some (some wl, ctx')) :
    (∃ calls s', run context.step s calls = some s' ∧ s'.ctx = ctx' ∧
      s'.live.Perm (regions wl.region_base (List.range NUM_REGIONS) ++ s.live)) ∧
    (∀ n : Range, ∃ x, n.addr wl = some x ∧ Stored files wl ctx' n x) ∧
    ∀ n k : Range, n ≠ k → ∀ x y, n.addr wl = some x → k.addr wl = some y →
      x + n.bytes ≤ y ∨ y + k.bytes ≤ x := by
  obtain ⟨t0, hfollow⟩ := run_follows_pool hm hinit
  obtain ⟨s1, hs1, hf⟩ := hfollow events
  obtain rfl : s1 = s := by
    rw [hrun] at hs1
    cases hs1
    rfl
  obtain ⟨pool, hgrows, hspec⟩ := load_spec hf.carries hload
  have howns : Owns wl.region_base plan_bytes (List.range 8) pool := by
    unfold Owns
    rw [hgrows.live]
    exact (List.reverse_perm _).symm.subperm.trans (List.sublist_append_left _ _).subperm
  have hinside : ∀ f ∈ weight_files, wl.region_base (place f).1 ≤ wl.addr f ∧
      wl.addr f + expected_bytes f ≤ wl.region_base (place f).1 + plan_bytes (place f).1 := by
    intro f hf
    obtain ⟨-, hin⟩ := place_fits hf
    rw [(hspec f hf).1]
    omega
  have hsmall : ∀ f ∈ weight_files, wl.addr f + expected_bytes f < 2 ^ 64 := by
    intro f hf
    have hle := howns.le hgrows.carries (List.mem_range.mpr (place_fits hf).1)
    have hin := hinside f hf
    have hT := hgrows.carries.small
    omega
  have haddr := Range.addr_eq hsmall
  refine ⟨?_, fun n => ⟨_, haddr n, ?_, ?_⟩, fun n k hne x y hx hy => ?_⟩
  · have hsettles := load_settles ⟨_, hf⟩ files io
    rw [hload] at hsettles
    obtain ⟨hall, s', hctx, htook⟩ := hsettles
    obtain ⟨calls, hcalls⟩ := htook.leads.steps
    have htaken : taken (regions wl.region_base (List.range NUM_REGIONS)) =
        regions wl.region_base (List.range NUM_REGIONS) :=
      List.filter_eq_self.mpr fun e he => by simpa using hall e he
    exact ⟨calls, s', hcalls, hctx, htaken ▸ htook.live⟩
  · have hin := hinside _ n.file_mem
    have hfits := n.fits
    exact ⟨_, (place_fits n.file_mem).1, by omega, by omega⟩
  · obtain ⟨file, hfile, hbytes⟩ := (hspec _ n.file_mem).2
    refine ⟨file, hfile, load_checked hload n.file_mem hfile, fun i hi => ?_⟩
    have hfits := n.fits
    rw [← hbytes (n.start + i) (by omega)]
    congr 1
    omega
  · rw [haddr n] at hx
    rw [haddr k] at hy
    cases hx
    cases hy
    by_cases hfile : n.file = k.file
    · have hap := Range.apart hne hfile
      rw [hfile]
      omega
    · have hap := addr_apart hgrows.carries howns (fun f hf => (hspec f hf).1) n.file_mem k.file_mem
        hfile
      have hn := n.fits
      have hk := k.fits
      omega

/-- Files of zeros on a device with 4 GiB. -/
theorem tensors_of_a_load : ∃ ctx wl ctx', gpuInit blankCtx 3 4096 (fun _ => true) (2 ^ 32) =
      some (0, ctx) ∧ weight_loader_load zeroFiles goodLoad ctx = some (some wl, ctx') ∧
      (∀ n : Range, ∃ x, n.addr wl = some x ∧ Stored zeroFiles wl ctx' n x) := by
  obtain ⟨⟨_, wl, _, _, _⟩, h⟩ := Option.isSome_iff_exists.mp setup_goes_well
  obtain ⟨ctx, ctx', h0, h1, -, -⟩ := setup_cases h
  have hrun : run context.step ⟨ctx, [], []⟩ [] = some ⟨ctx, [], []⟩ := rfl
  obtain ⟨-, hstored, -⟩ := every_tensor_has_its_own_range ⟨by decide, by decide⟩ h0 hrun h1
  exact ⟨ctx, wl, ctx', h0, h1, hstored⟩

end gpgpu.weights
