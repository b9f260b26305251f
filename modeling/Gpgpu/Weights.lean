-- The weights (lib/src/weight_loader.c, lib/include/weight_layout.h). Eight regions on
-- the device hold 27 files: the two large tables, and the layers in groups of four.
import Gpgpu.KvCache

open memory

namespace gpgpu.weights

open buddy context

/-! ## `weight_layout.h` -/

def WL_HIDDEN_SIZE : Nat := 896

def WL_INTERMEDIATE : Nat := 4864

def WL_NUM_LAYERS : Nat := 24

def WL_KV_DIM : Nat := 128

def WL_VOCAB_SIZE : Nat := 151936

def WL_LAYER_BYTES : Nat := 59649536

def WL_EMBEDDING_BYTES : Nat := WL_VOCAB_SIZE * WL_HIDDEN_SIZE * 4

def WL_LM_HEAD_BYTES : Nat := WL_HIDDEN_SIZE * WL_VOCAB_SIZE * 4

def WL_FINAL_NORM_BYTES : Nat := WL_HIDDEN_SIZE * 4

/-- The tensors of a layer. -/
inductive Tensor
  | input_norm | q_proj_w | q_proj_b | k_proj_w | k_proj_b | v_proj_w | v_proj_b | o_proj_w
  | post_norm | gate_proj_w | up_proj_w | down_proj_w
deriving DecidableEq

/-- `tensor_info_t`, without the name that only messages use. -/
structure TensorInfo where
  offset : Nat
  n_floats : Nat

def TENSOR_TABLE : Tensor → TensorInfo
  | .input_norm => ⟨0, WL_HIDDEN_SIZE⟩
  | .q_proj_w => ⟨3584, WL_HIDDEN_SIZE * WL_HIDDEN_SIZE⟩
  | .q_proj_b => ⟨3214848, WL_HIDDEN_SIZE⟩
  | .k_proj_w => ⟨3218432, WL_HIDDEN_SIZE * WL_KV_DIM⟩
  | .k_proj_b => ⟨3677184, WL_KV_DIM⟩
  | .v_proj_w => ⟨3677696, WL_HIDDEN_SIZE * WL_KV_DIM⟩
  | .v_proj_b => ⟨4136448, WL_KV_DIM⟩
  | .o_proj_w => ⟨4136960, WL_HIDDEN_SIZE * WL_HIDDEN_SIZE⟩
  | .post_norm => ⟨7348224, WL_HIDDEN_SIZE⟩
  | .gate_proj_w => ⟨7351808, WL_HIDDEN_SIZE * WL_INTERMEDIATE⟩
  | .up_proj_w => ⟨24784384, WL_HIDDEN_SIZE * WL_INTERMEDIATE⟩
  | .down_proj_w => ⟨42216960, WL_INTERMEDIATE * WL_HIDDEN_SIZE⟩

/-! ## The loader -/

def LAYERS_PER_REGION : Nat := 4

def NUM_LAYER_REGIONS : Nat := WL_NUM_LAYERS / LAYERS_PER_REGION

def NUM_REGIONS : Nat := 2 + NUM_LAYER_REGIONS

/-- The files of a weights directory. -/
inductive WeightFile
  | embedding | lm_head | final_norm
  | layer (i : Nat)
deriving DecidableEq

/-- A file, as `stat` and `fread` find it. -/
structure FileData where
  size : Nat
  data : Nat → UInt8

/-- `struct weight_loader`, without the context. -/
structure WeightLoader where
  region_base : Nat → Nat
  embedding_addr : Nat
  lm_head_addr : Nat
  final_norm_addr : Nat
  layer_base : Nat → Nat

/-- What the host does for the loader: memory for the record, memory for the records
of the caches in `gpuMalloc`, and whole files. -/
structure LoadIo where
  calloc_ok : Bool
  region_ok : Nat → Bool
  read_ok : WeightFile → Bool

/-- The bytes of a region. -/
def plan_bytes (r : Nat) : Nat :=
  if r = 0 then WL_EMBEDDING_BYTES
  else if r = 1 then WL_LM_HEAD_BYTES
  else if r = 2 then WL_FINAL_NORM_BYTES + LAYERS_PER_REGION * WL_LAYER_BYTES
  else LAYERS_PER_REGION * WL_LAYER_BYTES

def expected_bytes : WeightFile → Nat
  | .embedding => WL_EMBEDDING_BYTES
  | .lm_head => WL_LM_HEAD_BYTES
  | .final_norm => WL_FINAL_NORM_BYTES
  | .layer _ => WL_LAYER_BYTES

/-- The files in the order in which they are checked and loaded. -/
def weight_files : List WeightFile :=
  [.embedding, .lm_head, .final_norm] ++ (List.range WL_NUM_LAYERS).map .layer

def check_file_size (files : WeightFile → Option FileData) (f : WeightFile) : Int :=
  match files f with
  | none => -1
  | some file => if file.size ≠ expected_bytes f then -1 else 0

def load_file_to_vram (ctx : GpgpuCtx) (file : Option FileData) (read_ok : Bool)
    (vram_offset expected_bytes : Nat) : Int × GpgpuCtx :=
  match file with
  | none => (-1, ctx)
  | some file =>
    if read_ok = false then (-1, ctx)
    else
      let r := gpuMemcpy ctx vram_offset file.data expected_bytes GPU_MEMCPY_H2D
      if r.1 < 0 then (-1, r.2.1) else (0, r.2.1)

/-- Frees what is there to free; `NO_OFFSET` marks what is not. -/
def free_all : List Nat → GpgpuCtx → Option GpgpuCtx
  | [], ctx => some ctx
  | x :: xs, ctx =>
    if x = NO_OFFSET then free_all xs ctx
    else (gpuFree ctx x).bind fun r => free_all xs r.2

/-- The calls of `gpuMalloc` for the regions, up to the first that fails. -/
def alloc_regions (io : LoadIo) : List Nat → GpgpuCtx → (Nat → Nat) →
    Option (Bool × GpgpuCtx × (Nat → Nat))
  | [], ctx, region_base => some (true, ctx, region_base)
  | r :: rest, ctx, region_base =>
    (gpuMalloc ctx (plan_bytes r) (io.region_ok r)).bind fun (base, ctx) =>
      if base = NO_OFFSET then some (false, ctx, region_base)
      else alloc_regions io rest ctx (Function.update region_base r base)

/-- The cursor goes over `n` layers from layer `i` on. -/
def fill_layers : Nat → Nat → Nat → (Nat → Nat) → Nat → Nat
  | 0, _, _, layer_base => layer_base
  | n + 1, i, cursor, layer_base =>
    fill_layers n (i + 1) (add64 cursor WL_LAYER_BYTES) (Function.update layer_base i cursor)

/-- The addresses of the layers in the regions from 3 on. -/
def fill_regions (region_base : Nat → Nat) : List Nat → (Nat → Nat) → Nat → Nat
  | [], layer_base => layer_base
  | r :: rest, layer_base =>
    fill_regions region_base rest
      (fill_layers LAYERS_PER_REGION ((r - 2) * LAYERS_PER_REGION) (region_base r) layer_base)

/-- The address book for the regions. -/
def address_book (region_base : Nat → Nat) : WeightLoader :=
  let first := fill_layers LAYERS_PER_REGION 0 (add64 (region_base 2) WL_FINAL_NORM_BYTES) fun _ => 0
  { region_base
    embedding_addr := region_base 0
    lm_head_addr := region_base 1
    final_norm_addr := region_base 2
    layer_base := fill_regions region_base [3, 4, 5, 6, 7] first }

/-- The address of a file. -/
def WeightLoader.addr (wl : WeightLoader) : WeightFile → Nat
  | .embedding => wl.embedding_addr
  | .lm_head => wl.lm_head_addr
  | .final_norm => wl.final_norm_addr
  | .layer i => wl.layer_base i

/-- The files go to the device, up to the first that fails. -/
def load_files (files : WeightFile → Option FileData) (io : LoadIo) (wl : WeightLoader) :
    List WeightFile → GpgpuCtx → Int × GpgpuCtx
  | [], ctx => (0, ctx)
  | f :: rest, ctx =>
    let r := load_file_to_vram ctx (files f) (io.read_ok f) (wl.addr f) (expected_bytes f)
    if r.1 < 0 then (-1, r.2) else load_files files io wl rest r.2

/-- `weight_loader_load`. The loader is `none` for `NULL`. -/
def weight_loader_load (files : WeightFile → Option FileData) (io : LoadIo) (ctx : GpgpuCtx) :
    Option (Option WeightLoader × GpgpuCtx) :=
  if weight_files.any fun f => check_file_size files f < 0 then some (none, ctx)
  else if io.calloc_ok = false then some (none, ctx)
  else
    (alloc_regions io (List.range NUM_REGIONS) ctx fun _ => NO_OFFSET).bind
      fun (all, ctx, region_base) =>
        let wl := address_book region_base
        let r := if all then load_files files io wl weight_files ctx else (-1, ctx)
        if r.1 < 0 then
          (free_all ((List.range NUM_REGIONS).map region_base) r.2).map fun ctx => (none, ctx)
        else some (some wl, r.2)

def weight_loader_destroy (ctx : GpgpuCtx) (wl : WeightLoader) : Option GpgpuCtx :=
  free_all ((List.range NUM_REGIONS).map wl.region_base) ctx

/-- A failed assertion is `none`. -/
def weight_loader_layer (wl : WeightLoader) (layer : Nat) (name : Tensor) : Option Nat :=
  if layer < WL_NUM_LAYERS then some (add64 (wl.layer_base layer) (TENSOR_TABLE name).offset)
  else none

def weight_loader_embedding (wl : WeightLoader) : Nat := wl.embedding_addr

def weight_loader_lm_head (wl : WeightLoader) : Nat := wl.lm_head_addr

def weight_loader_final_norm (wl : WeightLoader) : Nat := wl.final_norm_addr

end gpgpu.weights
