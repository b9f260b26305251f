-- The inference driver (lib/test/infer_tokens.c): the tokens of a prompt go through
-- `transformer_step` one by one, and then each token that comes out goes in again.
import Gpgpu.Transformer

open memory words

namespace gpgpu.infer_tokens

open buddy context device kv weights transformer

def INT32_MAX : Int := 2147483647

def VRAM_SIZE : Nat := 4 * 1024 * 1024 * 1024

/-- A `size_t` that is cast to `int32_t`. -/
def int32 (n : Nat) : Int := (BitVec.ofNat 32 n).toInt

/-- `read_tokens`, where `values` are the numbers that `fscanf` finds, and `none` if the
file or the memory for them is not there. -/
def read_tokens (values : Option (List Int64)) : Option (List Int) :=
  values.bind fun ids =>
    if ids.any fun v => v.toInt < 0 || v.toInt > INT32_MAX then none
    else if ids.length = 0 then none
    else some (ids.map Int64.toInt)

/-- A call of `transformer_step`, with the cache that it finds and what it returns. -/
structure StepCall where
  input_token_id : Int
  cur_pos : Int
  found : KvCache
  returned : Int

/-- The loops of `main`: the state of the library, and the calls so far. -/
structure Session where
  st : Run
  calls : List StepCall

/-- What the host does for `main`. -/
structure MainIo where
  ctx : GpgpuCtx
  calloc_ok : Bool
  fd : Int
  vram_mmap : Nat
  slab_ok : Slab → Bool
  load : LoadIo
  host_ok : Bool
  K_ok : Bool
  V_ok : Bool
  init : InitIo
  generated_ok : Bool
  write_ok : Bool

/-- The exit code of `main`, its calls of `transformer_step`, and the array `generated` up to
`gen_count`. -/
structure Finished where
  ret : Int
  calls : List StepCall
  generated : List Int

section

variable (env : Env) (ws : Workspace) (wl : WeightLoader) (heard : Nat → Int → Int)

/-- A call of `transformer_step`. The device may return any token: `heard` has the token of
each call, when the call has gone well. -/
def step (input_token_id cur_pos : Int) (s : Session) : Option (Int × Session) :=
  (transformer_step env ws wl input_token_id cur_pos s.st).map fun (r, st) =>
    (if r < 0 then r else heard s.calls.length r,
      ⟨st, s.calls ++ [⟨input_token_id, cur_pos, s.st.kv, r⟩]⟩)

/-- The loop over the prompt from index `i` on. It ends at the first error. -/
def prefill : Nat → List Int → Int → Session → Option (Int × Session)
  | _, [], next, s => some (next, s)
  | i, x :: xs, _, s => (step env ws wl heard x (int32 i) s).bind fun (next, s) =>
    if next < 0 then some (next, s) else prefill (i + 1) xs next s

/-- `generated[gen_count++] = next`. A write behind the array is `none`. -/
def record (max_new : Nat) (generated : List Int) (next : Int) : Option (List Int) :=
  if generated.length < max_new then some (generated ++ [next]) else none

/-- The loop over the new tokens from index `i` on, with `n` turns to go: if it has come to
its end without an error, the tokens, and the session. -/
def generate (max_new prompt_count : Nat) (eos_token : Int) :
    Nat → Nat → Int → List Int → Session → Option (Bool × List Int × Session)
  | 0, _, _, generated, s => some (true, generated, s)
  | n + 1, i, next, generated, s =>
    if 0 ≤ eos_token ∧ next = eos_token then some (true, generated, s)
    else (step env ws wl heard next (int32 (sub64 (add64 prompt_count i) 1)) s).bind fun (next, s) =>
      if next < 0 then some (false, generated, s)
      else (record max_new generated next).bind fun generated =>
        generate max_new prompt_count eos_token n (i + 1) next generated s

/-- The part of `main` from the first step to `cleanup`, with the session that it leaves. -/
def infer (write_ok : Bool) (prompt : List Int) (max_new : Nat) (eos_token : Int) (s : Session) :
    Option (Finished × Session) :=
  (prefill env ws wl heard 0 prompt (-1) s).bind fun (next, s) =>
    if next < 0 then some (⟨1, s.calls, []⟩, s)
    else (record max_new [] next).bind fun generated =>
      (generate env ws wl heard max_new prompt.length eos_token (max_new - 1) 1 next generated s).map
        fun (done, generated, s) => (⟨if done ∧ write_ok then 0 else 1, s.calls, generated⟩, s)

end

/-- The end of `main` before its first step. -/
def quit (ret : Int) : Finished := ⟨ret, [], []⟩

/-- The calls behind the label `cleanup`, up to `gpuDestroy`. -/
def cleanup (ws : Workspace) (kv : KvCache) (wl : WeightLoader) (ctx : GpgpuCtx) : Option GpgpuCtx :=
  (transformer_destroy ctx ws).bind fun ctx => (kv_cache_destroy ctx kv).bind fun ctx =>
    weight_loader_destroy ctx wl

/-- The part of `main` after its checks, with the context that it hands to `gpuDestroy`: the
library is set up, and the loops run. Each way out destroys what has been set up so far. -/
def set_up_and_infer (dev : Device) (host : Libm) (files : WeightFile → Option FileData) (io : MainIo)
    (ok : Nat → Bool) (heard : Nat → Int → Int) (prompt : List Int) (max_new : Nat) (eos_token : Int)
    (ctx : GpgpuCtx) : Option (Finished × GpgpuCtx) :=
  let cfg := transformer_default_config
  (weight_loader_load files io.load ctx).bind fun (wl, ctx) => match wl with
  | none => some (quit 1, ctx)
  | some wl =>
    (kv_cache_create ctx cfg.num_layers cfg.num_kv_heads cfg.max_seq cfg.head_dim io.host_ok io.K_ok
      io.V_ok).bind fun (kv, ctx) => match kv with
    | none => (weight_loader_destroy ctx wl).map fun ctx => (quit 1, ctx)
    | some kv => (transformer_init dev host io.init ctx kv cfg).bind fun (ws, ctx) => match ws with
      | none => (kv_cache_destroy ctx kv).bind fun ctx =>
          (weight_loader_destroy ctx wl).map fun ctx => (quit 1, ctx)
      | some ws =>
        if io.generated_ok = false then (cleanup ws kv wl ctx).map fun ctx => (quit 1, ctx)
        else (infer ⟨dev, host, ok⟩ ws wl heard io.write_ok prompt max_new eos_token
          ⟨⟨ctx, kv, 0⟩, []⟩).bind fun (out, s) =>
            (cleanup ws s.st.kv wl s.st.ctx).map fun ctx => (out, ctx)

/-- `main` of infer_tokens.c, with the context that it hands to `gpuDestroy`, or `none` where it
ends without one. `max_new_long` and `eos` are the numbers of its arguments, `ok` says which
calls of the steps the host lets through. -/
def main_run (dev : Device) (host : Libm) (files : WeightFile → Option FileData) (io : MainIo)
    (ok : Nat → Bool) (heard : Nat → Int → Int) (values : Option (List Int64))
    (max_new_long : Int64) (eos : Option Int64) : Option (Finished × Option GpgpuCtx) :=
  let cfg := transformer_default_config
  let max_new := max_new_long.toInt.toNat
  if max_new_long.toInt ≤ 0 then some (quit 2, none)
  else if eos.any fun e => e.toInt < 0 || e.toInt > INT32_MAX then some (quit 2, none)
  else match read_tokens values with
  | none => some (quit 1, none)
  | some prompt =>
    if io.calloc_ok = false then some (quit 1, none)
    else (gpuInit io.ctx io.fd io.vram_mmap io.slab_ok VRAM_SIZE).bind fun (ret, ctx) =>
      if ret < 0 then some (quit 1, none)
      else if prompt.length > cfg.max_seq ∨ sub64 (add64 prompt.length max_new) 1 > cfg.max_seq then
        some (quit 1, some ctx)
      else if prompt.any fun id => id < 0 || (UInt32.ofInt id).toNat ≥ cfg.vocab_size then
        some (quit 1, some ctx)
      else (set_up_and_infer dev host files io ok heard prompt max_new
        ((eos.map Int64.toInt).getD (-1)) ctx).map fun (out, ctx) => (out, some ctx)

/-- What `main` returns and writes. -/
def main (dev : Device) (host : Libm) (files : WeightFile → Option FileData) (io : MainIo)
    (ok : Nat → Bool) (heard : Nat → Int → Int) (values : Option (List Int64))
    (max_new_long : Int64) (eos : Option Int64) : Option Finished :=
  (main_run dev host files io ok heard values max_new_long eos).map Prod.fst

end gpgpu.infer_tokens
