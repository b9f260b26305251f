-- What `transformer_init` lets through. It compares the lengths of the config and the
-- cache and nothing else, so a step can still fail for a config and a cache that it took.
import Gpgpu.StepFrame
import Gpgpu.DecodeLaws

open memory words buffers

namespace gpgpu.transformer

open buddy context device kv weights

variable {env : Env} {ws : Workspace} {wl : WeightLoader} {pos : Nat} {st st' : Run}

/-! ## Actions that have gone well -/

end gpgpu.transformer

namespace gpgpu.desk

open buddy context kernels device kv weights transformer

/-! ## What init accepts -/

section

variable {T : Nat} {files : WeightFile → Option FileData} {dev : Device} {ws : Workspace}
  {wl : WeightLoader} {c kv : KvCache} {ctx : GpgpuCtx} {pool : Pool}

/-- The bytes of a buffer, for one of the workspace with the rest of its block. -/
def blockBytes (dev : Device) (cfg : Config) (c : KvCache) : Buf → Nat
  | .work s => span (4 * floats cfg s)
  | b => bufBytes dev cfg c b

theorem Housed.blockBytes_le (h : Housed T files dev ws wl c ctx pool) (b : Buf) :
    blockBytes dev ws.cfg c b ≤ span (bufBytes dev ws.cfg c b) := by
  cases b with
  | work s => exact Nat.le_refl _
  | code k => exact h.le_span (.code k)
  | args k => exact h.le_span (.args k)
  | region r => exact h.le_span (.region r)
  | keys => exact h.le_span .keys
  | vals => exact h.le_span .vals

/-- The blocks as a layout. -/
def Housed.blocks (h : Housed T files dev ws wl c ctx pool) : Layout Buf :=
  layoutAt ws wl c (blockBytes dev ws.cfg c) h.carries h.owns h.blockBytes_le

variable {env : Env}

end

end gpgpu.desk
