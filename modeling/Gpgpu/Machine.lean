-- `gpuLaunchKernel` on the machine. The device sees the VRAM without the address at which the
-- host has mapped it; there the warps of the kernel run, and what they leave is what the model of
-- a launch says.
import Gpgpu.LaunchStores

open memory words cells

namespace gpgpu.device

open buddy context core kernels desk

/-! ## The memory of the device -/

/-- The memory as the device has it. -/
def deviceMem (base : Nat) (m : Mem) : Mem := fun y => m (base + y)

/-- The memory of the host when that of the device is `v`. -/
def hostMem (base : Nat) (m v : Mem) : Mem := fun y => if y < base then m y else v (y - base)

section

variable {base : Nat} {m : Mem} {stores : Stores}

theorem rd32_deviceMem (base : Nat) (m : Mem) : rd32 0 (deviceMem base m) = rd32 base m := by
  funext a
  unfold rd32
  apply word_congr
  intro i _
  unfold deviceMem
  rw [Nat.zero_add, Nat.add_assoc]

theorem deviceMem_put (x : Nat) (ws : List Word) :
    deviceMem base (put m (base + x) ws) = put (deviceMem base m) x ws := by
  funext y
  by_cases hy : x ≤ y ∧ y < x + 4 * ws.length
  · obtain ⟨i, rfl⟩ := Nat.exists_eq_add_of_le hy.1
    rw [put_inside (by omega), deviceMem, ← Nat.add_assoc, put_inside (by omega)]
  · rw [put_outside (by omega), deviceMem, put_outside (by omega)]
    rfl

theorem deviceMem_store_all :
    deviceMem base (store_all base m stores) = store_all 0 (deviceMem base m) stores := by
  induction stores generalizing m with
  | nil => rfl
  | cons s stores ih =>
    have hone : deviceMem base (put m (base + s.1 % 2 ^ 32) s.2) = _ := deviceMem_put _ _
    rw [← Nat.zero_add (s.1 % 2 ^ 32)] at hone
    rw [store_all, List.foldl_cons, ← store_all, ih, store_all, store_all, List.foldl_cons, ← hone,
      Nat.zero_add]

theorem store_all_below {y : Nat} (hy : y < base) : store_all base m stores y = m y := by
  induction stores generalizing m with
  | nil => rfl
  | cons s stores ih =>
    rw [store_all, List.foldl_cons, ← store_all, ih]
    exact put_outside (by omega)

/-- The stores of a launch, made in the memory of the device. -/
theorem hostMem_store_all :
    hostMem base m (store_all 0 (deviceMem base m) stores) = store_all base m stores := by
  funext y
  unfold hostMem
  split
  next hy => rw [store_all_below hy]
  next hy =>
    rw [← deviceMem_store_all, deviceMem]
    congr 1
    omega

end

/-! ## A launch -/

/-- `gpuLaunchKernel` with the machine. The kernel is the one whose code is at `kernel_addr`, the
registers hold anything at its start, and the blocks come in any order. -/
inductive Launches (dev : Device) (fcvt : Int → Word) (ctx : GpgpuCtx) (kernel_addr args grid : Nat) :
    Bool → Int × GpgpuCtx → List (List (Access Word)) → Prop
  | refused : Launches dev fcvt ctx kernel_addr args grid false (-1, ctx) []
  | done {k : Kernel} {regs : Nat → Fin 32 → Regs Word} {order : List Nat} {v : Mem}
      {logs : List (List (Access Word))}
      (hcode : dev.decode (fun i => ctx.buddy.mem (ctx.vram_mmap + kernel_addr % 2 ^ 32 + i)) = some k)
      (horder : order.Perm (List.range grid))
      (hrun : Launch (wordFormat dev.fpu fcvt) k.code regs (num args) order
        (deviceMem ctx.vram_mmap ctx.buddy.mem) v logs) :
      Launches dev fcvt ctx kernel_addr args grid true
        (0, ctx.setMem (hostMem ctx.vram_mmap ctx.buddy.mem v)) logs

/-- The accesses of a launch stay in its arguments and in the spans that they name. -/
def Kept (k : Kernel) (args grid : Nat) (arg : Nat → Nat) (rd : Nat → Word)
    (logs : List (List (Access Word))) : Prop :=
  ∀ log ∈ logs, Within (InSpans ((args, 4 * arity k) :: (k.own grid arg ++ k.shared grid arg rd)))
    (InSpans (k.results grid arg)) log

section

variable {dev : Device} {fcvt : Int → Word} {ctx : GpgpuCtx} {k : Kernel} {kernel_addr args grid : Nat}
  {arg : Nat → Nat}

theorem args_of_words {m : Mem} {fpu : Fpu} {x : Nat} (n : Nat)
    (h : ∀ i < n, (word m (x + 4 * i)).toNat = arg i) :
    Args (wordFormat fpu fcvt) m x ((List.range n).map arg) := by
  induction n generalizing x arg with
  | zero => trivial
  | succ n ih =>
    rw [List.range_succ_eq_map, List.map_cons, List.map_map]
    refine ⟨?_, ih fun i hi => ?_⟩
    · rw [← h 0 (by omega)]
      exact (UInt32.ofNat_toNat).symm
    · rw [Function.comp_apply, ← h (i + 1) (by omega)]
      congr 2
      omega

/-- The machine gets to the end of a launch, and whatever the registers and the order of the
blocks were, the memory is the one of the model. -/
theorem launches_spec
    (hcode : dev.decode (fun i => ctx.buddy.mem (ctx.vram_mmap + kernel_addr % 2 ^ 32 + i)) = some k)
    (hargs : ∀ i < arity k, (rd32 ctx.vram_mmap ctx.buddy.mem (args + 4 * i)).toNat = arg i)
    (hfit : k.Fit grid arg (rd32 ctx.vram_mmap ctx.buddy.mem) args) (ok : Bool) :
    (∃ r logs, Launches dev fcvt ctx kernel_addr args grid ok r logs) ∧
      ∀ r logs, Launches dev fcvt ctx kernel_addr args grid ok r logs →
        gpuLaunchKernel dev ctx kernel_addr args grid ok = some r ∧
          Kept k args grid arg (rd32 ctx.vram_mmap ctx.buddy.mem) logs := by
  have hends := hfit.args_end
  have hwords : Args (wordFormat dev.fpu fcvt) (deviceMem ctx.vram_mmap ctx.buddy.mem) args
      ((List.range (arity k)).map arg) := by
    refine args_of_words _ fun i hi => ?_
    rw [← hargs i hi, ← rd32_deviceMem]
    unfold rd32
    rw [Nat.zero_add, Nat.mod_eq_of_lt (by omega)]
  rw [← rd32_deviceMem] at hfit
  have hmachine := fun order (horder : List.Perm order (List.range grid)) regs =>
    Kernel.stored k hwords hfit horder regs
  constructor
  · cases ok with
    | false => exact ⟨_, _, .refused⟩
    | true =>
      obtain ⟨v, logs, hrun⟩ := (hmachine _ (List.Perm.refl _) fun _ _ => ⟨fun _ => 0, fun _ => 0⟩).1
      exact ⟨_, _, .done hcode (List.Perm.refl _) hrun⟩
  · intro r logs hlaunch
    cases hlaunch with
    | refused => exact ⟨rfl, fun log hlog => absurd hlog List.not_mem_nil⟩
    | done hcode' horder hrun =>
      cases hcode.symm.trans hcode'
      obtain ⟨hmem, hkept⟩ := (hmachine _ horder _).2 _ _ hrun
      rw [rd32_deviceMem] at hmem hkept
      refine ⟨?_, hkept⟩
      unfold gpuLaunchKernel
      simp only [Bool.true_eq_false, if_false, hcode, Option.bind_eq_bind, Option.bind_some]
      rw [stores_congr hargs, hmem, hostMem_store_all]
      rfl

end

end gpgpu.device
