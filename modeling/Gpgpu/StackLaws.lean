-- The decoder over the kernel driver over the device. However the program, the kernels and their
-- interrupts come one after the other, what the program reads is what the decoder computes when
-- each launch is done at once.
import Gpgpu.Stack
import Gpgpu.StepMachine
import Gpgpu.RetryLaws

open memory words buffers runs

namespace gpgpu.stack

open buddy context kernels device kv weights transformer reference desk
open driver (DispatchArgs)

/-! ## The program -/

/-- The state of the library, and the tokens that the program has read. -/
structure World where
  st : Run
  out : List Int

/-- What `gpuLaunchKernel` hands to the driver for a row of blocks of one warp. -/
def dispatch_of (kernel_addr args grid : Nat) : DispatchArgs :=
  ⟨UInt64.ofNat kernel_addr, UInt64.ofNat args, UInt32.ofNat grid, 1, 1, 32, 1, 1, 0⟩

/-- The device on the arguments that it has latched. The kernels are known for a row of blocks of
one warp only; anything else is a fault. -/
def exec (dev : Device) (a : DispatchArgs) (w : World) : Option World :=
  if (a.grid_dim_y, a.grid_dim_z, a.block_dim_x, a.block_dim_y, a.block_dim_z, a.shared_mem_size) ≠
      (1, 1, 32, 1, 1, 0) then none
  else (gpuLaunchKernel dev w.st.ctx a.kernel_addr.toNat a.kernel_args.toNat a.grid_dim_x.toNat true).map
    fun r => { w with st := { w.st with ctx := r.2, calls := w.st.calls + 1 } }

/-- Work on the host. An error code ends the program. -/
def on_host (f : Action) : Job World :=
  .host fun w => (f w.st).bind fun r => if r.1 ≠ TRANSFORMER_OK then none else some { w with st := r.2 }

/-- The part of `launch_op` before the launch. -/
def copy_args (args_off : Nat) (args : List Word) : Action := fun st =>
  let r := gpuMemcpy st.ctx args_off (bytesOf args) (4 * args.length) GPU_MEMCPY_H2D
  some (if r.1 < 0 then TRANSFORMER_ERR_IO else TRANSFORMER_OK, { st with ctx := r.2.1 })

def op_jobs (env : Env) (ws : Workspace) (pos : Nat) : Op → List (Job World)
  | .launch k args grid => [on_host (copy_args (ws.args k) (args.map UInt32.ofNat)),
    .launch (dispatch_of (ws.kbin k) (ws.args k) grid)]
  | .token tok => [on_host ((Op.token tok).act env ws pos)]
  | .append layer => [on_host ((Op.append layer).act env ws pos)]
  | .commit => [on_host (Op.commit.act env ws pos)]

/-- The end of `transformer_step`. -/
def read_job (ws : Workspace) : Job World :=
  .host fun w =>
    let r := read_token ws (TRANSFORMER_OK, w.st)
    if r.1 < 0 then none else some ⟨r.2, w.out ++ [r.1]⟩

/-- A call of `transformer_step`. -/
def step_jobs (env : Env) (ws : Workspace) (wl : WeightLoader) (c : KvCache) (tok pos : Nat) :
    List (Job World) :=
  (step_ops env.host ws wl c (UInt32.ofNat tok) pos).flatMap (op_jobs env ws pos) ++ [read_job ws]

/-- The calls of `transformer_step` for a list of tokens from position `pos` on. -/
def decode_jobs (env : Env) (ws : Workspace) (wl : WeightLoader) (c : KvCache) : Nat → List Nat →
    List (Job World)
  | _, [] => []
  | pos, x :: xs => step_jobs env ws wl c x pos ++ decode_jobs env ws wl c (pos + 1) xs

/-! ## The jobs one by one -/

section

variable {env : Env} {ws : Workspace} {wl : WeightLoader} {c : KvCache} {pos : Nat} {st st' : Run}

/-- The number of blocks goes through its register. -/
def GridFits : Op → Prop
  | .launch _ _ grid => grid < 2 ^ 32
  | _ => True

theorem calc_dispatch_fits (total : Nat) : calc_dispatch total < 2 ^ 32 := by
  unfold calc_dispatch
  omega

theorem step_grids (hcfg : ws.cfg = transformer_default_config) (host : Libm) (tok : Word) :
    ∀ o ∈ step_ops host ws wl c tok pos, GridFits o := by
  have hheads : ws.cfg.num_q_heads < 2 ^ 32 := by
    rw [hcfg]
    decide
  have hfirst : ∀ o ∈ first_ops ws wl tok, GridFits o := by
    simp [first_ops, GridFits]
  have hlayer : ∀ l, ∀ o ∈ layer_ops host ws wl c pos l, GridFits o := by
    intro l
    simp [-Nat.reducePow, layer_ops, qkv_ops, attention_ops, ffn_ops, rmsnorm_op, gemm_op, add_op, rope_op,
      GridFits, calc_dispatch_fits, hheads]
  have hlast : ∀ o ∈ last_ops host ws wl, GridFits o := by
    simp [-Nat.reducePow, last_ops, rmsnorm_op, gemm_op, GridFits, calc_dispatch_fits]
  intro o ho
  rcases List.mem_append.mp ho with ho | ho
  · rcases List.mem_append.mp ho with ho | ho
    · exact hfirst o ho
    · obtain ⟨l, -, hl⟩ := List.mem_flatMap.mp ho
      exact hlayer l o hl
  · exact hlast o ho

/-- Work on the host that goes well. -/
theorem on_host_runs {f : Action} (h : f st = some (TRANSFORMER_OK, st')) (dev : Device) (out : List Int)
    (jobs : List (Job World)) :
    run_jobs (exec dev) (on_host f :: jobs) ⟨st, out⟩ = run_jobs (exec dev) jobs ⟨st', out⟩ := by
  simp only [on_host, run_jobs, h, Option.bind_some, ne_eq, not_true_eq_false, if_false]

/-- A launch that goes well, in its two parts. -/
theorem op_runs (hok : ∀ n, env.ok n = true) (hkbin : ∀ k, ws.kbin k < 2 ^ 64)
    (hargs : ∀ k, ws.args k < 2 ^ 64) {o : Op} (hgrid : GridFits o)
    (h : o.act env ws pos st = some (TRANSFORMER_OK, st')) (out : List Int) :
    run_jobs (exec env.dev) (op_jobs env ws pos o) ⟨st, out⟩ = some ⟨st', out⟩ := by
  cases o with
  | token tok => exact (on_host_runs h ..).trans rfl
  | append layer => exact (on_host_runs h ..).trans rfl
  | commit => exact (on_host_runs h ..).trans rfl
  | launch k args grid =>
    have hcopy : copy_args (ws.args k) (args.map UInt32.ofNat) st = some (TRANSFORMER_OK,
        { st with ctx := (gpuMemcpy st.ctx (ws.args k) (bytesOf (args.map UInt32.ofNat))
          (4 * (args.map UInt32.ofNat).length) GPU_MEMCPY_H2D).2.1 }) := rfl
    have hgoes : ¬ (gpuMemcpy st.ctx (ws.args k) (bytesOf (args.map UInt32.ofNat))
        (4 * (args.map UInt32.ofNat).length) GPU_MEMCPY_H2D).1 < 0 := Int.lt_irrefl 0
    simp only [Op.act, op, launch_op] at h
    rw [if_neg hgoes] at h
    obtain ⟨⟨rc, ctx⟩, hlaunch, hst⟩ := Option.map_eq_some_iff.mp h
    rw [hok] at hlaunch
    rw [op_jobs, on_host_runs hcopy]
    have hexec : exec env.dev (dispatch_of (ws.kbin k) (ws.args k) grid) ⟨{ st with
        ctx := (gpuMemcpy st.ctx (ws.args k) (bytesOf (args.map UInt32.ofNat))
          (4 * (args.map UInt32.ofNat).length) GPU_MEMCPY_H2D).2.1 }, out⟩ = some ⟨st', out⟩ := by
      simp only [exec, dispatch_of, ne_eq, not_true_eq_false, if_false,
        UInt64.toNat_ofNat_of_lt' (hkbin k), UInt64.toNat_ofNat_of_lt' (hargs k),
        UInt32.toNat_ofNat_of_lt' hgrid, hlaunch, Option.map_some]
      rw [← (Prod.mk.inj hst).2]
    simp only [run_jobs, hexec, Option.bind_some]

theorem ops_run (hok : ∀ n, env.ok n = true) (hkbin : ∀ k, ws.kbin k < 2 ^ 64)
    (hargs : ∀ k, ws.args k < 2 ^ 64) {ops : List Op} (hgrid : ∀ o ∈ ops, GridFits o)
    (h : run_ops env ws pos ops st = some (TRANSFORMER_OK, st')) (out : List Int) :
    run_jobs (exec env.dev) (ops.flatMap (op_jobs env ws pos)) ⟨st, out⟩ = some ⟨st', out⟩ := by
  induction ops generalizing st with
  | nil =>
    cases h
    rfl
  | cons o ops ih =>
    obtain ⟨⟨rc, st1⟩, hact, hrest⟩ := Option.bind_eq_some_iff.mp h
    simp only at hrest
    split at hrest
    · rename_i hne
      exact absurd (congrArg Prod.fst (Option.some.inj hrest)) hne
    · rename_i heq
      obtain rfl : rc = TRANSFORMER_OK := not_not.mp heq
      rw [List.flatMap_cons, run_jobs_append, op_runs hok hkbin hargs (hgrid o List.mem_cons_self) hact,
        Option.bind_some]
      exact ih (fun o' ho' => hgrid o' (List.mem_cons_of_mem _ ho')) hrest

end

section

variable {files : WeightFile → Option FileData} {dev : Device} {host : Libm} {io : InitIo} {ws : Workspace}
  {wl : WeightLoader} {c : KvCache} {ctx ctx' : GpgpuCtx} {lay : Layout Buf} {M : Model} {st : Run}
  {d : Desk} {toks : List Nat} {x : Nat}

/-- The jobs of a step come to what `transformer_step` does. -/
theorem step_jobs_run (hs : desk.Stage dev host ws wl c ctx lay M) (hpos : toks.length < 128)
    (hx : x < 151936) (h : At lay ctx.buddy.mem st d) (hd : d.After dev.fpu M toks) (out : List Int) :
    ∃ r st' d', transformer_step ⟨dev, host, fun _ => true⟩ ws wl x toks.length st = some (r, st') ∧
      run_jobs (exec dev) (step_jobs ⟨dev, host, fun _ => true⟩ ws wl c x toks.length) ⟨st, out⟩ =
        some ⟨st', out ++ [r]⟩ ∧
      At lay ctx.buddy.mem st' d' ∧ d'.After dev.fpu M (toks ++ [x]) := by
  obtain ⟨st', d', hcode, h', hd'⟩ := hs.loaded.step_spec hpos hx h hd
  obtain ⟨d1, hdoes, -, -⟩ := hs.loaded.does_step hpos hx (fun l _ => keysFor_length ..)
    (fun l _ => valuesFor_length ..) ⟨hd.sincos, hd.filled, hd.pending, hd.keys, hd.vals⟩
  obtain ⟨st1, hseq, -⟩ := hdoes st h
  have hplace : (UInt32.ofInt (toks.length : Int)).toNat = toks.length := by
    rw [word_of_int (by omega)]
    exact UInt32.toNat_ofNat_of_lt' (Nat.lt_trans hpos (by decide))
  have hread : read_token ws (TRANSFORMER_OK, st1) = (((reference_token dev.fpu
      transformer_default_config M (toks ++ [x])).toNat : Int), st') := by
    rw [step_eq_read, word_of_int (show x < 2 ^ 32 by omega), hplace, hseq] at hcode
    exact Option.some.inj hcode
  have hops := hseq
  rw [step_eq hs.suited.layers hs.suited.cache_layers hs.suited.sized (h.sound hs).place] at hops
  refine ⟨_, st', d', hcode, ?_, h', hd'⟩
  have hkbin : ∀ k, ws.kbin k < 2 ^ 64 := fun k =>
    (hs.room.code k).1 ▸ Nat.lt_trans (hs.room.low _) (by decide)
  have hargs : ∀ k, ws.args k < 2 ^ 64 := fun k =>
    (hs.room.args k).1 ▸ Nat.lt_trans (hs.room.low _) (by decide)
  have hrun : run_jobs (exec dev) ((step_ops host ws wl c (UInt32.ofNat x) toks.length).flatMap
      (op_jobs ⟨dev, host, fun _ => true⟩ ws toks.length)) ⟨st, out⟩ = some ⟨st1, out⟩ :=
    ops_run (fun _ => rfl) hkbin hargs (step_grids hs.loaded.cfg _ _) hops out
  rw [step_jobs, run_jobs_append, hrun]
  simp only [Option.bind_some, read_job, run_jobs, hread]
  rw [if_neg (by omega)]
  rfl

/-- The jobs of a decode come to what the calls of `transformer_step` return. -/
theorem decode_jobs_run (hs : desk.Stage dev host ws wl c ctx lay M) : ∀ (more toks : List Nat) (st : Run)
    (d : Desk), toks.length + more.length ≤ 128 → (∀ x ∈ more, x < 151936) →
    At lay ctx.buddy.mem st d → d.After dev.fpu M toks → ∀ out, ∃ rs st',
      decode ⟨dev, host, fun _ => true⟩ ws wl toks.length more st = some (rs, st') ∧
      run_jobs (exec dev) (decode_jobs ⟨dev, host, fun _ => true⟩ ws wl c toks.length more) ⟨st, out⟩ =
        some ⟨st', out ++ rs⟩ := by
  intro more
  induction more with
  | nil =>
    intro toks st d _ _ _ _ out
    exact ⟨[], st, rfl, by rw [List.append_nil]; rfl⟩
  | cons x xs ih =>
    intro toks st d hlen hall h hd out
    simp only [List.length_cons] at hlen
    obtain ⟨r, st1, d1, hcode, hrun, h1, hd1⟩ :=
      step_jobs_run hs (by omega) (hall x List.mem_cons_self) h hd out
    have hnext := ih (toks ++ [x]) st1 d1 (by simp; omega)
      (fun y hy => hall y (List.mem_cons_of_mem _ hy)) h1 hd1 (out ++ [r])
    rw [List.length_append, List.length_singleton] at hnext
    obtain ⟨rs, st', hdecode, hjobs⟩ := hnext
    refine ⟨r :: rs, st', ?_, ?_⟩
    · rw [decode, hcode]
      simp only [Option.bind_eq_bind, Option.bind_some, hdecode]
      rfl
    · rw [decode_jobs, run_jobs_append, hrun, Option.bind_some, hjobs, List.append_assoc]
      rfl

/-! ## Every interleaving -/

/-- In every interleaving of the program, the kernels and their interrupts, a kernel runs only
while the program is in the call that has launched it. A run that has come to its end has left
what the calls of `transformer_step` leave one by one and has read the tokens of the reference
decoder, and every run can go on to its end. -/
theorem every_interleaving_reads_the_reference_tokens (hprep : Prepared files ctx (some wl) (some c))
    (hinit : transformer_init dev host io ctx c transformer_default_config = some (some ws, ctx'))
    {m : Mem} (hm : AgreesBeside dev ws wl c ctx' m) (toks : List Nat) (hlen : toks.length ≤ 128)
    (hids : ∀ x ∈ toks, x < transformer_default_config.vocab_size) {moves : List Move}
    {s : System World} (hrun : run (System.step (exec dev)) (System.start (decode_jobs
      ⟨dev, host, fun _ => true⟩ ws wl c 0 toks) ⟨⟨ctx'.setMem m, c, 0⟩, []⟩) moves = some s) :
    s.Guarded ∧
      (s.Done →
        decode ⟨dev, host, fun _ => true⟩ ws wl 0 toks ⟨ctx'.setMem m, c, 0⟩ =
          some (s.world.out, s.world.st) ∧
        s.world.out = (List.range toks.length).map fun i => ((reference_token dev.fpu
          transformer_default_config (modelOf host files) (toks.take (i + 1))).toNat : Int)) ∧
      ∃ more s', run (System.step (exec dev)) s more = some s' ∧ s'.Done := by
  obtain ⟨lay, hs, hat, hafter⟩ := stage_begins hprep hinit hm
  have hlen' : ([] : List Nat).length + toks.length ≤ 128 := by simpa using hlen
  obtain ⟨rs, st', hdecode, hjobs⟩ := decode_jobs_run hs toks [] _ _ hlen' hids hat hafter []
  obtain ⟨st, htokens⟩ := hs.loaded.decode_spec toks [] _ _ hlen' hids hat hafter
  have hall : run_jobs (exec dev) (decode_jobs ⟨dev, host, fun _ => true⟩ ws wl c 0 toks)
      ⟨⟨ctx'.setMem m, c, 0⟩, []⟩ = some ⟨st', rs⟩ := hjobs
  have hphase : Phase (exec dev) _ s := (phase_start _ _).keeps hrun
  rw [hall] at hphase
  refine ⟨hphase.guarded, fun hdone => ?_, hphase.finishes⟩
  have hworld := Option.some.inj (hphase.ends hdone)
  rw [hworld]
  refine ⟨hdecode, ?_⟩
  rw [htokens] at hdecode
  exact (congrArg Prod.fst (Option.some.inj hdecode)).symm

end

/-- Two tokens, on a device with 4 GiB. -/
theorem two_tokens_through_the_driver : ∃ ctx wl c ws ctx', setup (2 ^ 32) = some (ctx, wl, c, ws, ctx') ∧
    ∃ moves s, run (System.step (exec wordDevice)) (System.start (decode_jobs
        ⟨wordDevice, wordHost, fun _ => true⟩ ws wl c 0 [3, 5]) ⟨⟨ctx', c, 0⟩, []⟩) moves = some s ∧
      s.Done ∧ s.world.out = [((reference_token wordDevice.fpu transformer_default_config
          (modelOf wordHost zeroFiles) [3]).toNat : Int),
        ((reference_token wordDevice.fpu transformer_default_config (modelOf wordHost zeroFiles)
          [3, 5]).toNat : Int)] := by
  obtain ⟨⟨ctx, wl, c, ws, ctx'⟩, h⟩ := Option.isSome_iff_exists.mp setup_goes_well
  obtain ⟨hprep, hinit⟩ := setup_spec ⟨by decide, by decide⟩ h
  obtain ⟨-, -, moves, s, hrun, hdone⟩ := every_interleaving_reads_the_reference_tokens hprep hinit
    (m := ctx'.buddy.mem) (fun _ _ => rfl) [3, 5] (by decide) (by decide)
    (show run _ _ [] = some _ from rfl)
  obtain ⟨-, hend, -⟩ := every_interleaving_reads_the_reference_tokens hprep hinit
    (m := ctx'.buddy.mem) (fun _ _ => rfl) [3, 5] (by decide) (by decide) hrun
  exact ⟨ctx, wl, c, ws, ctx', h, moves, s, hrun, hdone, (hend hdone).2⟩

end gpgpu.stack
