-- A program over the kernel driver over the device. The program works on the memory and launches
-- kernels by an ioctl; the device runs a kernel some time later, and its interrupt comes later
-- still. One thread makes the calls, no signal comes to it and the line has no other interrupt.
import Gpgpu.DriverLaws

open runs

namespace gpgpu.stack

open driver

/-! ## The system -/

/-- What a program does next: work on the host that can fault, or a launch. -/
inductive Job (σ : Type)
  | host (f : σ → Option σ)
  | launch (args : DispatchArgs)

variable {σ : Type}

/-- The jobs one by one, where a launch runs its kernel at once. -/
def run_jobs (exec : DispatchArgs → σ → Option σ) : List (Job σ) → σ → Option σ
  | [], w => some w
  | .host f :: jobs, w => (f w).bind (run_jobs exec jobs)
  | .launch args :: jobs, w => (exec args w).bind (run_jobs exec jobs)

theorem run_jobs_append (exec : DispatchArgs → σ → Option σ) (jobs jobs' : List (Job σ)) (w : σ) :
    run_jobs exec (jobs ++ jobs') w = (run_jobs exec jobs w).bind (run_jobs exec jobs') := by
  induction jobs generalizing w with
  | nil => rfl
  | cons job jobs ih =>
    have hjobs : run_jobs exec (jobs ++ jobs') = fun w =>
        (run_jobs exec jobs w).bind (run_jobs exec jobs') :=
      funext ih
    cases job with
    | host f => rw [List.cons_append, run_jobs, run_jobs, Option.bind_assoc, hjobs]
    | launch args => rw [List.cons_append, run_jobs, run_jobs, Option.bind_assoc, hjobs]

/-- The driver with its device, what the program and the kernels work on, the jobs to come, and
the call in which the program is. -/
structure System (σ : Type) where
  drv : State
  world : σ
  jobs : List (Job σ)
  call : Option Nat

/-- What happens next: the program moves on, the device runs an execution to its end, or the
interrupt of one comes. -/
inductive Move
  | program
  | device (i : Nat)
  | irq (i : Nat)

namespace System

def start (jobs : List (Job σ)) (w : σ) : System σ := ⟨idle, w, jobs, none⟩

/-- The next move of the program. In a call it is an action of `gpgpu_ioctl`, or the return. -/
def program (s : System σ) : Option (System σ) :=
  match s.call with
  | some c => s.drv.callers[c]?.bind fun caller =>
    if caller.returned.isSome then some { s with call := none }
    else (driver.step s.drv (.act c)).map fun drv => { s with drv }
  | none =>
    match s.jobs with
    | [] => none
    | .host f :: jobs => (f s.world).map fun world => { s with world, jobs }
    | .launch args :: jobs => (driver.step s.drv (.ioctl .GPGPU_IOC_DISPATCH true args)).map fun drv =>
      { s with drv, jobs, call := some s.drv.callers.length }

def step (exec : DispatchArgs → σ → Option σ) (s : System σ) : Move → Option (System σ)
  | .program => s.program
  | .device i => s.drv.execs[i]?.bind fun e => (exec e.latched s.world).bind fun world =>
    (driver.step s.drv (.finish i)).map fun drv => { s with drv, world }
  | .irq i => (driver.step s.drv (.completion i)).map fun drv => { s with drv }

/-- Nothing is left to do. -/
def Done (s : System σ) : Prop := s.jobs = [] ∧ s.call = none

/-- While the device has a kernel to run, the program is in the call that has launched it. -/
def Guarded (s : System σ) : Prop := ∀ e ∈ s.drv.execs, e.finished = false → s.call = some e.owner

end System

/-! ## The executions -/

/-- Every kernel has finished and its interrupt has come. -/
def Rests (execs : List Exec) : Prop := ∀ e ∈ execs, e.finished = true ∧ e.raised = true

theorem finish_some {s s' : State} {i : Nat} (h : driver.step s (.finish i) = some s') :
    ∃ e, s.execs[i]? = some e ∧ e.finished = false ∧
      s' = { s with execs := s.execs.set i { e with finished := true } } := by
  obtain ⟨e, hi, h⟩ := Option.bind_eq_some_iff.mp h
  split at h
  · cases h
  · rename_i he
    exact ⟨e, hi, by simpa using he, (Option.some.inj h).symm⟩

theorem completion_some {s s' : State} {i : Nat} (h : driver.step s (.completion i) = some s') :
    ∃ e, s.execs[i]? = some e ∧ e.finished = true ∧ e.raised = false ∧
      s' = { s with execs := s.execs.set i { e with raised := true }, kernel_done := true } := by
  obtain ⟨e, hi, h⟩ := Option.bind_eq_some_iff.mp h
  split at h
  · rename_i he
    exact ⟨e, hi, he.1, by simpa using he.2, (Option.some.inj h).symm⟩
  · cases h

theorem Rests.no_finish {s s' : State} {i : Nat} (h : Rests s.execs) :
    driver.step s (.finish i) ≠ some s' := by
  intro hstep
  obtain ⟨e, hi, he, -⟩ := finish_some hstep
  rw [(h e (List.mem_of_getElem? hi)).1] at he
  cases he

theorem Rests.no_completion {s s' : State} {i : Nat} (h : Rests s.execs) :
    driver.step s (.completion i) ≠ some s' := by
  intro hstep
  obtain ⟨e, hi, -, he, -⟩ := completion_some hstep
  rw [(h e (List.mem_of_getElem? hi)).2] at he
  cases he

/-- When all executions before the last one are over, one that is not is the last. -/
theorem Rests.last_open {old : List Exec} {e e' : Exec} {i : Nat} (h : Rests old)
    (hi : (old ++ [e])[i]? = some e') (hopen : ¬ (e'.finished = true ∧ e'.raised = true)) :
    i = old.length ∧ e' = e := by
  rw [List.getElem?_append] at hi
  split at hi
  · exact absurd (h e' (List.mem_of_getElem? hi)) hopen
  · rw [List.getElem?_singleton] at hi
    split at hi
    · exact ⟨by omega, (Option.some.inj hi).symm⟩
    · cases hi

/-! ## What holds between two moves -/

/-- Where the program is. `target` is what the jobs come to one by one; in each phase the jobs
that are left still come to it. -/
inductive Phase (exec : DispatchArgs → σ → Option σ) (target : Option σ) (s : System σ) : Prop
  | outside (call : s.call = none) (rests : Rests s.drv.execs)
    (owed : run_jobs exec s.jobs s.world = target)
  | fresh {c : Nat} {args : DispatchArgs} (call : s.call = some c)
    (caller : s.drv.callers[c]? = some ⟨args, dispatch_acts args, none⟩) (rests : Rests s.drv.execs)
    (owed : run_jobs exec (.launch args :: s.jobs) s.world = target)
  | writing {c : Nat} {args : DispatchArgs} {r : Reg} {regs : List Reg} (call : s.call = some c)
    (suffix : (r :: regs) <:+ reg_order)
    (caller : s.drv.callers[c]? = some ⟨args, writes args (r :: regs), none⟩)
    (values : ∀ r' ∉ r :: regs, s.drv.regs r' = args.value r') (down : s.drv.kernel_done = false)
    (rests : Rests s.drv.execs) (owed : run_jobs exec (.launch args :: s.jobs) s.world = target)
  | running {c : Nat} {args : DispatchArgs} {old : List Exec} (call : s.call = some c)
    (caller : s.drv.callers[c]? = some ⟨args, [.wait_event], none⟩)
    (execs : s.drv.execs = old ++ [⟨c, args, false, false⟩]) (rests : Rests old)
    (down : s.drv.kernel_done = false)
    (owed : run_jobs exec (.launch args :: s.jobs) s.world = target)
  | finished {c : Nat} {args : DispatchArgs} {old : List Exec} (call : s.call = some c)
    (caller : s.drv.callers[c]? = some ⟨args, [.wait_event], none⟩)
    (execs : s.drv.execs = old ++ [⟨c, args, true, false⟩]) (rests : Rests old)
    (down : s.drv.kernel_done = false) (owed : run_jobs exec s.jobs s.world = target)
  | woken {c : Nat} {args : DispatchArgs} (call : s.call = some c)
    (caller : s.drv.callers[c]? = some ⟨args, [.wait_event], none⟩)
    (up : s.drv.kernel_done = true) (rests : Rests s.drv.execs)
    (owed : run_jobs exec s.jobs s.world = target)
  | back {c : Nat} {caller : Caller} (call : s.call = some c) (caller_eq : s.drv.callers[c]? = some caller)
    (returned : caller.returned = some 0) (rests : Rests s.drv.execs)
    (owed : run_jobs exec s.jobs s.world = target)

section

variable {exec : DispatchArgs → σ → Option σ} {target : Option σ} {s s' : System σ}

/-- Without an execution to go on with, only the program moves. -/
theorem step_program (h : Rests s.drv.execs) {m : Move} (hstep : s.step exec m = some s') :
    s.program = some s' := by
  cases m with
  | program => exact hstep
  | device i =>
    obtain ⟨e, -, hstep⟩ := Option.bind_eq_some_iff.mp hstep
    obtain ⟨w, -, hstep⟩ := Option.bind_eq_some_iff.mp hstep
    obtain ⟨drv, hdrv, -⟩ := Option.map_eq_some_iff.mp hstep
    exact absurd hdrv h.no_finish
  | irq i =>
    obtain ⟨drv, hdrv, -⟩ := Option.map_eq_some_iff.mp hstep
    exact absurd hdrv h.no_completion

/-- The move of a program in a call that has not returned. -/
theorem program_in_call {c : Nat} {caller : Caller} (call : s.call = some c)
    (hc : s.drv.callers[c]? = some caller) (hret : caller.returned = none) :
    s.program = (s.drv.act c caller).map fun drv => { s with drv } := by
  simp only [System.program, call, hc, Option.bind_some, hret, Option.isSome_none, driver.step]
  rfl

/-- A program that waits for its interrupt stays asleep. -/
theorem program_asleep {c : Nat} {args : DispatchArgs} (call : s.call = some c)
    (hc : s.drv.callers[c]? = some ⟨args, [.wait_event], none⟩) (down : s.drv.kernel_done = false) :
    s.program = some s := by
  rw [program_in_call call hc rfl]
  simp only [State.act, down, Bool.false_eq_true, if_false, Option.map_some]

/-- The move of a program whose call has returned. -/
theorem program_returns {c : Nat} {caller : Caller} (call : s.call = some c)
    (hc : s.drv.callers[c]? = some caller) (hret : caller.returned = some 0) :
    s.program = some { s with call := none } := by
  simp only [System.program, call, hc, Option.bind_some, hret, Option.isSome_some, if_true]

theorem outside_moves (call : s.call = none) (rests : Rests s.drv.execs)
    (owed : run_jobs exec s.jobs s.world = target) (hprog : s.program = some s') :
    Phase exec target s' := by
  simp only [System.program, call] at hprog
  cases hjobs : s.jobs with
  | nil =>
    rw [hjobs] at hprog
    cases hprog
  | cons job jobs =>
    rw [hjobs] at hprog owed
    cases job with
    | host f =>
      obtain ⟨w, hw, rfl⟩ := Option.map_eq_some_iff.mp hprog
      rw [run_jobs, hw] at owed
      exact .outside rfl rests owed
    | launch args =>
      obtain ⟨drv, hdrv, rfl⟩ := Option.map_eq_some_iff.mp hprog
      cases hdrv
      exact .fresh rfl List.getElem?_concat_length rests owed

/-- A write of a register leaves the call at the next one; the last one starts the kernel, with
the arguments of the call in the registers. -/
theorem writing_moves {c : Nat} {args : DispatchArgs} {r : Reg} {regs : List Reg} (call : s.call = some c)
    (suffix : (r :: regs) <:+ reg_order)
    (hc : s.drv.callers[c]? = some ⟨args, writes args (r :: regs), none⟩)
    (values : ∀ r' ∉ r :: regs, s.drv.regs r' = args.value r') (down : s.drv.kernel_done = false)
    (rests : Rests s.drv.execs) (owed : run_jobs exec (.launch args :: s.jobs) s.world = target) :
    Phase exec target { s with drv :=
      (s.drv.setCaller c ⟨args, writes args regs, none⟩).iowrite32 c (args.value r) r } := by
  have hself := get_setCaller_self ⟨args, writes args regs, none⟩ hc
  have hvalues : ∀ r' ∉ regs, Function.update s.drv.regs r (args.value r) r' = args.value r' := by
    intro r' hr'
    by_cases heq : r' = r
    · rw [heq, Function.update_self]
    · rw [Function.update_of_ne heq]
      exact values r' (List.not_mem_cons_of_ne_of_not_mem heq hr')
  by_cases hlast : r = .DISPATCH
  · subst hlast
    obtain rfl := dispatch_last suffix
    have hlatch : latch (Function.update s.drv.regs .DISPATCH (args.value .DISPATCH)) = args :=
      latch_values fun r' _ => hvalues r' List.not_mem_nil
    refine .running call hself ?_ rests down owed
    simp only [State.iowrite32, if_true, State.setCaller, hlatch]
  · cases regs with
    | nil => exact absurd (List.mem_singleton.mp (dispatch_mem suffix (List.cons_ne_nil _ _))).symm hlast
    | cons r2 regs =>
      refine .writing call ((List.suffix_cons _ _).trans suffix) hself hvalues down ?_ owed
      simp only [State.iowrite32, if_neg hlast]
      exact rests

theorem running_moves {c : Nat} {args : DispatchArgs} {old : List Exec} (call : s.call = some c)
    (hc : s.drv.callers[c]? = some ⟨args, [.wait_event], none⟩)
    (execs : s.drv.execs = old ++ [⟨c, args, false, false⟩]) (rests : Rests old)
    (down : s.drv.kernel_done = false)
    (owed : run_jobs exec (.launch args :: s.jobs) s.world = target) {m : Move}
    (hstep : s.step exec m = some s') : Phase exec target s' := by
  cases m with
  | program =>
    rw [System.step, program_asleep call hc down] at hstep
    cases hstep
    exact .running call hc execs rests down owed
  | device i =>
    obtain ⟨e, hi, hstep⟩ := Option.bind_eq_some_iff.mp hstep
    obtain ⟨w, hw, hstep⟩ := Option.bind_eq_some_iff.mp hstep
    obtain ⟨drv, hdrv, rfl⟩ := Option.map_eq_some_iff.mp hstep
    obtain ⟨e', hi', he, rfl⟩ := finish_some hdrv
    obtain rfl : e = e' := Option.some.inj (hi.symm.trans hi')
    rw [execs] at hi
    obtain ⟨rfl, rfl⟩ := rests.last_open hi (by simp [he])
    rw [run_jobs, hw] at owed
    refine .finished call hc ?_ rests down owed
    simp only [execs, List.set_append_right _ _ (Nat.le_refl _), Nat.sub_self, List.set_cons_zero]
  | irq i =>
    obtain ⟨drv, hdrv, rfl⟩ := Option.map_eq_some_iff.mp hstep
    obtain ⟨e, hi, he, hraised, -⟩ := completion_some hdrv
    rw [execs] at hi
    obtain ⟨-, rfl⟩ := rests.last_open hi (by simp [hraised])
    cases he

theorem finished_moves {c : Nat} {args : DispatchArgs} {old : List Exec} (call : s.call = some c)
    (hc : s.drv.callers[c]? = some ⟨args, [.wait_event], none⟩)
    (execs : s.drv.execs = old ++ [⟨c, args, true, false⟩]) (rests : Rests old)
    (down : s.drv.kernel_done = false) (owed : run_jobs exec s.jobs s.world = target) {m : Move}
    (hstep : s.step exec m = some s') : Phase exec target s' := by
  cases m with
  | program =>
    rw [System.step, program_asleep call hc down] at hstep
    cases hstep
    exact .finished call hc execs rests down owed
  | device i =>
    obtain ⟨e, hi, hstep⟩ := Option.bind_eq_some_iff.mp hstep
    obtain ⟨w, -, hstep⟩ := Option.bind_eq_some_iff.mp hstep
    obtain ⟨drv, hdrv, -⟩ := Option.map_eq_some_iff.mp hstep
    obtain ⟨e', hi', he, -⟩ := finish_some hdrv
    rw [execs] at hi'
    obtain ⟨-, rfl⟩ := rests.last_open hi' (by simp [he])
    cases he
  | irq i =>
    obtain ⟨drv, hdrv, rfl⟩ := Option.map_eq_some_iff.mp hstep
    obtain ⟨e, hi, -, hraised, rfl⟩ := completion_some hdrv
    rw [execs] at hi
    obtain ⟨rfl, rfl⟩ := rests.last_open hi (by simp [hraised])
    refine .woken call hc rfl (fun e he => ?_) owed
    simp only [execs, List.set_append_right _ _ (Nat.le_refl _), Nat.sub_self, List.set_cons_zero,
      List.mem_append, List.mem_singleton] at he
    rcases he with he | rfl
    · exact rests e he
    · exact ⟨rfl, rfl⟩

/-- Every move leads from phase to phase. -/
theorem Phase.step (h : Phase exec target s) {m : Move} (hstep : s.step exec m = some s') :
    Phase exec target s' := by
  cases h with
  | outside call rests owed => exact outside_moves call rests owed (step_program rests hstep)
  | fresh call hc rests owed =>
    have hprog := step_program rests hstep
    rw [program_in_call call hc rfl] at hprog
    cases hprog
    exact .writing call List.suffix_rfl (get_setCaller_self _ hc)
      (fun r hr => absurd (mem_reg_order r) hr) rfl rests owed
  | writing call suffix hc values down rests owed =>
    have hprog := step_program rests hstep
    rw [program_in_call call hc rfl] at hprog
    cases hprog
    exact writing_moves call suffix hc values down rests owed
  | running call hc execs rests down owed => exact running_moves call hc execs rests down owed hstep
  | finished call hc execs rests down owed => exact finished_moves call hc execs rests down owed hstep
  | woken call hc up rests owed =>
    have hprog := step_program rests hstep
    rw [program_in_call call hc rfl] at hprog
    simp only [State.act, up, if_true, Option.map_some] at hprog
    cases hprog
    exact .back call (get_setCaller_self _ hc) rfl rests owed
  | back call hc hret rests owed =>
    have hprog := step_program rests hstep
    rw [program_returns call hc hret] at hprog
    cases hprog
    exact .outside rfl rests owed

/-- After every run of the system the jobs that are left come to what all of them do. -/
theorem Phase.keeps (h : Phase exec target s) {moves : List Move}
    (hrun : run (System.step exec) s moves = some s') : Phase exec target s' := by
  induction moves generalizing s with
  | nil =>
    cases hrun
    exact h
  | cons m moves ih =>
    obtain ⟨s1, hs1, hrest⟩ := Option.bind_eq_some_iff.mp hrun
    exact ih (h.step hs1) hrest

theorem phase_start (jobs : List (Job σ)) (w : σ) :
    Phase exec (run_jobs exec jobs w) (System.start jobs w) :=
  .outside rfl (fun _ he => absurd he List.not_mem_nil) rfl

/-- At the end the world is that of the jobs one by one. -/
theorem Phase.ends (h : Phase exec target s) (hdone : s.Done) : some s.world = target := by
  obtain ⟨hjobs, hcall⟩ := hdone
  cases h with
  | outside call rests owed =>
    rw [hjobs] at owed
    exact owed
  | fresh call => cases hcall.symm.trans call
  | writing call => cases hcall.symm.trans call
  | running call => cases hcall.symm.trans call
  | finished call => cases hcall.symm.trans call
  | woken call => cases hcall.symm.trans call
  | back call => cases hcall.symm.trans call

theorem Rests.guarded (h : Rests s.drv.execs) : s.Guarded := by
  intro e he hfin
  rw [(h e he).1] at hfin
  cases hfin

theorem Phase.guarded (h : Phase exec target s) : s.Guarded := by
  cases h with
  | outside _ rests => exact rests.guarded
  | fresh _ _ rests => exact rests.guarded
  | writing _ _ _ _ _ rests => exact rests.guarded
  | running call _ execs rests =>
    intro e he hfin
    obtain ⟨i, hi⟩ := List.mem_iff_getElem?.mp he
    rw [execs] at hi
    obtain ⟨-, rfl⟩ := rests.last_open hi (by simp [hfin])
    exact call
  | finished _ _ execs rests =>
    intro e he hfin
    obtain ⟨i, hi⟩ := List.mem_iff_getElem?.mp he
    rw [execs] at hi
    obtain ⟨-, rfl⟩ := rests.last_open hi (by simp [hfin])
    cases hfin
  | woken _ _ _ rests => exact rests.guarded
  | back _ _ _ rests => exact rests.guarded

/-! ## That the end can be reached -/

/-- What an execution still has before it. -/
def left (e : Exec) : Nat := (if e.finished then 0 else 1) + if e.raised then 0 else 1

/-- The actions that a call still has before it. -/
def todo (s : State) (c : Nat) : Nat := (s.callers[c]?.map fun caller => caller.todo.length).getD 0

/-- A measure of what is left to do. A launch has 14 actions and one execution. -/
def System.cost (s : System σ) : Nat :=
  44 * s.jobs.length + (s.drv.execs.map left).sum + s.call.elim 0 fun c => 1 + 3 * todo s.drv c

theorem todo_of {s : State} {c : Nat} {caller : Caller} (h : s.callers[c]? = some caller) :
    todo s c = caller.todo.length := by
  simp only [todo, h, Option.map_some, Option.getD_some]

/-- The device runs the last execution, as far as the kernel does not fault. -/
theorem device_last {old : List Exec} {e : Exec} {w : σ} (execs : s.drv.execs = old ++ [e])
    (he : e.finished = false) (hw : exec e.latched s.world = some w) :
    s.step exec (.device old.length) = some { s with
      drv := { s.drv with execs := old ++ [{ e with finished := true }] }, world := w } := by
  simp only [System.step, execs, List.getElem?_concat_length, Option.bind_some, hw, driver.step, he,
    Bool.false_eq_true, if_false, Option.map_some, List.set_append_right _ _ (Nat.le_refl _),
    Nat.sub_self, List.set_cons_zero]

/-- Its interrupt comes. -/
theorem irq_last {old : List Exec} {e : Exec} (execs : s.drv.execs = old ++ [e])
    (he : e.finished = true) (hraised : e.raised = false) :
    s.step exec (.irq old.length) = some { s with
      drv := { s.drv with execs := old ++ [{ e with raised := true }], kernel_done := true } } := by
  simp only [System.step, execs, List.getElem?_concat_length, Option.bind_some, driver.step, he, hraised,
    Bool.false_eq_true, not_false_eq_true, and_self, if_true, Option.map_some,
    List.set_append_right _ _ (Nat.le_refl _), Nat.sub_self, List.set_cons_zero,
    State.irq_kernel_handler]

/-- A call that has made an action has less to do, also if the action has started a kernel. -/
theorem cost_act {c : Nat} {caller caller' : Caller} {drv : State} (call : s.call = some c)
    (hc : s.drv.callers[c]? = some caller) (hc' : drv.callers[c]? = some caller')
    (htodo : caller'.todo.length < caller.todo.length)
    (hexecs : (drv.execs.map left).sum ≤ (s.drv.execs.map left).sum + 2) :
    ({ s with drv } : System σ).cost < s.cost := by
  simp only [System.cost, call, Option.elim_some, todo_of hc, todo_of hc']
  omega

/-- When the jobs one by one do not fault, every phase before the end has a move that leaves less
to do. -/
theorem Phase.progress {w : σ} (h : Phase exec (some w) s) :
    s.Done ∨ ∃ m s', s.step exec m = some s' ∧ s'.cost < s.cost := by
  cases h with
  | outside call rests owed =>
    cases hjobs : s.jobs with
    | nil => exact .inl ⟨hjobs, call⟩
    | cons job jobs =>
      rw [hjobs] at owed
      cases job with
      | host f =>
        obtain ⟨w1, hw1, -⟩ := Option.bind_eq_some_iff.mp owed
        refine .inr ⟨.program, { s with world := w1, jobs := jobs }, ?_, ?_⟩
        · simp only [System.step, System.program, call, hjobs, hw1, Option.map_some]
        · simp only [System.cost, hjobs, List.length_cons]
          omega
      | launch args =>
        refine .inr ⟨.program, { s with
          drv := { s.drv with callers := s.drv.callers ++ [enter .GPGPU_IOC_DISPATCH true args] }
          jobs := jobs, call := some s.drv.callers.length }, ?_, ?_⟩
        · simp only [System.step, System.program, call, hjobs, driver.step, Option.map_some]
        · have htodo := todo_of (s := { s.drv with callers := s.drv.callers ++
            [enter .GPGPU_IOC_DISPATCH true args] }) List.getElem?_concat_length
          simp only [System.cost, hjobs, List.length_cons, call, Option.elim_some, Option.elim_none, htodo]
          simp only [enter, if_true, dispatch_acts, List.length_cons, List.length_nil]
          omega
  | fresh call hc rests owed =>
    refine .inr ⟨.program, _, (program_in_call call hc rfl).trans rfl, ?_⟩
    exact cost_act call hc (get_setCaller_self _ hc) (Nat.lt_succ_self _) (Nat.le_add_right _ _)
  | writing call suffix hc values down rests owed =>
    refine .inr ⟨.program, _, (program_in_call call hc rfl).trans rfl, ?_⟩
    refine cost_act call hc (get_setCaller_self _ hc) (Nat.lt_succ_self _) ?_
    simp only [State.iowrite32, State.setCaller]
    split
    · simp [left]
    · exact Nat.le_add_right _ _
  | running call hc execs rests down owed =>
    obtain ⟨w1, hw1, -⟩ := Option.bind_eq_some_iff.mp owed
    refine .inr ⟨_, _, device_last execs rfl hw1, ?_⟩
    simp [System.cost, execs, left, call, todo]
  | finished call hc execs rests down owed =>
    refine .inr ⟨_, _, irq_last execs rfl rfl, ?_⟩
    simp [System.cost, execs, left, call, todo]
  | woken call hc up rests owed =>
    have hact : s.program = _ := program_in_call call hc rfl
    simp only [State.act, up, if_true, Option.map_some] at hact
    refine .inr ⟨.program, _, hact, ?_⟩
    exact cost_act call hc (get_setCaller_self _ hc) (Nat.lt_succ_self _) (Nat.le_add_right _ _)
  | back call hc hret rests owed =>
    refine .inr ⟨.program, _, program_returns call hc hret, ?_⟩
    simp only [System.cost, call, Option.elim_some, Option.elim_none]
    omega

/-- From every phase the system can get to its end. -/
theorem Phase.finishes {w : σ} (h : Phase exec (some w) s) :
    ∃ moves s', run (System.step exec) s moves = some s' ∧ s'.Done := by
  induction hn : s.cost using Nat.strong_induction_on generalizing s with
  | _ n ih =>
    rcases h.progress with hdone | ⟨m, s1, hstep, hless⟩
    · exact ⟨[], s, rfl, hdone⟩
    · obtain ⟨moves, s', hrun, hdone⟩ := ih s1.cost (hn ▸ hless) (h.step hstep) rfl
      exact ⟨m :: moves, s', by rw [run, hstep]; exact hrun, hdone⟩

end

end gpgpu.stack
