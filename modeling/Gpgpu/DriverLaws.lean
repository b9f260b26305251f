-- The laws of dispatches that run side by side: when a return means that the kernel has
-- finished, and when every execution is that of one call. Nothing in the driver makes the
-- runs meet these conditions.
import Gpgpu.Driver

open runs

namespace gpgpu.driver

/-! ## What a step does -/

/-- The moves of the machine, one for each way a step can go. -/
inductive Moves (s : State) : Event → State → Prop
  | came (cmd : Cmd) (copy_ok : Bool) (args : DispatchArgs) :
    Moves s (.ioctl cmd copy_ok args) { s with callers := s.callers ++ [enter cmd copy_ok args] }
  | reset {c : Nat} {caller : Caller} {todo : List Act} (hc : s.callers[c]? = some caller)
    (htodo : caller.todo = .reset_done :: todo) :
    Moves s (.act c) { s.setCaller c { caller with todo } with kernel_done := false }
  | wrote {c : Nat} {caller : Caller} {value : UInt32} {reg : Reg} {todo : List Act}
    (hc : s.callers[c]? = some caller) (htodo : caller.todo = .iowrite32 value reg :: todo) :
    Moves s (.act c) ((s.setCaller c { caller with todo }).iowrite32 c value reg)
  | woke {c : Nat} {caller : Caller} {todo : List Act} (hc : s.callers[c]? = some caller)
    (htodo : caller.todo = .wait_event :: todo) (hdone : s.kernel_done = true) :
    Moves s (.act c) (s.setCaller c { caller with todo, returned := some 0 })
  | slept (c : Nat) : Moves s (.act c) s
  | signalled {c : Nat} {caller : Caller} (hc : s.callers[c]? = some caller)
    (htodo : caller.todo = [.wait_event]) :
    Moves s (.signal c) (s.setCaller c { caller with todo := [], returned := some 0 })
  | finished {i : Nat} {e : Exec} (hi : s.execs[i]? = some e) (he : e.finished = false) :
    Moves s (.finish i) { s with execs := s.execs.set i { e with finished := true } }
  | completed {i : Nat} {e : Exec} (hi : s.execs[i]? = some e) :
    Moves s (.completion i)
      { s with execs := s.execs.set i { e with raised := true } }.irq_kernel_handler
  | other : Moves s .other_irq s.irq_kernel_handler

theorem step_moves {s s' : State} {e : Event} (h : step s e = some s') : Moves s e s' := by
  cases e with
  | ioctl cmd copy_ok args =>
    cases h
    exact .came cmd copy_ok args
  | act c =>
    obtain ⟨caller, hc, h⟩ := Option.bind_eq_some_iff.mp h
    rw [State.act] at h
    split at h
    · cases h
    · cases h
      exact .reset hc ‹_›
    · cases h
      exact .wrote hc ‹_›
    · split at h
      · cases h
        exact .woke hc ‹_› ‹_›
      · cases h
        exact .slept c
  | signal c =>
    obtain ⟨caller, hc, h⟩ := Option.bind_eq_some_iff.mp h
    split at h
    · cases h
      exact .signalled hc ‹_›
    · cases h
  | finish i =>
    obtain ⟨e, hi, h⟩ := Option.bind_eq_some_iff.mp h
    split at h
    · cases h
    · rename_i he
      cases h
      exact .finished hi (by simpa using he)
  | completion i =>
    obtain ⟨e, hi, h⟩ := Option.bind_eq_some_iff.mp h
    split at h
    · cases h
      exact .completed hi
    · cases h
  | other_irq =>
    cases h
    exact .other

/-- After a call has moved on, a call is that one or one that was there. -/
theorem get_setCaller {s : State} {c d : Nat} {caller caller' : Caller}
    (h : (s.setCaller c caller).callers[d]? = some caller') :
    (d = c ∧ caller' = caller) ∨ (d ≠ c ∧ s.callers[d]? = some caller') := by
  simp only [State.setCaller, List.getElem?_set] at h
  split at h
  · rename_i hcd
    split at h
    · exact .inl ⟨hcd.symm, (Option.some.inj h).symm⟩
    · cases h
  · rename_i hcd
    exact .inr ⟨fun hdc => hcd hdc.symm, h⟩

/-- After a call has come in, a call is that one or one that was there. -/
theorem get_append_single {callers : List Caller} {d : Nat} {caller caller' : Caller}
    (h : (callers ++ [caller])[d]? = some caller') :
    (d = callers.length ∧ caller' = caller) ∨ callers[d]? = some caller' := by
  rw [List.getElem?_append] at h
  split at h
  · exact .inr h
  · rw [List.getElem?_singleton] at h
    split at h
    · exact .inl ⟨by omega, (Option.some.inj h).symm⟩
    · cases h

/-! ## The stages of a call -/

/-- The registers in the order in which a call writes them. -/
def reg_order : List Reg :=
  [.KERNEL_ADDR_LO, .KERNEL_ADDR_HI, .KERNEL_ARGS_LO, .KERNEL_ARGS_HI, .GRID_DIM_X, .GRID_DIM_Y,
    .GRID_DIM_Z, .BLOCK_DIM_X, .BLOCK_DIM_Y, .BLOCK_DIM_Z, .SHARED_MEM_SIZE, .DISPATCH]

/-- The value that a call writes to a register. -/
def DispatchArgs.value (args : DispatchArgs) : Reg → UInt32
  | .KERNEL_ADDR_LO => (args.kernel_addr &&& 0xFFFFFFFF).toUInt32
  | .KERNEL_ADDR_HI => (args.kernel_addr >>> 32 &&& 0xFFFFFFFF).toUInt32
  | .KERNEL_ARGS_LO => (args.kernel_args &&& 0xFFFFFFFF).toUInt32
  | .KERNEL_ARGS_HI => (args.kernel_args >>> 32 &&& 0xFFFFFFFF).toUInt32
  | .GRID_DIM_X => args.grid_dim_x
  | .GRID_DIM_Y => args.grid_dim_y
  | .GRID_DIM_Z => args.grid_dim_z
  | .BLOCK_DIM_X => args.block_dim_x
  | .BLOCK_DIM_Y => args.block_dim_y
  | .BLOCK_DIM_Z => args.block_dim_z
  | .SHARED_MEM_SIZE => args.shared_mem_size
  | .DISPATCH => 1

/-- The register writes of a call, and then its wait. -/
def writes (args : DispatchArgs) (regs : List Reg) : List Act :=
  regs.map (fun r => .iowrite32 (args.value r) r) ++ [.wait_event]

theorem dispatch_acts_eq (args : DispatchArgs) :
    dispatch_acts args = .reset_done :: writes args reg_order := rfl

/-- A call that has not begun, is at its register writes or its wait, or is over. -/
inductive Stage (caller : Caller) : Prop
  | fresh (todo : caller.todo = dispatch_acts caller.args) (returned : caller.returned = none)
  | writing (regs : List Reg) (suffix : regs <:+ reg_order)
    (todo : caller.todo = writes caller.args regs) (returned : caller.returned = none)
  | ended (todo : caller.todo = [])

theorem Stage.enter (cmd : Cmd) (copy_ok : Bool) (args : DispatchArgs) :
    Stage (enter cmd copy_ok args) := by
  cases cmd with
  | GPGPU_IOC_DISPATCH =>
    cases copy_ok with
    | true => exact .fresh rfl rfl
    | false => exact .ended rfl
  | unknown => exact .ended rfl

/-- A call at its reset is at the start. -/
theorem Stage.at_reset {caller : Caller} {todo : List Act} (h : Stage caller)
    (htodo : caller.todo = .reset_done :: todo) :
    todo = writes caller.args reg_order ∧ caller.returned = none := by
  cases h with
  | fresh h hr =>
    rw [htodo, dispatch_acts_eq] at h
    exact ⟨(List.cons.inj h).2, hr⟩
  | writing regs _ h =>
    rw [htodo] at h
    cases regs <;> cases h
  | ended h => cases htodo.symm.trans h

/-- A call at a register write is at the next register in the order. -/
theorem Stage.at_write {caller : Caller} {value : UInt32} {reg : Reg} {todo : List Act}
    (h : Stage caller) (htodo : caller.todo = .iowrite32 value reg :: todo) :
    ∃ regs, (reg :: regs) <:+ reg_order ∧ value = caller.args.value reg ∧
      todo = writes caller.args regs ∧ caller.returned = none := by
  cases h with
  | fresh h => cases htodo.symm.trans h
  | writing regs hs h hr =>
    rw [htodo] at h
    cases regs with
    | nil => cases h
    | cons r regs =>
      cases h
      exact ⟨regs, hs, rfl, rfl, hr⟩
  | ended h => cases htodo.symm.trans h

/-- A call at its wait has nothing after it. -/
theorem Stage.at_wait {caller : Caller} {todo : List Act} (h : Stage caller)
    (htodo : caller.todo = .wait_event :: todo) : todo = [] ∧ caller.returned = none := by
  cases h with
  | fresh h => cases htodo.symm.trans h
  | writing regs _ h hr =>
    rw [htodo] at h
    cases regs with
    | nil =>
      cases h
      exact ⟨rfl, hr⟩
    | cons => cases h
  | ended h => cases htodo.symm.trans h

/-- Every call is at one of the stages. -/
def Staged (s : State) : Prop :=
  ∀ (c : Nat) (caller : Caller), s.callers[c]? = some caller → Stage caller

theorem Staged.set {s : State} (h : Staged s) {c : Nat} {caller : Caller} (hcaller : Stage caller) :
    Staged (s.setCaller c caller) := by
  intro d caller' hd
  obtain ⟨-, rfl⟩ | ⟨-, hd⟩ := get_setCaller hd
  · exact hcaller
  · exact h d caller' hd

theorem Staged.step {s s' : State} {e : Event} (h : Staged s) (hmove : Moves s e s') :
    Staged s' := by
  cases hmove with
  | came cmd copy_ok args =>
    intro d caller hd
    obtain ⟨-, rfl⟩ | hd := get_append_single hd
    · exact .enter cmd copy_ok args
    · exact h d caller hd
  | reset hc htodo =>
    obtain ⟨rfl, hr⟩ := (h _ _ hc).at_reset htodo
    exact h.set (.writing reg_order List.suffix_rfl rfl hr)
  | wrote hc htodo =>
    obtain ⟨regs, hs, -, rfl, hr⟩ := (h _ _ hc).at_write htodo
    exact h.set (.writing regs ((List.suffix_cons _ regs).trans hs) rfl hr)
  | woke hc htodo =>
    obtain ⟨rfl, -⟩ := (h _ _ hc).at_wait htodo
    exact h.set (.ended rfl)
  | slept => exact h
  | signalled => exact h.set (.ended rfl)
  | finished => exact h
  | completed => exact h
  | other => exact h

/-! ## When a return means that the kernel has finished -/

/-- The device has finished the execution that call `c` has started. -/
def Finished (s : State) (c : Nat) : Prop := ∃ e ∈ s.execs, e.owner = c ∧ e.finished = true

/-- Call `c` has reset the flag and has not returned. -/
def Active (s : State) (c : Nat) : Prop :=
  ∃ caller ∈ s.callers[c]?, caller.returned = none ∧ Act.reset_done ∉ caller.todo

instance (s : State) (c : Nat) : Decidable (Finished s c) := by unfold Finished; infer_instance

instance (s : State) (c : Nat) : Decidable (Active s c) := by unfold Active; infer_instance

/-- Whenever a dispatch has returned 0, the device has finished what it has started. -/
def ReturnsAfterFinish (s : State) : Prop :=
  ∀ (c : Nat) (caller : Caller), s.callers[c]? = some caller → caller.returned = some 0 →
    Finished s c

/-- The kernels of all the calls that an interrupt would wake have finished. -/
def Quiet (s : State) : Prop := ∀ c < s.callers.length, Active s c → Finished s c

instance (s : State) : Decidable (Quiet s) := by unfold Quiet; infer_instance

/-- An interrupt comes only when no active call has a kernel to wait for, and a signal only
to a call whose kernel has finished. -/
def Calm (s : State) : Event → Prop
  | .completion _ => Quiet s
  | .other_irq => Quiet s
  | .signal c => Finished s c
  | _ => True

instance (s : State) : (e : Event) → Decidable (Calm s e)
  | .completion _ => inferInstanceAs (Decidable (Quiet s))
  | .other_irq => inferInstanceAs (Decidable (Quiet s))
  | .signal c => inferInstanceAs (Decidable (Finished s c))
  | .ioctl .. => .isTrue trivial
  | .act _ => .isTrue trivial
  | .finish _ => .isTrue trivial

theorem Active.lt {s : State} {c : Nat} (h : Active s c) : c < s.callers.length := by
  obtain ⟨caller, hc, -⟩ := h
  exact (List.getElem?_eq_some_iff.mp hc).1

/-- What a calm run keeps: the flag is up only when the active calls have no kernel to
wait for. -/
structure InTime (s : State) : Prop where
  staged : Staged s
  flag : s.kernel_done = true → ∀ c, Active s c → Finished s c
  returns : ReturnsAfterFinish s

/-- A kernel that has finished stays finished. -/
theorem Finished.set {s : State} {c i : Nat} {e e' : Exec} (h : Finished s c)
    (hi : s.execs[i]? = some e) (howner : e'.owner = e.owner)
    (hfin : e.finished = true → e'.finished = true) :
    Finished { s with execs := s.execs.set i e' } c := by
  obtain ⟨f, hf, hc, hff⟩ := h
  obtain ⟨j, hj⟩ := List.mem_iff_getElem?.mp hf
  by_cases hij : i = j
  · subst hij
    obtain rfl : e = f := Option.some.inj (hi.symm.trans hj)
    refine ⟨e', ?_, howner.trans hc, hfin hff⟩
    exact List.mem_set (List.getElem?_eq_some_iff.mp hi).1 e'
  · refine ⟨f, List.mem_iff_getElem?.mpr ⟨j, ?_⟩, hc, hff⟩
    exact (List.getElem?_set_ne hij).trans hj

theorem Finished.iowrite {s : State} {c d : Nat} (h : Finished s c) (value : UInt32) (reg : Reg) :
    Finished (s.iowrite32 d value reg) c := by
  obtain ⟨e, he, hc, hf⟩ := h
  refine ⟨e, ?_, hc, hf⟩
  simp only [State.iowrite32]
  split
  · exact List.mem_append_left _ he
  · exact he

/-- A call that is active after it has moved on was active, or has just reset the flag. -/
theorem Active.of_set {s : State} {c d : Nat} {caller : Caller} {act : Act} {todo : List Act}
    (hc : s.callers[c]? = some caller) (htodo : caller.todo = act :: todo)
    (hact : act ≠ .reset_done) (h : Active (s.setCaller c { caller with todo }) d) :
    Active s d := by
  obtain ⟨caller', hd, hr, hnot⟩ := h
  obtain ⟨rfl, rfl⟩ | ⟨-, hd⟩ := get_setCaller hd
  · refine ⟨caller, hc, hr, ?_⟩
    rw [htodo]
    exact List.not_mem_cons_of_ne_of_not_mem hact.symm hnot
  · exact ⟨caller', hd, hr, hnot⟩

/-- A call that returns leaves the others active as they were. -/
theorem Active.of_return {s : State} {c d : Nat} {caller : Caller} {r : Int}
    (hr : caller.returned = some r) (h : Active (s.setCaller c caller) d) : Active s d := by
  obtain ⟨caller', hd, hnone, hnot⟩ := h
  obtain ⟨-, rfl⟩ | ⟨-, hd⟩ := get_setCaller hd
  · cases hr.symm.trans hnone
  · exact ⟨caller', hd, hnone, hnot⟩

theorem ReturnsAfterFinish.set {s : State} {c : Nat} {caller : Caller} (h : ReturnsAfterFinish s)
    (hcaller : caller.returned = some 0 → Finished s c) :
    ReturnsAfterFinish (s.setCaller c caller) := by
  intro d caller' hd hr
  obtain ⟨rfl, rfl⟩ | ⟨-, hd⟩ := get_setCaller hd
  · exact hcaller hr
  · exact h d caller' hd hr

theorem ReturnsAfterFinish.advance {s : State} {c : Nat} {caller : Caller}
    (h : ReturnsAfterFinish s) (hc : s.callers[c]? = some caller) (todo : List Act) :
    ReturnsAfterFinish (s.setCaller c { caller with todo }) :=
  h.set fun hr => h c caller hc hr

theorem InTime.step {s s' : State} {e : Event} (h : InTime s) (hcalm : Calm s e)
    (hstep : driver.step s e = some s') : InTime s' := by
  have hmove := step_moves hstep
  refine ⟨h.staged.step hmove, ?_, ?_⟩
  -- The flag: only an interrupt raises it, and a call that becomes active lowers it.
  · cases hmove with
    | came cmd copy_ok args =>
      rintro hdone c ⟨caller, hc, hr, hnot⟩
      obtain ⟨-, rfl⟩ | hc := get_append_single hc
      · exfalso
        cases cmd with
        | GPGPU_IOC_DISPATCH =>
          cases copy_ok with
          | true => exact hnot List.mem_cons_self
          | false => cases hr
        | unknown => cases hr
      · exact h.flag hdone c ⟨caller, hc, hr, hnot⟩
    | reset => exact fun hdone => nomatch hdone
    | wrote hc htodo =>
      intro hdone d hd
      exact (h.flag hdone d (Active.of_set hc htodo (by simp) hd)).iowrite _ _
    | woke =>
      intro hdone d hd
      exact h.flag hdone d (Active.of_return rfl hd)
    | slept => exact h.flag
    | signalled =>
      intro hdone d hd
      exact h.flag hdone d (Active.of_return rfl hd)
    | finished hi =>
      intro hdone d hd
      exact (h.flag hdone d hd).set hi rfl fun _ => rfl
    | completed hi =>
      intro _ d hd
      exact Finished.set (hcalm d (Active.lt hd) hd) hi rfl id
    | other =>
      intro _ d hd
      exact hcalm d (Active.lt hd) hd
  -- The calls that have returned: only a wake-up and a signal add one.
  · cases hmove with
    | came cmd copy_ok args =>
      intro d caller hd hr
      obtain ⟨-, rfl⟩ | hd := get_append_single hd
      · cases cmd with
        | GPGPU_IOC_DISPATCH => cases copy_ok <;> cases hr
        | unknown => cases hr
      · exact h.returns d caller hd hr
    | @reset c caller todo hc => exact h.returns.advance hc todo
    | @wrote c caller _ _ todo hc =>
      intro d caller' hd hr
      exact (h.returns.advance hc todo d caller' hd hr).iowrite _ _
    | woke hc htodo hdone =>
      obtain ⟨rfl, hr⟩ := (h.staged _ _ hc).at_wait htodo
      refine h.returns.set fun _ => h.flag hdone _ ⟨_, hc, hr, ?_⟩
      rw [htodo]
      simp
    | slept => exact h.returns
    | signalled => exact h.returns.set fun _ => hcalm
    | finished hi => exact fun d caller hd hr => (h.returns d caller hd hr).set hi rfl fun _ => rfl
    | completed hi => exact fun d caller hd hr => Finished.set (h.returns d caller hd hr) hi rfl id
    | other => exact h.returns

theorem idle_staged : Staged idle := fun _ _ h => nomatch h

theorem idle_inTime : InTime idle :=
  ⟨idle_staged, (fun h => nomatch h), fun _ _ h => nomatch h⟩

/-- In a calm run a dispatch that has returned 0 has its kernel behind it. -/
theorem a_calm_run_returns_after_the_kernel {events : List Event} {s : State}
    (hcalm : Meets step Calm idle events) (hrun : run step idle events = some s) :
    ReturnsAfterFinish s :=
  (run_keeps_of_meets (fun _ _ _ h => h.step) idle_inTime hcalm hrun).returns

/-- A dispatch of one block. -/
def one_block : DispatchArgs := ⟨0x1000, 0x2000, 1, 1, 1, 32, 1, 1, 0⟩

/-- One call, from its start up to its wait. -/
def up_to_wait : List Event :=
  .ioctl .GPGPU_IOC_DISPATCH true one_block :: List.replicate 13 (.act 0)

theorem one_call_at_a_time_is_calm :
    Meets step Calm idle (up_to_wait ++ [.finish 0, .completion 0, .act 0]) ∧
      ∃ s, run step idle (up_to_wait ++ [.finish 0, .completion 0, .act 0]) = some s ∧
        ReturnsAfterFinish s ∧ (s.callers.map Caller.returned) = [some 0] := by
  have hcalm : Meets step Calm idle (up_to_wait ++ [.finish 0, .completion 0, .act 0]) := by
    decide
  exact ⟨hcalm, _, rfl, a_calm_run_returns_after_the_kernel hcalm rfl, rfl⟩

/-- A signal makes the call return 0 while the kernel still runs. -/
theorem a_signal_returns_before_the_kernel :
    ∃ s, run step idle (up_to_wait ++ [.signal 0]) = some s ∧ ¬ ReturnsAfterFinish s := by
  refine ⟨_, rfl, fun h => ?_⟩
  obtain ⟨e, he, -, hf⟩ := h 0 _ rfl rfl
  rw [List.mem_singleton.mp he] at hf
  cases hf

/-! ## When every execution is that of one call -/

/-- The register that an action writes. -/
def Act.reg : Act → Option Reg
  | .iowrite32 _ reg => some reg
  | _ => none

/-- The registers that a call has still to write. -/
def Caller.pending (caller : Caller) : List Reg := caller.todo.filterMap Act.reg

/-- A call whose first register is written and whose `DISPATCH` is not. -/
def Caller.Midway (caller : Caller) : Prop :=
  .KERNEL_ADDR_LO ∉ caller.pending ∧ .DISPATCH ∈ caller.pending

/-- A call that has written `DISPATCH`. -/
def Caller.Dispatched (caller : Caller) : Prop :=
  (caller.returned = none ∨ caller.returned = some 0) ∧ .DISPATCH ∉ caller.pending

instance (caller : Caller) : Decidable caller.Midway := by unfold Caller.Midway; infer_instance

instance (caller : Caller) : Decidable caller.Dispatched := by
  unfold Caller.Dispatched
  infer_instance

/-- The device executes what one call has asked for, for each call that has written
`DISPATCH` once, and for the others never. -/
structure OncePerCall (s : State) : Prop where
  single : ∀ e ∈ s.execs, ∃ caller, s.callers[e.owner]? = some caller ∧ e.latched = caller.args
  once : ∀ (c : Nat) (caller : Caller), s.callers[c]? = some caller →
    (s.execs.map Exec.owner).count c = if caller.Dispatched then 1 else 0

/-- A call writes a register only when no other call is midway. -/
def Serial (s : State) : Event → Prop
  | .act c => (∃ caller ∈ s.callers[c]?, caller.todo.head?.bind Act.reg ≠ none) →
      ∀ d < s.callers.length, d ≠ c → ∀ caller ∈ s.callers[d]?, ¬ caller.Midway
  | _ => True

instance (s : State) : (e : Event) → Decidable (Serial s e)
  | .act _ => inferInstanceAs (Decidable (_ → _))
  | .completion _ => .isTrue trivial
  | .other_irq => .isTrue trivial
  | .signal _ => .isTrue trivial
  | .ioctl .. => .isTrue trivial
  | .finish _ => .isTrue trivial

theorem filterMap_writes (args : DispatchArgs) (regs : List Reg) :
    (writes args regs).filterMap Act.reg = regs := by
  rw [writes, List.filterMap_append, List.filterMap_map]
  have h : (Act.reg ∘ fun r => Act.iowrite32 (args.value r) r) = some := rfl
  rw [h, List.filterMap_some]
  exact List.append_nil regs

theorem pending_enter_running (args : DispatchArgs) :
    (enter .GPGPU_IOC_DISPATCH true args).pending = reg_order :=
  filterMap_writes args reg_order

theorem not_dispatched_enter (cmd : Cmd) (copy_ok : Bool) (args : DispatchArgs) :
    ¬ (enter cmd copy_ok args).Dispatched := by
  rintro ⟨hr, hnot⟩
  cases cmd with
  | GPGPU_IOC_DISPATCH =>
    cases copy_ok with
    | true =>
      rw [pending_enter_running] at hnot
      exact hnot (by decide)
    | false => exact absurd hr (by simp [enter, EFAULT])
  | unknown => exact absurd hr (by simp [enter, EINVAL])

theorem not_midway_enter (cmd : Cmd) (copy_ok : Bool) (args : DispatchArgs) :
    ¬ (enter cmd copy_ok args).Midway := by
  rintro ⟨hnot, hin⟩
  cases cmd with
  | GPGPU_IOC_DISPATCH =>
    cases copy_ok with
    | true =>
      rw [pending_enter_running] at hnot
      exact hnot (by decide)
    | false => exact absurd hin List.not_mem_nil
  | unknown => exact absurd hin List.not_mem_nil

/-- Registers that wait for their write and do not begin the order leave out its first. -/
theorem first_reg_mem {regs : List Reg} (h : regs <:+ reg_order) (hin : .KERNEL_ADDR_LO ∈ regs) :
    regs = reg_order := by
  have hall : ∀ rs ∈ reg_order.tails, .KERNEL_ADDR_LO ∈ rs → rs = reg_order := by decide
  exact hall regs (List.mem_tails regs reg_order |>.mpr h) hin

/-- As long as a register waits for its write, `DISPATCH` does. -/
theorem dispatch_mem {regs : List Reg} (h : regs <:+ reg_order) (hne : regs ≠ []) :
    .DISPATCH ∈ regs := by
  have hall : ∀ rs ∈ reg_order.tails, rs ≠ [] → .DISPATCH ∈ rs := by decide
  exact hall regs (List.mem_tails regs reg_order |>.mpr h) hne

/-- `DISPATCH` is the last. -/
theorem dispatch_last {regs : List Reg} (h : (.DISPATCH :: regs) <:+ reg_order) : regs = [] := by
  have hall : ∀ rs ∈ reg_order.tails, rs.head? = some .DISPATCH → rs.tail = [] := by decide
  exact hall _ (List.mem_tails _ reg_order |>.mpr h) rfl

/-- The two halves of a 64-bit value put together. -/
theorem join64_halves (a : UInt64) :
    join64 (a &&& 0xFFFFFFFF).toUInt32 (a >>> 32 &&& 0xFFFFFFFF).toUInt32 = a := by
  have hlow : (a &&& 0xFFFFFFFF).toUInt32.toNat = a.toNat % 2 ^ 32 := by
    rw [UInt64.toNat_toUInt32, UInt64.toNat_and]
    exact (congrArg (· % 2 ^ 32) (Nat.and_two_pow_sub_one_eq_mod a.toNat 32)).trans
      (Nat.mod_mod _ _)
  have hhigh : (a >>> 32 &&& 0xFFFFFFFF).toUInt32.toNat = a.toNat / 2 ^ 32 := by
    rw [UInt64.toNat_toUInt32, UInt64.toNat_and, UInt64.toNat_shiftRight]
    have hlt : a.toNat < 2 ^ 64 := a.toNat_lt
    have hshift : a.toNat >>> 32 = a.toNat / 2 ^ 32 := Nat.shiftRight_eq_div_pow _ _
    calc (a.toNat >>> 32 &&& (2 ^ 32 - 1)) % 2 ^ 32
        = (a.toNat / 2 ^ 32) % 2 ^ 32 % 2 ^ 32 := by
          rw [Nat.and_two_pow_sub_one_eq_mod, hshift]
      _ = a.toNat / 2 ^ 32 := by omega
  apply UInt64.toNat_inj.mp
  rw [join64, hlow, hhigh, UInt64.toNat_ofNat']
  have hlt : a.toNat < 2 ^ 64 := a.toNat_lt
  omega

/-- When the registers hold the values of one call, the device latches its arguments. -/
theorem latch_values {regs : Reg → UInt32} {args : DispatchArgs}
    (h : ∀ r, r ≠ .DISPATCH → regs r = args.value r) : latch regs = args := by
  cases args
  simp only [latch, DispatchArgs.mk.injEq]
  refine ⟨?_, ?_, h .GRID_DIM_X (by decide), h .GRID_DIM_Y (by decide), h .GRID_DIM_Z (by decide),
    h .BLOCK_DIM_X (by decide), h .BLOCK_DIM_Y (by decide), h .BLOCK_DIM_Z (by decide),
    h .SHARED_MEM_SIZE (by decide)⟩
  · rw [h .KERNEL_ADDR_LO (by decide), h .KERNEL_ADDR_HI (by decide)]
    exact join64_halves _
  · rw [h .KERNEL_ARGS_LO (by decide), h .KERNEL_ARGS_HI (by decide)]
    exact join64_halves _

/-- What a serial run keeps: a call that is midway finds its values in the registers. -/
structure Unmixed (s : State) : Prop where
  staged : Staged s
  values : ∀ (c : Nat) (caller : Caller), s.callers[c]? = some caller → caller.Midway →
    ∀ r ∉ caller.pending, s.regs r = caller.args.value r
  calls : OncePerCall s

/-- Every register is in the order. -/
theorem mem_reg_order (r : Reg) : r ∈ reg_order := by cases r <;> decide

/-- A call at a register write has its values in all the registers before. -/
theorem Unmixed.written {s : State} (h : Unmixed s) {c : Nat} {caller : Caller}
    (hc : s.callers[c]? = some caller) {regs : List Reg} (hsuffix : regs <:+ reg_order)
    (hne : regs ≠ []) (hpending : caller.pending = regs) :
    ∀ r ∉ regs, s.regs r = caller.args.value r := by
  intro r hr
  by_cases hfirst : .KERNEL_ADDR_LO ∈ regs
  · rw [first_reg_mem hsuffix hfirst] at hr
    exact absurd (mem_reg_order r) hr
  · refine h.values c caller hc ?_ r (hpending ▸ hr)
    rw [Caller.Midway, hpending]
    exact ⟨hfirst, dispatch_mem hsuffix hne⟩

theorem get_setCaller_self {s : State} {c : Nat} {caller : Caller} (caller' : Caller)
    (hc : s.callers[c]? = some caller) : (s.setCaller c caller').callers[c]? = some caller' :=
  List.getElem?_set_self (List.getElem?_eq_some_iff.mp hc).1

/-- Only the calls and the executions matter. -/
theorem OncePerCall.congr {s s' : State} (h : OncePerCall s) (hcallers : s'.callers = s.callers)
    (hexecs : s'.execs = s.execs) : OncePerCall s' := by
  refine ⟨?_, ?_⟩
  · rw [hcallers, hexecs]
    exact h.single
  · rw [hcallers, hexecs]
    exact h.once

/-- A call that moves on with its arguments is still there for its executions. -/
theorem owner_set {s : State} {c d : Nat} {caller caller' : Caller} {args : DispatchArgs}
    (h : ∃ owner, s.callers[d]? = some owner ∧ args = owner.args)
    (hc : s.callers[c]? = some caller) (hargs : caller'.args = caller.args) :
    ∃ owner, (s.setCaller c caller').callers[d]? = some owner ∧ args = owner.args := by
  obtain ⟨owner, howner, hlatched⟩ := h
  by_cases heq : d = c
  · rw [heq] at howner ⊢
    obtain rfl : owner = caller := Option.some.inj (howner.symm.trans hc)
    exact ⟨caller', get_setCaller_self caller' hc, hlatched.trans hargs.symm⟩
  · exact ⟨owner, (List.getElem?_set_ne (Ne.symm heq)).trans howner, hlatched⟩

/-- A call may move on as long as it keeps its arguments and writes no `DISPATCH`. -/
theorem OncePerCall.set {s : State} {c : Nat} {caller : Caller} (h : OncePerCall s)
    (hc : s.callers[c]? = some caller) (caller' : Caller) (hargs : caller'.args = caller.args)
    (hdispatched : caller'.Dispatched ↔ caller.Dispatched) :
    OncePerCall (s.setCaller c caller') := by
  refine ⟨fun e he => owner_set (h.single e he) hc hargs, fun d other hd => ?_⟩
  obtain ⟨rfl, rfl⟩ | ⟨-, hd⟩ := get_setCaller hd
  · rw [if_congr hdispatched rfl rfl]
    exact h.once d caller hc
  · exact h.once d other hd

/-- What happens to an execution after its start changes neither its owner nor what it
has latched. -/
theorem OncePerCall.set_exec {s : State} {i : Nat} {e : Exec} (h : OncePerCall s)
    (hi : s.execs[i]? = some e) (e' : Exec) (howner : e'.owner = e.owner)
    (hlatched : e'.latched = e.latched) :
    OncePerCall { s with execs := s.execs.set i e' } := by
  refine ⟨fun f hf => ?_, fun d caller hd => ?_⟩
  · rcases List.mem_or_eq_of_mem_set hf with hf | rfl
    · exact h.single f hf
    · rw [howner, hlatched]
      exact h.single e (List.mem_of_getElem? hi)
  · obtain ⟨hlt, rfl⟩ := List.getElem?_eq_some_iff.mp hi
    have hsame : (s.execs.set i e').map Exec.owner = s.execs.map Exec.owner := by
      rw [List.map_set, howner, ← List.getElem_map Exec.owner (h := by simpa using hlt),
        List.set_getElem_self]
    change ((s.execs.set i e').map Exec.owner).count d = _
    rw [hsame]
    exact h.once d caller hd

theorem OncePerCall.came {s : State} (h : OncePerCall s) (cmd : Cmd) (copy_ok : Bool)
    (args : DispatchArgs) :
    OncePerCall { s with callers := s.callers ++ [enter cmd copy_ok args] } := by
  refine ⟨fun e he => ?_, fun d caller hd => ?_⟩
  · obtain ⟨owner, howner, hlatched⟩ := h.single e he
    have hlt := (List.getElem?_eq_some_iff.mp howner).1
    exact ⟨owner, (List.getElem?_append_left hlt).trans howner, hlatched⟩
  · obtain ⟨rfl, rfl⟩ | hd := get_append_single hd
    · rw [if_neg (not_dispatched_enter cmd copy_ok args), List.count_eq_zero]
      intro hmem
      obtain ⟨e, he, howner⟩ := List.mem_map.mp hmem
      obtain ⟨owner, hget, -⟩ := h.single e he
      have hlt := (List.getElem?_eq_some_iff.mp hget).1
      omega
    · exact h.once d caller hd

/-- The write of `DISPATCH` starts the execution of its call. -/
theorem OncePerCall.dispatch {s : State} {c : Nat} {caller : Caller} (h : OncePerCall s)
    (hc : s.callers[c]? = some caller) (caller' : Caller) (hargs : caller'.args = caller.args)
    (hbefore : ¬ caller.Dispatched) (hafter : caller'.Dispatched) {args : DispatchArgs}
    (hlatch : args = caller.args) :
    OncePerCall { s.setCaller c caller' with execs := s.execs ++ [⟨c, args, false, false⟩] } := by
  refine ⟨fun e he => ?_, fun d other hd => ?_⟩
  · rcases List.mem_append.mp he with he | he
    · exact owner_set (h.single e he) hc hargs
    · rw [List.mem_singleton.mp he]
      exact owner_set ⟨caller, hc, hlatch⟩ hc hargs
  · change ((s.execs ++ [_]).map Exec.owner).count d = _
    rw [List.map_append, List.count_append, List.map_singleton, List.count_singleton]
    obtain ⟨rfl, rfl⟩ | ⟨hne, hd⟩ := get_setCaller hd
    · rw [h.once d caller hc, if_neg hbefore, if_pos hafter]
      simp
    · rw [h.once d other hd]
      simp [Ne.symm hne]

/-- A register write of a serial run. -/
theorem Unmixed.wrote {s : State} {c : Nat} {caller : Caller} {reg : Reg} {regs : List Reg}
    (h : Unmixed s) (hc : s.callers[c]? = some caller) (hsuffix : (reg :: regs) <:+ reg_order)
    (hpending : caller.pending = reg :: regs) (hr : caller.returned = none)
    (hserial : ∀ d other, d ≠ c → s.callers[d]? = some other → ¬ other.Midway)
    (hstaged : Staged ((s.setCaller c { caller with todo := writes caller.args regs }).iowrite32 c
      (caller.args.value reg) reg)) :
    Unmixed ((s.setCaller c { caller with todo := writes caller.args regs }).iowrite32 c
      (caller.args.value reg) reg) := by
  have hwritten := h.written hc hsuffix (List.cons_ne_nil reg regs) hpending
  set caller' : Caller := { caller with todo := writes caller.args regs }
  have hpending' : caller'.pending = regs := filterMap_writes caller.args regs
  have hregs : ∀ r ∉ regs,
      Function.update s.regs reg (caller.args.value reg) r = caller.args.value r := by
    intro r hr
    by_cases heq : r = reg
    · rw [heq, Function.update_self]
    · rw [Function.update_of_ne heq]
      exact hwritten r (List.not_mem_cons_of_ne_of_not_mem heq hr)
  refine ⟨hstaged, ?_, ?_⟩
  · intro d other hd hmid r hnot
    obtain ⟨-, rfl⟩ | ⟨hne, hd⟩ := get_setCaller hd
    · exact hregs r (hpending' ▸ hnot)
    · exact absurd hmid (hserial d other hne hd)
  · rw [State.iowrite32]
    by_cases hdispatch : reg = .DISPATCH
    · subst hdispatch
      obtain rfl := dispatch_last hsuffix
      rw [if_pos rfl]
      have hlatch := latch_values fun r _ => hregs r List.not_mem_nil
      refine (h.calls.dispatch hc caller' rfl ?_ ?_ hlatch).congr rfl rfl
      · rintro ⟨-, hnot⟩
        rw [hpending] at hnot
        exact hnot List.mem_cons_self
      · refine ⟨.inl hr, ?_⟩
        rw [hpending']
        exact List.not_mem_nil
    · rw [if_neg hdispatch]
      refine (h.calls.set hc caller' rfl ?_).congr rfl rfl
      have hreturned : caller'.returned = caller.returned := rfl
      rw [Caller.Dispatched, Caller.Dispatched, hpending', hpending, hreturned, List.mem_cons,
        or_iff_right (Ne.symm hdispatch)]

/-- A call that is not midway needs nothing of the registers. -/
theorem Unmixed.values_set {s : State} {c : Nat} {caller : Caller} (h : Unmixed s)
    (hnot : ¬ caller.Midway) :
    ∀ (d : Nat) (other : Caller), (s.setCaller c caller).callers[d]? = some other → other.Midway →
      ∀ r ∉ other.pending, s.regs r = other.args.value r := by
  intro d other hd hmid
  obtain ⟨-, rfl⟩ | ⟨-, hd⟩ := get_setCaller hd
  · exact absurd hmid hnot
  · exact h.values d other hd hmid

/-- The return of a call. -/
theorem Unmixed.returned {s : State} {c : Nat} {caller : Caller} (h : Unmixed s)
    (hc : s.callers[c]? = some caller) (htodo : caller.todo = [.wait_event])
    (hr : caller.returned = none) :
    Unmixed (s.setCaller c { caller with todo := [], returned := some 0 }) := by
  refine ⟨h.staged.set (.ended rfl), h.values_set ?_, h.calls.set hc _ rfl ?_⟩
  · exact fun hmid => absurd hmid.2 List.not_mem_nil
  · have hpending : caller.pending = [] := by rw [Caller.pending, htodo]; rfl
    rw [Caller.Dispatched, Caller.Dispatched, hpending, hr]
    simp [Caller.pending]

theorem Unmixed.step {s s' : State} {e : Event} (h : Unmixed s) (hserial : Serial s e)
    (hstep : driver.step s e = some s') : Unmixed s' := by
  have hmove := step_moves hstep
  have hstaged := h.staged.step hmove
  cases hmove with
  | came cmd copy_ok args =>
    refine ⟨hstaged, ?_, h.calls.came cmd copy_ok args⟩
    intro d caller hd hmid
    obtain ⟨-, rfl⟩ | hd := get_append_single hd
    · exact absurd hmid (not_midway_enter cmd copy_ok args)
    · exact h.values d caller hd hmid
  | @reset c caller todo hc htodo =>
    obtain ⟨rfl, -⟩ := (h.staged c caller hc).at_reset htodo
    have hpending : caller.pending = reg_order := by
      rw [Caller.pending, htodo]
      exact filterMap_writes caller.args reg_order
    set caller' : Caller := { caller with todo := writes caller.args reg_order }
    have hpending' : caller'.pending = reg_order := filterMap_writes caller.args reg_order
    refine ⟨hstaged, h.values_set ?_, (h.calls.set hc caller' rfl ?_).congr rfl rfl⟩
    · rintro ⟨hnot, -⟩
      exact hnot (hpending' ▸ mem_reg_order _)
    · rw [Caller.Dispatched, Caller.Dispatched, hpending, hpending']
  | @wrote c caller value reg todo hc htodo =>
    obtain ⟨regs, hsuffix, rfl, rfl, hr⟩ := (h.staged c caller hc).at_write htodo
    have hpending : caller.pending = reg :: regs := by
      rw [Caller.pending, htodo]
      exact congrArg (reg :: ·) (filterMap_writes caller.args regs)
    refine h.wrote hc hsuffix hpending hr (fun d other hne hd => ?_) hstaged
    refine hserial ⟨caller, hc, ?_⟩ d (List.getElem?_eq_some_iff.mp hd).1 hne other hd
    rw [htodo]
    simp [Act.reg]
  | woke hc htodo =>
    obtain ⟨rfl, hr⟩ := (h.staged _ _ hc).at_wait htodo
    exact h.returned hc htodo hr
  | slept => exact h
  | signalled hc htodo => exact h.returned hc htodo ((h.staged _ _ hc).at_wait htodo).2
  | finished hi => exact ⟨hstaged, h.values, h.calls.set_exec hi _ rfl rfl⟩
  | @completed i e hi =>
    have hcalls := h.calls.set_exec hi { e with raised := true } rfl rfl
    exact ⟨hstaged, h.values, hcalls.congr rfl rfl⟩
  | other => exact ⟨hstaged, h.values, h.calls.congr rfl rfl⟩

theorem idle_unmixed : Unmixed idle :=
  ⟨idle_staged, (fun _ _ h => nomatch h), (fun _ h => nomatch h), fun _ _ h => nomatch h⟩

/-- In a serial run every execution is that of one call, and every call that has written
`DISPATCH` has exactly one. -/
theorem a_serial_run_executes_each_call_once {events : List Event} {s : State}
    (hserial : Meets step Serial idle events) (hrun : run step idle events = some s) :
    OncePerCall s :=
  (run_keeps_of_meets (fun _ _ _ h => h.step) idle_unmixed hserial hrun).calls

/-- Another dispatch, of two blocks. -/
def two_blocks : DispatchArgs := ⟨0x8000000000, 0x9000, 2, 1, 1, 32, 1, 1, 64⟩

/-- Two calls, the second of which resets the flag and waits between the writes of none. -/
def one_after_the_other : List Event :=
  [.ioctl .GPGPU_IOC_DISPATCH true one_block, .ioctl .GPGPU_IOC_DISPATCH true two_blocks, .act 1] ++
    List.replicate 13 (.act 0) ++ List.replicate 12 (.act 1)

theorem two_calls_in_turn_are_serial :
    Meets step Serial idle one_after_the_other ∧
      ∃ s, run step idle one_after_the_other = some s ∧ OncePerCall s ∧
        s.execs.map Exec.latched = [one_block, two_blocks] := by
  have hserial : Meets step Serial idle one_after_the_other := by decide
  exact ⟨hserial, _, rfl, a_serial_run_executes_each_call_once hserial rfl, by decide⟩

/-- The first call is at its last write when the second writes its kernel address. -/
def mixed_up : List Event :=
  [.ioctl .GPGPU_IOC_DISPATCH true one_block, .ioctl .GPGPU_IOC_DISPATCH true two_blocks] ++
    List.replicate 12 (.act 0) ++ List.replicate 3 (.act 1) ++ [.act 0]

/-- The device then executes what neither call has asked for. -/
theorem two_calls_can_mix :
    ∃ s, run step idle mixed_up = some s ∧
      ∃ e ∈ s.execs, ∀ caller ∈ s.callers, e.latched ≠ caller.args := by
  refine ⟨_, rfl, ?_⟩
  decide

end gpgpu.driver
