-- The kernel driver (gpgpu_drv.c): the dispatch call, the interrupt handler, and the
-- device that they talk to. Calls come from any open files and run side by side; no lock
-- keeps them apart.
import Gpgpu.Lib.Runs

namespace gpgpu.driver

/-! ## The data -/

/-- `struct gpgpu_dispatch_args`. -/
structure DispatchArgs where
  kernel_addr : UInt64
  kernel_args : UInt64
  grid_dim_x : UInt32
  grid_dim_y : UInt32
  grid_dim_z : UInt32
  block_dim_x : UInt32
  block_dim_y : UInt32
  block_dim_z : UInt32
  shared_mem_size : UInt32
deriving DecidableEq

/-- The control registers that a dispatch writes. -/
inductive Reg
  | KERNEL_ADDR_LO | KERNEL_ADDR_HI | KERNEL_ARGS_LO | KERNEL_ARGS_HI
  | GRID_DIM_X | GRID_DIM_Y | GRID_DIM_Z | BLOCK_DIM_X | BLOCK_DIM_Y | BLOCK_DIM_Z
  | SHARED_MEM_SIZE | DISPATCH
deriving DecidableEq

/-- The commands of `gpgpu_ioctl`. -/
inductive Cmd
  | GPGPU_IOC_DISPATCH
  | unknown

def EFAULT : Int := 14

def EINVAL : Int := 22

/-- What a call does after `copy_from_user`, one thing at a time. -/
inductive Act
  | reset_done
  | iowrite32 (value : UInt32) (reg : Reg)
  | wait_event
deriving DecidableEq

/-- The actions of a dispatch, in the order of the source. -/
def dispatch_acts (args : DispatchArgs) : List Act :=
  [.reset_done,
    .iowrite32 (args.kernel_addr &&& 0xFFFFFFFF).toUInt32 .KERNEL_ADDR_LO,
    .iowrite32 (args.kernel_addr >>> 32 &&& 0xFFFFFFFF).toUInt32 .KERNEL_ADDR_HI,
    .iowrite32 (args.kernel_args &&& 0xFFFFFFFF).toUInt32 .KERNEL_ARGS_LO,
    .iowrite32 (args.kernel_args >>> 32 &&& 0xFFFFFFFF).toUInt32 .KERNEL_ARGS_HI,
    .iowrite32 args.grid_dim_x .GRID_DIM_X,
    .iowrite32 args.grid_dim_y .GRID_DIM_Y,
    .iowrite32 args.grid_dim_z .GRID_DIM_Z,
    .iowrite32 args.block_dim_x .BLOCK_DIM_X,
    .iowrite32 args.block_dim_y .BLOCK_DIM_Y,
    .iowrite32 args.block_dim_z .BLOCK_DIM_Z,
    .iowrite32 args.shared_mem_size .SHARED_MEM_SIZE,
    .iowrite32 1 .DISPATCH,
    .wait_event]

/-- A call: its arguments, what it still has to do, and what it has returned. -/
structure Caller where
  args : DispatchArgs
  todo : List Act
  returned : Option Int

/-- An execution: the call whose write has started it, the arguments that the device has
latched, and whether the kernel has finished and its interrupt has come. -/
structure Exec where
  owner : Nat
  latched : DispatchArgs
  finished : Bool
  raised : Bool

/-- The registers, the flag `kernel_done`, the calls in the order in which they came and
the executions in the order in which they started. -/
structure State where
  regs : Reg → UInt32
  kernel_done : Bool
  callers : List Caller
  execs : List Exec

/-- A device that nobody has called. -/
def idle : State := ⟨fun _ => 0, false, [], []⟩

/-! ## The device -/

/-- A 64-bit value from its two registers. -/
def join64 (lo hi : UInt32) : UInt64 := UInt64.ofNat (lo.toNat + 2 ^ 32 * hi.toNat)

/-- What the device latches when `DISPATCH` is written. -/
def latch (regs : Reg → UInt32) : DispatchArgs where
  kernel_addr := join64 (regs .KERNEL_ADDR_LO) (regs .KERNEL_ADDR_HI)
  kernel_args := join64 (regs .KERNEL_ARGS_LO) (regs .KERNEL_ARGS_HI)
  grid_dim_x := regs .GRID_DIM_X
  grid_dim_y := regs .GRID_DIM_Y
  grid_dim_z := regs .GRID_DIM_Z
  block_dim_x := regs .BLOCK_DIM_X
  block_dim_y := regs .BLOCK_DIM_Y
  block_dim_z := regs .BLOCK_DIM_Z
  shared_mem_size := regs .SHARED_MEM_SIZE

/-- A register write reaches the device. One to `DISPATCH` starts an execution. -/
def State.iowrite32 (s : State) (c : Nat) (value : UInt32) (reg : Reg) : State :=
  let regs := Function.update s.regs reg value
  { s with
    regs
    execs := if reg = .DISPATCH then s.execs ++ [⟨c, latch regs, false, false⟩] else s.execs }

/-- `irq_kernel_handler`. Every interrupt on the line comes here. -/
def State.irq_kernel_handler (s : State) : State := { s with kernel_done := true }

/-! ## Runs -/

/-- What can happen next: a call comes in, a call does its next action, a signal comes to
a sleeping call, the device finishes an execution, the interrupt of a finished execution
comes, or another interrupt does. -/
inductive Event
  | ioctl (cmd : Cmd) (copy_ok : Bool) (args : DispatchArgs)
  | act (c : Nat)
  | signal (c : Nat)
  | finish (i : Nat)
  | completion (i : Nat)
  | other_irq

/-- The start of `gpgpu_ioctl`, up to `copy_from_user`. -/
def enter (cmd : Cmd) (copy_ok : Bool) (args : DispatchArgs) : Caller :=
  match cmd with
  | .GPGPU_IOC_DISPATCH =>
    if copy_ok then ⟨args, dispatch_acts args, none⟩ else ⟨args, [], some (-EFAULT)⟩
  | .unknown => ⟨args, [], some (-EINVAL)⟩

def State.setCaller (s : State) (c : Nat) (caller : Caller) : State :=
  { s with callers := s.callers.set c caller }

/-- The next action of call `c`. A call whose condition does not hold stays asleep. -/
def State.act (s : State) (c : Nat) (caller : Caller) : Option State :=
  match caller.todo with
  | [] => none
  | .reset_done :: todo =>
    some { s.setCaller c { caller with todo } with kernel_done := false }
  | .iowrite32 value reg :: todo =>
    some ((s.setCaller c { caller with todo }).iowrite32 c value reg)
  | .wait_event :: todo =>
    if s.kernel_done then some (s.setCaller c { caller with todo, returned := some 0 }) else some s

/-- One event. What cannot happen is `none`. -/
def step (s : State) : Event → Option State
  | .ioctl cmd copy_ok args => some { s with callers := s.callers ++ [enter cmd copy_ok args] }
  | .act c => s.callers[c]?.bind (s.act c)
  | .signal c => s.callers[c]?.bind fun caller =>
    -- `wait_event_interruptible` gives up, and `gpgpu_ioctl` does not look at what it says.
    if caller.todo = [.wait_event] then
      some (s.setCaller c { caller with todo := [], returned := some 0 })
    else none
  | .finish i => s.execs[i]?.bind fun e =>
    if e.finished then none else some { s with execs := s.execs.set i { e with finished := true } }
  | .completion i => s.execs[i]?.bind fun e =>
    if e.finished ∧ ¬ e.raised then
      some { s with execs := s.execs.set i { e with raised := true } }.irq_kernel_handler
    else none
  | .other_irq => some s.irq_kernel_handler

end gpgpu.driver
