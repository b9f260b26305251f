-- The core of the device, as the docs describe it (docs/4.30开发日志.md, README.md): lanes
-- with registers of their own, the instructions of RV32IMF that the kernels use, and the warp
-- that in each cycle runs the active lanes with the least pc. The loop of the docs also stops at
-- `max_cycles`; that bound is left out, a run here takes as many cycles as it is given.
import Gpgpu.Lib.Words
import Gpgpu.Lib.Cells

open memory words cells

namespace gpgpu.core

/-! ## Registers and instructions -/

inductive X
  | zero | a0 | a1 | a2 | a3 | a4 | a5 | a6 | a7 | t0 | t1 | t2 | t3 | t4 | t5 | t6
  | s0 | s1 | s2 | s3 | s4 | s5 | s6 | s7 | s8 | s9 | s10 | s11
deriving DecidableEq

inductive F
  | ft0 | ft1 | ft2 | ft3 | ft4 | ft5 | ft6 | fa0 | fa1 | fa2 | fa3 | fa4 | fa5
deriving DecidableEq

inductive Alu
  | add | sub | mul | div | rem | and | sll | srl
deriving DecidableEq

inductive Cond
  | eq | ne | lt | ge | geu
deriving DecidableEq

inductive FAlu
  | fadd | fsub | fmul | fdiv | fmax | fsgnjn
deriving DecidableEq

inductive FCmp
  | flt | feq
deriving DecidableEq

/-- The instructions, with jumps to places in `L`. -/
inductive Instr (L : Type)
  | lw (rd : X) (imm : Word) (rs : X)
  | sw (rs2 : X) (imm : Word) (rs : X)
  | flw (rd : F) (imm : Word) (rs : X)
  | fsw (rs2 : F) (imm : Word) (rs : X)
  | li (rd : X) (imm : Word)
  | opi (op : Alu) (rd rs : X) (imm : Word)
  | op (op : Alu) (rd rs1 rs2 : X)
  | branch (c : Cond) (rs1 rs2 : X) (target : L)
  | j (target : L)
  | csrr_mhartid (rd : X)
  | fmv_s_x (rd : F) (rs : X)
  | fmv_x_s (rd : X) (rs : F)
  | fcvt_s_w (rd : F) (rs : X)
  | fmv_s (rd rs : F)
  | fop (op : FAlu) (rd rs1 rs2 : F)
  | fmadd (rd rs1 rs2 rs3 : F)
  | fsqrt (rd rs : F)
  | vexp (rd rs : F)
  | fcmp (c : FCmp) (rd : X) (rs1 rs2 : F)
  | vshfl_xor (rd rs : F) (mask : Nat)
  | ebreak

/-- The lines of a source file: labels and instructions. -/
inductive Line (L : Type)
  | label (l : L)
  | instr (i : Instr L)

section

variable {L L' : Type}

def Instr.map (f : L → L') : Instr L → Instr L'
  | .lw rd imm rs => .lw rd imm rs
  | .sw rs2 imm rs => .sw rs2 imm rs
  | .flw rd imm rs => .flw rd imm rs
  | .fsw rs2 imm rs => .fsw rs2 imm rs
  | .li rd imm => .li rd imm
  | .opi o rd rs imm => .opi o rd rs imm
  | .op o rd rs1 rs2 => .op o rd rs1 rs2
  | .branch c rs1 rs2 target => .branch c rs1 rs2 (f target)
  | .j target => .j (f target)
  | .csrr_mhartid rd => .csrr_mhartid rd
  | .fmv_s_x rd rs => .fmv_s_x rd rs
  | .fmv_x_s rd rs => .fmv_x_s rd rs
  | .fcvt_s_w rd rs => .fcvt_s_w rd rs
  | .fmv_s rd rs => .fmv_s rd rs
  | .fop o rd rs1 rs2 => .fop o rd rs1 rs2
  | .fmadd rd rs1 rs2 rs3 => .fmadd rd rs1 rs2 rs3
  | .fsqrt rd rs => .fsqrt rd rs
  | .vexp rd rs => .vexp rd rs
  | .fcmp c rd rs1 rs2 => .fcmp c rd rs1 rs2
  | .vshfl_xor rd rs mask => .vshfl_xor rd rs mask
  | .ebreak => .ebreak

variable [DecidableEq L]

/-- The number of the instruction behind a label. -/
def place (l : L) : List (Line L) → Nat
  | [] => 0
  | .label l' :: lines => if l' = l then 0 else place l lines
  | .instr _ :: lines => place l lines + 1

/-- The code of a source file. A pc is the number of an instruction. -/
def assemble (lines : List (Line L)) : List (Instr Nat) :=
  lines.filterMap fun
    | .label _ => none
    | .instr i => some (i.map fun l => place l lines)

end

/-! ## Numbers -/

/-- A number of the host or the device as an `int`. -/
def signed (w : Word) : Int := w.toBitVec.toInt

def Alu.eval (a b : Word) : Alu → Word
  | .add => a + b
  | .sub => a - b
  | .mul => a * b
  | .div => if b = 0 then 0xFFFFFFFF else ⟨a.toBitVec.sdiv b.toBitVec⟩
  | .rem => if b = 0 then a else ⟨a.toBitVec.srem b.toBitVec⟩
  | .and => a &&& b
  | .sll => a <<< b
  | .srl => a >>> b

def Cond.eval (a b : Word) : Cond → Bool
  | .eq => a = b
  | .ne => a ≠ b
  | .lt => signed a < signed b
  | .ge => signed b ≤ signed a
  | .geu => b.toNat ≤ a.toNat

/-- What the float registers hold, what the float instructions do with it, and how it lies
in memory. An integer that moves to a float register and back is the same. -/
structure Format (V C : Type) extends Cells V C where
  ofBits : Word → V
  toBits : V → Word
  toBits_ofBits : ∀ w, toBits (ofBits w) = w
  ofInt : Int → V
  fadd : V → V → V
  fsub : V → V → V
  fmul : V → V → V
  fdiv : V → V → V
  fmax : V → V → V
  fsgnjn : V → V → V
  fmadd : V → V → V → V
  fsqrt : V → V
  vexp : V → V
  flt : V → V → Bool
  feq : V → V → Bool

variable {V C : Type}

def FAlu.eval (fm : Format V C) (a b : V) : FAlu → V
  | .fadd => fm.fadd a b
  | .fsub => fm.fsub a b
  | .fmul => fm.fmul a b
  | .fdiv => fm.fdiv a b
  | .fmax => fm.fmax a b
  | .fsgnjn => fm.fsgnjn a b

def FCmp.eval (fm : Format V C) (a b : V) : FCmp → Bool
  | .flt => fm.flt a b
  | .feq => fm.feq a b

/-! ## One lane -/

/-- `GPGPULane`, with a log of what it reads and writes in memory. -/
structure Lane (V : Type) where
  pc : Nat
  gpr : X → Word
  fpr : F → V
  active : Bool
  mhartid : Word
  log : List (Access V)

namespace Lane

variable (l : Lane V)

/-- The register `zero` reads as 0. -/
def x (r : X) : Word := if r = .zero then 0 else l.gpr r

def f (r : F) : V := l.fpr r

def setX (r : X) (w : Word) : Lane V := { l with gpr := Function.update l.gpr r w }

def setF (r : F) (v : V) : Lane V := { l with fpr := Function.update l.fpr r v }

def goto (pc : Nat) : Lane V := { l with pc := pc }

def next : Lane V := { l with pc := l.pc + 1 }

def halt : Lane V := { l with active := false }

def note (e : Access V) : Lane V := { l with log := e :: l.log }

end Lane

/-- What a lane does in one cycle: it changes itself, reads a value or writes one. -/
inductive Act (V : Type)
  | quiet (l : Lane V)
  | load (a : Nat) (k : V → Lane V)
  | store (a : Nat) (v : V) (l : Lane V)

/-- What an instruction makes a lane do. The exchange of `vshfl.xor` is made by the warp. -/
def act (fm : Format V C) (l : Lane V) : Instr Nat → Act V
  | .lw rd imm rs => .load (l.x rs + imm).toNat fun v => (l.setX rd (fm.toBits v)).next
  | .sw rs2 imm rs => .store (l.x rs + imm).toNat (fm.ofBits (l.x rs2)) l.next
  | .flw rd imm rs => .load (l.x rs + imm).toNat fun v => (l.setF rd v).next
  | .fsw rs2 imm rs => .store (l.x rs + imm).toNat (l.f rs2) l.next
  | .li rd imm => .quiet (l.setX rd imm).next
  | .opi o rd rs imm => .quiet (l.setX rd (o.eval (l.x rs) imm)).next
  | .op o rd rs1 rs2 => .quiet (l.setX rd (o.eval (l.x rs1) (l.x rs2))).next
  | .branch c rs1 rs2 target => .quiet (if c.eval (l.x rs1) (l.x rs2) then l.goto target else l.next)
  | .j target => .quiet (l.goto target)
  | .csrr_mhartid rd => .quiet (l.setX rd l.mhartid).next
  | .fmv_s_x rd rs => .quiet (l.setF rd (fm.ofBits (l.x rs))).next
  | .fmv_x_s rd rs => .quiet (l.setX rd (fm.toBits (l.f rs))).next
  | .fcvt_s_w rd rs => .quiet (l.setF rd (fm.ofInt (signed (l.x rs)))).next
  | .fmv_s rd rs => .quiet (l.setF rd (l.f rs)).next
  | .fop o rd rs1 rs2 => .quiet (l.setF rd (o.eval fm (l.f rs1) (l.f rs2))).next
  | .fmadd rd rs1 rs2 rs3 => .quiet (l.setF rd (fm.fmadd (l.f rs1) (l.f rs2) (l.f rs3))).next
  | .fsqrt rd rs => .quiet (l.setF rd (fm.fsqrt (l.f rs))).next
  | .vexp rd rs => .quiet (l.setF rd (fm.vexp (l.f rs))).next
  | .fcmp c rd rs1 rs2 => .quiet (l.setX rd (if c.eval fm (l.f rs1) (l.f rs2) then 1 else 0)).next
  | .vshfl_xor _ _ _ => .quiet l.next
  | .ebreak => .quiet l.halt

/-- The lane after its cycle, in the memory `m`. -/
def Act.lane (cs : Cells V C) (m : Nat → C) : Act V → Lane V
  | .quiet l => l
  | .load a k => (k (cs.get m a)).note (.load a)
  | .store a v l => l.note (.store a v)

/-- The memory after the cycle of a lane. -/
def Act.mem (cs : Cells V C) (m : Nat → C) : Act V → Nat → C
  | .store a v _ => cs.set m a v
  | _ => m

/-! ## The warp -/

/-- `GPGPUWarp`, with the memory. -/
structure Warp (V C : Type) where
  lanes : Fin 32 → Lane V
  mem : Nat → C

/-- The least pc of an active lane. -/
def Warp.min_pc (w : Warp V C) : Option Nat :=
  ((List.finRange 32).filterMap fun i =>
    if (w.lanes i).active then some (w.lanes i).pc else none).min?

/-- The lanes that a cycle at `pc` runs. -/
def Warp.current_mask (w : Warp V C) (pc : Nat) (i : Fin 32) : Bool :=
  (w.lanes i).active && (w.lanes i).pc == pc

/-- The lane whose number differs from `i` in the bits of `mask`. -/
def mate (mask : Nat) (i : Fin 32) : Fin 32 := Fin.ofNat 32 (i.val ^^^ mask)

/-- `vshfl.xor`: all lanes are read before one is written. -/
def exec_vshfl (w : Warp V C) (pc : Nat) (rd rs : F) (mask : Nat) : Warp V C :=
  { w with lanes := fun i =>
      if w.current_mask pc i then ((w.lanes i).setF rd ((w.lanes (mate mask i)).f rs)).next
      else w.lanes i }

/-- The cycle of one lane. -/
def exec_lane (fm : Format V C) (ins : Instr Nat) (w : Warp V C) (i : Fin 32) : Warp V C :=
  let a := act fm (w.lanes i) ins
  ⟨Function.update w.lanes i (a.lane fm.toCells w.mem), a.mem fm.toCells w.mem⟩

/-- One cycle of `exec_warp`. A warp without an active lane has ended; a pc outside the code
is `none`. -/
def cycle (fm : Format V C) (code : List (Instr Nat)) (w : Warp V C) : Option (Warp V C) :=
  match w.min_pc with
  | none => some w
  | some pc =>
    match code[pc]? with
    | none => none
    | some (.vshfl_xor rd rs mask) => some (exec_vshfl w pc rd rs mask)
    | some ins => some (((List.finRange 32).filter (w.current_mask pc)).foldl (exec_lane fm ins) w)

/-- The first `n` cycles of `exec_warp`. -/
def exec_warp (fm : Format V C) (code : List (Instr Nat)) : Nat → Warp V C → Option (Warp V C)
  | 0, w => some w
  | n + 1, w => (cycle fm code w).bind (exec_warp fm code n)

def Warp.Ended (w : Warp V C) : Prop := ∀ i, (w.lanes i).active = false

/-! ## A launch -/

/-- The registers in which a lane begins. -/
structure Regs (V : Type) where
  gpr : X → Word
  fpr : F → V

/-- The `mhartid` of a lane in a block of one warp. -/
def hartid (block : Nat) (lane : Fin 32) : Word := UInt32.ofNat (block * 2 ^ 13 + lane)

/-- A lane at its begin: `a0` is the address of the arguments, and the other registers hold
anything. -/
def begin_lane (regs : Regs V) (block : Nat) (args : Word) (i : Fin 32) : Lane V :=
  ⟨0, Function.update regs.gpr .a0 args, regs.fpr, true, hartid block i, []⟩

def begin_warp (regs : Fin 32 → Regs V) (block : Nat) (args : Word) (m : Nat → C) : Warp V C :=
  ⟨fun i => begin_lane (regs i) block args i, m⟩

/-- The blocks run to their ends, one after the other. `logs` has the log of each lane. -/
inductive Launch (fm : Format V C) (code : List (Instr Nat)) (regs : Nat → Fin 32 → Regs V)
    (args : Word) : List Nat → (Nat → C) → (Nat → C) → List (List (Access V)) → Prop
  | nil (m) : Launch fm code regs args [] m m []
  | cons {b bs m w m' logs n} (hrun : exec_warp fm code n (begin_warp (regs b) b args m) = some w)
      (hend : w.Ended) (hrest : Launch fm code regs args bs w.mem m' logs) :
      Launch fm code regs args (b :: bs) m m' ((List.finRange 32).map (fun i => (w.lanes i).log) ++ logs)

end gpgpu.core
