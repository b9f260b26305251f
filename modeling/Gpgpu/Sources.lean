-- The sources of the kernels (kernels/*.S), line by line. A `li` is one instruction here,
-- and a macro stands as the lines that it is.
import Gpgpu.Core

open words

namespace gpgpu.core

/-! ## Mnemonics -/

section

variable {L : Type}

def lw (rd : X) (imm : Word) (rs : X) : Line L := .instr (.lw rd imm rs)
def sw (rs2 : X) (imm : Word) (rs : X) : Line L := .instr (.sw rs2 imm rs)
def flw (rd : F) (imm : Word) (rs : X) : Line L := .instr (.flw rd imm rs)
def fsw (rs2 : F) (imm : Word) (rs : X) : Line L := .instr (.fsw rs2 imm rs)
def li (rd : X) (imm : Word) : Line L := .instr (.li rd imm)
def addi (rd rs : X) (imm : Word) : Line L := .instr (.opi .add rd rs imm)
def andi (rd rs : X) (imm : Word) : Line L := .instr (.opi .and rd rs imm)
def slli (rd rs : X) (imm : Word) : Line L := .instr (.opi .sll rd rs imm)
def srli (rd rs : X) (imm : Word) : Line L := .instr (.opi .srl rd rs imm)
def mv (rd rs : X) : Line L := addi rd rs 0
def add (rd rs1 rs2 : X) : Line L := .instr (.op .add rd rs1 rs2)
def sub (rd rs1 rs2 : X) : Line L := .instr (.op .sub rd rs1 rs2)
def mul (rd rs1 rs2 : X) : Line L := .instr (.op .mul rd rs1 rs2)
def div (rd rs1 rs2 : X) : Line L := .instr (.op .div rd rs1 rs2)
def rem (rd rs1 rs2 : X) : Line L := .instr (.op .rem rd rs1 rs2)
def beq (rs1 rs2 : X) (l : L) : Line L := .instr (.branch .eq rs1 rs2 l)
def bne (rs1 rs2 : X) (l : L) : Line L := .instr (.branch .ne rs1 rs2 l)
def blt (rs1 rs2 : X) (l : L) : Line L := .instr (.branch .lt rs1 rs2 l)
def bge (rs1 rs2 : X) (l : L) : Line L := .instr (.branch .ge rs1 rs2 l)
def bgeu (rs1 rs2 : X) (l : L) : Line L := .instr (.branch .geu rs1 rs2 l)
def beqz (rs : X) (l : L) : Line L := beq rs .zero l
def bnez (rs : X) (l : L) : Line L := bne rs .zero l
def j (l : L) : Line L := .instr (.j l)
def csrr_mhartid (rd : X) : Line L := .instr (.csrr_mhartid rd)
def fmv_s_x (rd : F) (rs : X) : Line L := .instr (.fmv_s_x rd rs)
def fmv_x_s (rd : X) (rs : F) : Line L := .instr (.fmv_x_s rd rs)
def fcvt_s_w (rd : F) (rs : X) : Line L := .instr (.fcvt_s_w rd rs)
def fmv_s (rd rs : F) : Line L := .instr (.fmv_s rd rs)
def fadd_s (rd rs1 rs2 : F) : Line L := .instr (.fop .fadd rd rs1 rs2)
def fsub_s (rd rs1 rs2 : F) : Line L := .instr (.fop .fsub rd rs1 rs2)
def fmul_s (rd rs1 rs2 : F) : Line L := .instr (.fop .fmul rd rs1 rs2)
def fdiv_s (rd rs1 rs2 : F) : Line L := .instr (.fop .fdiv rd rs1 rs2)
def fmax_s (rd rs1 rs2 : F) : Line L := .instr (.fop .fmax rd rs1 rs2)
def fsgnjn_s (rd rs1 rs2 : F) : Line L := .instr (.fop .fsgnjn rd rs1 rs2)
def fmadd_s (rd rs1 rs2 rs3 : F) : Line L := .instr (.fmadd rd rs1 rs2 rs3)
def fsqrt_s (rd rs : F) : Line L := .instr (.fsqrt rd rs)
def flt_s (rd : X) (rs1 rs2 : F) : Line L := .instr (.fcmp .flt rd rs1 rs2)
def feq_s (rd : X) (rs1 rs2 : F) : Line L := .instr (.fcmp .feq rd rs1 rs2)
def VEXP_S (rd rs : F) : Line L := .instr (.vexp rd rs)
def VSHFL_XOR (rd rs : F) (mask : Nat) : Line L := .instr (.vshfl_xor rd rs mask)
def ebreak : Line L := .instr .ebreak

end

/-- The labels of the sources. The local labels 1 and 2 of `REDUCE_STEP` go with the number
of its use. -/
inductive Label
  | done | done_oob | loop | loop_sum | loop_result | dot_done | sum_loop | norm_loop | head_loop
  | p1_loop | p1_done | p2_loop | p2_done | p3_loop | phaseA_loop | phaseA_skip
  | A_virt | A_reduce | B_virt | B_reduce | k_loop | j_loop | j_loop_end | end_k
  | one (n : Nat) | two (n : Nat)
deriving DecidableEq

end gpgpu.core

namespace gpgpu.source

open core X F Label

/-! ## Products and sums -/

def gemm : List (Line Label) := [
  lw a1 0 a0,
  lw a2 4 a0,
  lw a3 8 a0,
  lw a4 12 a0,
  lw a5 16 a0,
  lw a6 20 a0,
  csrr_mhartid t6,
  andi t1 t6 0x1F,
  srli t6 t6 13,
  slli t6 t6 5,
  add t0 t6 t1,
  mul t5 a4 a6,
  bge t0 t5 done_oob,
  div t1 t0 a6,
  rem t2 t0 a6,
  mul t3 t1 a5,
  slli t3 t3 2,
  add t3 a1 t3,
  li t0 0,
  fmv_s_x ft3 zero,
  .label loop,
  bge t0 a5 done,
  slli t5 t0 2,
  add t4 t3 t5,
  mul t5 t0 a6,
  add t5 t5 t2,
  slli t5 t5 2,
  add t5 t5 a2,
  flw ft0 0 t4,
  flw ft1 0 t5,
  fmadd_s ft3 ft0 ft1 ft3,
  addi t0 t0 1,
  j loop,
  .label done,
  mul t5 t1 a6,
  add t5 t5 t2,
  slli t5 t5 2,
  add t5 t5 a3,
  fsw ft3 0 t5,
  .label done_oob,
  ebreak]

def broadcast_add : List (Line Label) := [
  lw a1 0 a0,
  lw a2 4 a0,
  lw a3 8 a0,
  lw a4 12 a0,
  lw a5 16 a0,
  csrr_mhartid t6,
  andi t1 t6 0x1F,
  srli t6 t6 13,
  slli t6 t6 5,
  add t0 t6 t1,
  mul t5 a4 a5,
  bge t0 t5 done_oob,
  div t1 t0 a5,
  rem t2 t0 a5,
  slli t3 t0 2,
  add t4 a1 t3,
  slli t5 t2 2,
  add t5 a3 t5,
  flw ft0 0 t4,
  flw ft1 0 t5,
  fadd_s ft2 ft0 ft1,
  add t6 a2 t3,
  fsw ft2 0 t6,
  .label done_oob,
  ebreak]

def silu : List (Line Label) := [
  lw a1 0 a0,
  lw a2 4 a0,
  lw a3 8 a0,
  csrr_mhartid t6,
  andi t1 t6 0x1F,
  srli t6 t6 13,
  slli t6 t6 5,
  add t0 t6 t1,
  bge t0 a3 done_oob,
  slli t1 t0 2,
  add t2 a1 t1,
  add t3 a2 t1,
  li t4 0x3F800000,
  fmv_s_x ft4 t4,
  flw ft1 0 t2,
  fsgnjn_s ft2 ft1 ft1,
  VEXP_S ft2 ft2,
  fadd_s ft2 ft4 ft2,
  fdiv_s ft3 ft4 ft2,
  fmul_s ft0 ft1 ft3,
  fsw ft0 0 t3,
  .label done_oob,
  ebreak]

def vmul : List (Line Label) := [
  lw a1 0 a0,
  lw a2 4 a0,
  lw a3 8 a0,
  lw a4 12 a0,
  srli a5 a4 5,
  csrr_mhartid t0,
  andi t0 t0 0x1F,
  li t1 0,
  .label loop,
  bge t1 a5 done,
  slli t2 t1 5,
  add t2 t2 t0,
  slli t2 t2 2,
  add t3 t2 a1,
  add t4 t2 a2,
  add t5 t2 a3,
  flw ft1 0 t3,
  flw ft2 0 t4,
  fmul_s ft3 ft1 ft2,
  fsw ft3 0 t5,
  addi t1 t1 1,
  j loop,
  .label done,
  ebreak]

def embedding_lookup : List (Line Label) := [
  lw t0 0 a0,
  lw t1 4 a0,
  lw t2 8 a0,
  lw t3 12 a0,
  lw t4 16 a0,
  csrr_mhartid s0,
  andi s0 s0 0x1F,
  lw t5 0 t1,
  mul t6 t5 t3,
  slli t6 t6 2,
  add t6 t0 t6,
  li s1 0,
  .label loop,
  slli s2 s1 5,
  add s2 s2 s0,
  slli s3 s2 2,
  add s4 t2 s3,
  add s3 t6 s3,
  lw s5 0 s3,
  sw s5 0 s4,
  addi s1 s1 1,
  blt s1 t4 loop,
  ebreak]

/-! ## Norms and rotations -/

def rmsnorm : List (Line Label) := [
  lw a1 0 a0,
  lw a2 4 a0,
  lw a3 8 a0,
  lw a4 12 a0,
  flw fa1 16 a0,
  flw fa2 20 a0,
  csrr_mhartid t0,
  andi t0 t0 0x1F,
  li t3 112,
  mul t1 t0 t3,
  add t2 a1 t1,
  fmv_s_x ft1 zero,
  li t0 28,
  .label sum_loop,
  flw ft0 0 t2,
  fmul_s ft0 ft0 ft0,
  fadd_s ft1 ft1 ft0,
  addi t2 t2 4,
  addi t0 t0 (-1),
  bnez t0 sum_loop,
  fmv_s ft0 ft1,
  VSHFL_XOR ft2 ft0 1,
  fadd_s ft0 ft0 ft2,
  VSHFL_XOR ft2 ft0 2,
  fadd_s ft0 ft0 ft2,
  VSHFL_XOR ft2 ft0 4,
  fadd_s ft0 ft0 ft2,
  VSHFL_XOR ft2 ft0 8,
  fadd_s ft0 ft0 ft2,
  VSHFL_XOR ft2 ft0 16,
  fadd_s ft0 ft0 ft2,
  fmul_s ft1 ft0 fa1,
  fadd_s ft1 ft1 fa2,
  fsqrt_s ft1 ft1,
  li t5 0x3F800000,
  fmv_s_x ft5 t5,
  fdiv_s ft1 ft5 ft1,
  add t2 a1 t1,
  add t3 a3 t1,
  add t4 a2 t1,
  li t0 28,
  .label norm_loop,
  flw ft2 0 t2,
  flw ft3 0 t3,
  fmul_s ft4 ft2 ft1,
  fmul_s ft4 ft4 ft3,
  fsw ft4 0 t4,
  addi t2 t2 4,
  addi t3 t3 4,
  addi t4 t4 4,
  addi t0 t0 (-1),
  bnez t0 norm_loop,
  ebreak]

def rope : List (Line Label) := [
  lw a1 0 a0,
  lw a2 4 a0,
  lw a3 8 a0,
  lw a4 12 a0,
  lw a5 16 a0,
  csrr_mhartid s0,
  andi s0 s0 0x1F,
  slli s2 a4 2,
  slli s3 s0 2,
  mul t0 a5 s2,
  slli t2 s3 1,
  add t0 t0 t2,
  add t0 t0 a2,
  flw fa0 0 t0,
  flw fa1 4 t0,
  li s1 0,
  .label head_loop,
  mul t1 s1 s2,
  add t1 t1 s3,
  add t1 t1 a1,
  flw fa2 0 t1,
  flw fa3 128 t1,
  fmul_s ft0 fa2 fa0,
  fmul_s ft1 fa3 fa1,
  fmul_s ft2 fa3 fa0,
  fsub_s fa4 ft0 ft1,
  fmadd_s fa5 fa2 fa1 ft2,
  fsw fa4 0 t1,
  fsw fa5 128 t1,
  addi s1 s1 1,
  blt s1 a3 head_loop,
  ebreak]

/-! ## Attention -/

def qkt_decode : List (Line Label) := [
  lw a1 0 a0,
  lw a2 4 a0,
  lw a3 8 a0,
  lw a4 12 a0,
  lw a5 16 a0,
  lw a6 20 a0,
  lw a7 24 a0,
  lw a0 28 a0,
  addi s1 a4 1,
  csrr_mhartid t1,
  andi t0 t1 0x1F,
  srli t1 t1 13,
  div t3 t1 a7,
  mul t4 t1 a6,
  slli t4 t4 2,
  add t4 t4 a1,
  mul t5 t1 a5,
  slli t5 t5 2,
  add t5 t5 a3,
  mul t6 t3 a6,
  mul t6 t6 a5,
  slli t6 t6 2,
  add t6 t6 a2,
  fmv_s_x ft5 a0,
  .label loop,
  bge t0 s1 done,
  mul s2 a6 t0,
  slli s2 s2 2,
  add s2 s2 t6,
  li s3 0,
  fmv_s_x ft1 zero,
  .label loop_sum,
  bge s3 a6 dot_done,
  slli s4 s3 2,
  add s5 s4 s2,
  add s6 s4 t4,
  flw ft2 0 s5,
  flw ft3 0 s6,
  fmadd_s ft1 ft2 ft3 ft1,
  addi s3 s3 1,
  j loop_sum,
  .label dot_done,
  fmul_s ft1 ft1 ft5,
  slli s7 t0 2,
  add s7 t5 s7,
  fsw ft1 0 s7,
  addi t0 t0 32,
  j loop,
  .label done,
  ebreak]

def softmax_decode : List (Line Label) := [
  lw a1 0 a0,
  lw a2 4 a0,
  lw a3 8 a0,
  csrr_mhartid t0,
  andi s3 t0 0x1F,
  srli t1 t0 13,
  addi s2 a2 1,
  mul t0 t1 a3,
  slli t0 t0 2,
  add s1 a1 t0,
  sub s4 s2 s3,
  addi s4 s4 31,
  srli s4 s4 5,
  li t0 0xFF800000,
  fmv_s_x ft0 t0,
  mv s5 s4,
  slli t1 s3 2,
  add t1 s1 t1,
  .label p1_loop,
  beqz s5 p1_done,
  flw ft1 0 t1,
  fmax_s ft0 ft0 ft1,
  addi t1 t1 128,
  addi s5 s5 (-1),
  j p1_loop,
  .label p1_done,
  VSHFL_XOR ft3 ft0 1,
  fmax_s ft0 ft0 ft3,
  VSHFL_XOR ft3 ft0 2,
  fmax_s ft0 ft0 ft3,
  VSHFL_XOR ft3 ft0 4,
  fmax_s ft0 ft0 ft3,
  VSHFL_XOR ft3 ft0 8,
  fmax_s ft0 ft0 ft3,
  VSHFL_XOR ft3 ft0 16,
  fmax_s ft0 ft0 ft3,
  fmv_s ft5 ft0,
  fmv_s_x ft6 zero,
  mv s5 s4,
  slli t1 s3 2,
  add t1 s1 t1,
  .label p2_loop,
  beqz s5 p2_done,
  flw ft0 0 t1,
  fsub_s ft0 ft0 ft5,
  VEXP_S ft0 ft0,
  fsw ft0 0 t1,
  fadd_s ft6 ft6 ft0,
  addi t1 t1 128,
  addi s5 s5 (-1),
  j p2_loop,
  .label p2_done,
  VSHFL_XOR ft3 ft6 1,
  fadd_s ft6 ft6 ft3,
  VSHFL_XOR ft3 ft6 2,
  fadd_s ft6 ft6 ft3,
  VSHFL_XOR ft3 ft6 4,
  fadd_s ft6 ft6 ft3,
  VSHFL_XOR ft3 ft6 8,
  fadd_s ft6 ft6 ft3,
  VSHFL_XOR ft3 ft6 16,
  fadd_s ft6 ft6 ft3,
  mv s5 s4,
  beqz s5 done,
  slli t1 s3 2,
  add t1 s1 t1,
  .label p3_loop,
  flw ft0 0 t1,
  fdiv_s ft0 ft0 ft6,
  fsw ft0 0 t1,
  addi t1 t1 128,
  addi s5 s5 (-1),
  bnez s5 p3_loop,
  .label done,
  ebreak]

def pv_decode : List (Line Label) := [
  lw a1 0 a0,
  lw a2 4 a0,
  lw a3 8 a0,
  lw a4 12 a0,
  lw a5 16 a0,
  lw a6 20 a0,
  lw a7 24 a0,
  csrr_mhartid t1,
  andi s8 t1 0x1F,
  srli s7 t1 13,
  div s9 s7 a7,
  addi s10 a4 1,
  li t0 32,
  div s11 a6 t0,
  slli s3 a6 2,
  mul t0 s7 a5,
  slli t0 t0 2,
  add s0 a1 t0,
  mul t0 s9 a5,
  mul t0 t0 a6,
  slli t0 t0 2,
  add s1 a2 t0,
  mul t0 s7 a6,
  slli t0 t0 2,
  add s2 a3 t0,
  mv t1 zero,
  beqz s11 done,
  .label k_loop,
  slli t2 t1 5,
  add t2 s8 t2,
  bge t2 a6 end_k,
  fmv_s_x ft0 zero,
  mv t3 zero,
  slli t4 t2 2,
  add t5 s1 t4,
  mv t6 s0,
  .label j_loop,
  beq t3 s10 j_loop_end,
  flw ft1 0 t6,
  flw ft2 0 t5,
  fmul_s ft3 ft1 ft2,
  fadd_s ft0 ft0 ft3,
  addi t6 t6 4,
  add t5 t5 s3,
  addi t3 t3 1,
  j j_loop,
  .label j_loop_end,
  add t0 s2 t4,
  fsw ft0 0 t0,
  .label end_k,
  addi t1 t1 1,
  blt t1 s11 k_loop,
  .label done,
  ebreak]

/-! ## `softmax.S` and `softmax16.S` -/

def softmax : List (Line Label) := [
  lw a1 0 a0,
  lw a2 4 a0,
  lw a3 8 a0,
  csrr_mhartid t0,
  andi t0 t0 0x1F,
  li t3 112,
  mul t1 t0 t3,
  li t0 28,
  add t2 a1 t1,
  li t4 0xFF800000,
  fmv_s_x ft0 t4,
  .label loop,
  flw ft1 0 t2,
  fmax_s ft0 ft0 ft1,
  addi t2 t2 4,
  addi t0 t0 (-1),
  bnez t0 loop,
  fmv_s ft0 ft0,
  VSHFL_XOR ft2 ft0 1,
  fmax_s ft0 ft0 ft2,
  VSHFL_XOR ft2 ft0 2,
  fmax_s ft0 ft0 ft2,
  VSHFL_XOR ft2 ft0 4,
  fmax_s ft0 ft0 ft2,
  VSHFL_XOR ft2 ft0 8,
  fmax_s ft0 ft0 ft2,
  VSHFL_XOR ft2 ft0 16,
  fmax_s ft0 ft0 ft2,
  li t0 28,
  add t2 a1 t1,
  fmv_s_x ft1 zero,
  .label loop_sum,
  flw ft2 0 t2,
  fsub_s ft2 ft2 ft0,
  VEXP_S ft2 ft2,
  fadd_s ft1 ft1 ft2,
  addi t2 t2 4,
  addi t0 t0 (-1),
  bnez t0 loop_sum,
  fmv_s ft1 ft1,
  VSHFL_XOR ft2 ft1 1,
  fadd_s ft1 ft1 ft2,
  VSHFL_XOR ft2 ft1 2,
  fadd_s ft1 ft1 ft2,
  VSHFL_XOR ft2 ft1 4,
  fadd_s ft1 ft1 ft2,
  VSHFL_XOR ft2 ft1 8,
  fadd_s ft1 ft1 ft2,
  VSHFL_XOR ft2 ft1 16,
  fadd_s ft1 ft1 ft2,
  li t0 28,
  add t2 a1 t1,
  add t3 a2 t1,
  .label loop_result,
  flw ft2 0 t2,
  fsub_s ft2 ft2 ft0,
  VEXP_S ft2 ft2,
  fdiv_s ft3 ft2 ft1,
  fsw ft3 0 t3,
  addi t2 t2 4,
  addi t3 t3 4,
  addi t0 t0 (-1),
  bnez t0 loop_result,
  ebreak]

def softmax16 : List (Line Label) := [
  lw a1 0 a0,
  lw a2 4 a0,
  csrr_mhartid t0,
  srli t3 t0 13,
  andi t0 t0 0x1F,
  slli t4 t3 6,
  add t1 a1 t4,
  add t2 a2 t4,
  li t6 16,
  li t5 0xFF800000,
  fmv_s_x ft1 t5,
  bge t0 t6 A_virt,
  slli t4 t0 2,
  add t4 t1 t4,
  flw ft0 0 t4,
  j A_reduce,
  .label A_virt,
  fmv_s ft0 ft1,
  .label A_reduce,
  VSHFL_XOR ft3 ft0 1,
  fmax_s ft0 ft0 ft3,
  VSHFL_XOR ft3 ft0 2,
  fmax_s ft0 ft0 ft3,
  VSHFL_XOR ft3 ft0 4,
  fmax_s ft0 ft0 ft3,
  VSHFL_XOR ft3 ft0 8,
  fmax_s ft0 ft0 ft3,
  VSHFL_XOR ft3 ft0 16,
  fmax_s ft0 ft0 ft3,
  fmv_s ft3 ft0,
  bge t0 t6 B_virt,
  flw ft0 0 t4,
  fsub_s ft0 ft0 ft3,
  VEXP_S ft0 ft0,
  j B_reduce,
  .label B_virt,
  fcvt_s_w ft0 zero,
  .label B_reduce,
  fmv_s ft2 ft0,
  VSHFL_XOR ft4 ft0 1,
  fadd_s ft0 ft0 ft4,
  VSHFL_XOR ft4 ft0 2,
  fadd_s ft0 ft0 ft4,
  VSHFL_XOR ft4 ft0 4,
  fadd_s ft0 ft0 ft4,
  VSHFL_XOR ft4 ft0 8,
  fadd_s ft0 ft0 ft4,
  VSHFL_XOR ft4 ft0 16,
  fadd_s ft0 ft0 ft4,
  fmv_s ft4 ft0,
  bge t0 t6 done,
  fdiv_s ft0 ft2 ft4,
  slli t4 t0 2,
  add t4 t2 t4,
  fsw ft0 0 t4,
  .label done,
  ebreak]

/-! ## `argmax.S` -/

def REDUCE_STEP (n : Nat) : List (Line Label) := [
  fmv_x_s a5 ft4,
  flt_s t5 ft1 ft3,
  bnez t5 (one n),
  feq_s t5 ft1 ft3,
  beqz t5 (two n),
  bgeu a5 s0 (two n),
  .label (one n),
  fmv_s ft1 ft3,
  fmv_s ft2 ft4,
  mv s0 a5,
  .label (two n)]

def DUMP_FT2 (slot : Word) : List (Line Label) := [
  slli t6 t0 5,
  addi t6 t6 (slot * 4),
  add t6 t6 a6,
  fmv_x_s a7 ft2,
  sw a7 0 t6]

/-- One round of the reduction: the exchange with the lane `mask` away, and the dump. -/
def reduce_round (mask : Nat) (slot : Word) : List (Line Label) :=
  [VSHFL_XOR ft3 ft1 mask, VSHFL_XOR ft4 ft2 mask] ++ REDUCE_STEP mask ++ DUMP_FT2 slot

def argmax : List (Line Label) := [
  lw a1 4 a0,
  lw a2 8 a0,
  lw a6 12 a0,
  lw a0 0 a0,
  csrr_mhartid t0,
  andi t0 t0 0x1F,
  li s0 0x7F7FFFFF,
  li a3 0xFF800000,
  fmv_s_x ft1 a3,
  addi t3 a1 31,
  srli t3 t3 5,
  li t1 0,
  .label phaseA_loop,
  slli t2 t1 5,
  add t2 t2 t0,
  bgeu t2 a1 phaseA_skip,
  slli t4 t2 2,
  add t4 t4 a0,
  flw ft0 0 t4,
  flt_s t5 ft1 ft0,
  beqz t5 phaseA_skip,
  fmv_s ft1 ft0,
  mv s0 t2,
  .label phaseA_skip,
  addi t1 t1 1,
  bne t1 t3 phaseA_loop,
  fmv_s_x ft2 s0] ++
  DUMP_FT2 0 ++
  reduce_round 16 1 ++
  reduce_round 8 2 ++
  reduce_round 4 3 ++
  reduce_round 2 4 ++
  reduce_round 1 5 ++ [
  slli t6 t0 5,
  addi t6 t6 24,
  add t6 t6 a6,
  sw s0 0 t6,
  bnez t0 done,
  fmv_x_s a4 ft2,
  sw a4 0 a2,
  .label done,
  ebreak]

end gpgpu.source
