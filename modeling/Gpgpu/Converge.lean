-- Shuffles and registers, from the text of the code alone. If no jump leads over a shuffle,
-- the min-PC order brings all lanes there together; and if every way to an instruction writes
-- the registers that it reads, nothing depends on what they held at first.
import Gpgpu.Warp
import Gpgpu.Sources
import Gpgpu.Formats

open memory words cells

namespace gpgpu.core

/-! ## What the text says -/

inductive Reg
  | x (r : X)
  | f (r : F)

def Reg.number : Reg → Nat
  | .x r => r.ctorIdx
  | .f r => 32 + r.ctorIdx

theorem Reg.number_inj {r r' : Reg} (h : r.number = r'.number) : r = r' := by
  have hx : ∀ x : X, x.ctorIdx < 32 := by
    intro x
    cases x <;> decide
  cases r with
  | x x =>
    cases r' with
    | x x' =>
      have heq : x.ctorIdx = x'.ctorIdx := h
      rw [← X.ofNat_ctorIdx x, heq, X.ofNat_ctorIdx]
    | f f =>
      have := hx x
      have heq : x.ctorIdx = 32 + f.ctorIdx := h
      omega
  | f f =>
    cases r' with
    | x x =>
      have := hx x
      have heq : 32 + f.ctorIdx = x.ctorIdx := h
      omega
    | f f' =>
      have heq : 32 + f.ctorIdx = 32 + f'.ctorIdx := h
      rw [← F.ofNat_ctorIdx f, Nat.add_left_cancel heq, F.ofNat_ctorIdx]

/-- The register that an instruction writes. -/
def Instr.dest : Instr Nat → Option Reg
  | .lw rd _ _ | .li rd _ | .opi _ rd _ _ | .op _ rd _ _ | .csrr_mhartid rd | .fmv_x_s rd _
  | .fcmp _ rd _ _ => some (.x rd)
  | .flw rd _ _ | .fmv_s_x rd _ | .fcvt_s_w rd _ | .fmv_s rd _ | .fop _ rd _ _ | .fmadd rd _ _ _
  | .fsqrt rd _ | .vexp rd _ | .vshfl_xor rd _ _ => some (.f rd)
  | .sw _ _ _ | .fsw _ _ _ | .branch _ _ _ _ | .j _ | .ebreak => none

/-- The registers that an instruction reads. -/
def Instr.uses : Instr Nat → List Reg
  | .lw _ _ rs | .flw _ _ rs | .opi _ _ rs _ | .fmv_s_x _ rs | .fcvt_s_w _ rs => [.x rs]
  | .sw rs2 _ rs => [.x rs2, .x rs]
  | .fsw rs2 _ rs => [.f rs2, .x rs]
  | .op _ _ rs1 rs2 | .branch _ rs1 rs2 _ => [.x rs1, .x rs2]
  | .fmv_x_s _ rs | .fmv_s _ rs | .fsqrt _ rs | .vexp _ rs | .vshfl_xor _ rs _ => [.f rs]
  | .fop _ _ rs1 rs2 | .fcmp _ _ rs1 rs2 => [.f rs1, .f rs2]
  | .fmadd _ rs1 rs2 rs3 => [.f rs1, .f rs2, .f rs3]
  | .li _ _ | .j _ | .csrr_mhartid _ | .ebreak => []

/-- The registers of an instruction's result, as a set of bits. -/
def Instr.gain (i : Instr Nat) : Nat :=
  match i.dest with
  | none => 0
  | some r => 2 ^ r.number

/-- What a lane has before it begins: `zero` and `a0`. -/
def GIVEN : Nat := 2 ^ (Reg.x .zero).number ||| 2 ^ (Reg.x .a0).number

/-- The sets of registers that are written on every way to an instruction, in the order of the
code. A jump back is left to `covered`. -/
def assigned (code : List (Instr Nat)) : List Nat :=
  (List.range code.length).foldl (fun table pc =>
    table ++ [if pc = 0 then GIVEN else (List.range pc).foldl (fun set p =>
      match code[p]? with
      | none => set
      | some ins => if (ins.succs p).elem pc then set &&& (table.getD p 0 ||| ins.gain) else set)
      (2 ^ 64 - 1)]) []

/-- The table holds on every way: an instruction reads only what is there, and leads only to
places that ask for no more than it leaves. -/
def covered (code : List (Instr Nat)) (table : List Nat) : Bool :=
  table.getD 0 0 == GIVEN && (List.range code.length).all fun p =>
    match code[p]? with
    | none => true
    | some ins => ins.uses.all (fun r => (table.getD p 0).testBit r.number) &&
      (ins.succs p).all fun q =>
        decide (q < code.length) && table.getD q 0 &&& (table.getD p 0 ||| ins.gain) == table.getD q 0

/-- No way leads over a shuffle or back over one, and none ends before it. -/
def segmented (code : List (Instr Nat)) : Bool :=
  (List.range code.length).all fun s =>
    match code[s]? with
    | some (.vshfl_xor _ _ _) => (List.range code.length).all fun p =>
      match code[p]? with
      | none => true
      | some ins => (ins.succs p).all (fun q => if p < s then decide (q ≤ s) else decide (s < q)) &&
        (decide (s ≤ p) || !ins.ends)
    | _ => true

/-- The text passes both tests. -/
def tested (code : List (Instr Nat)) : Bool :=
  decide (0 < code.length) && covered code (assigned code) && segmented code

section

variable {code : List (Instr Nat)} {table : List Nat} {ins : Instr Nat} {p q s : Nat}

theorem covered_at (h : covered code table = true) (hp : code[p]? = some ins) :
    (∀ r ∈ ins.uses, (table.getD p 0).testBit r.number = true) ∧ ∀ q ∈ ins.succs p,
      q < code.length ∧ table.getD q 0 &&& (table.getD p 0 ||| ins.gain) = table.getD q 0 := by
  obtain ⟨hlt, -⟩ := List.getElem?_eq_some_iff.mp hp
  unfold covered at h
  rw [Bool.and_eq_true, List.all_eq_true] at h
  have hat := h.2 p (List.mem_range.mpr hlt)
  simp only [hp, Bool.and_eq_true, List.all_eq_true, decide_eq_true_eq, beq_iff_eq] at hat
  exact hat

theorem covered_zero (h : covered code table = true) : table.getD 0 0 = GIVEN := by
  unfold covered at h
  rw [Bool.and_eq_true, beq_iff_eq] at h
  exact h.1

theorem segmented_at (h : segmented code = true) {rd rs : F} {mask : Nat}
    (hs : code[s]? = some (.vshfl_xor rd rs mask)) (hp : code[p]? = some ins) :
    (p < s → ins.ends = false ∧ ∀ q ∈ ins.succs p, q ≤ s) ∧
      (s ≤ p → ∀ q ∈ ins.succs p, s < q) := by
  obtain ⟨hslt, -⟩ := List.getElem?_eq_some_iff.mp hs
  obtain ⟨hplt, -⟩ := List.getElem?_eq_some_iff.mp hp
  unfold segmented at h
  rw [List.all_eq_true] at h
  have hat := h s (List.mem_range.mpr hslt)
  simp only [hs, List.all_eq_true] at hat
  have hpat := hat p (List.mem_range.mpr hplt)
  simp only [hp, Bool.and_eq_true, List.all_eq_true, Bool.or_eq_true, decide_eq_true_eq,
    Bool.not_eq_true'] at hpat
  obtain ⟨hsuccs, hends⟩ := hpat
  refine ⟨fun hlt => ⟨hends.resolve_left (by omega), fun q hq => ?_⟩, fun hle q hq => ?_⟩
  · have hq' := hsuccs q hq
    rw [if_pos hlt] at hq'
    exact of_decide_eq_true hq'
  · have hq' := hsuccs q hq
    rw [if_neg (by omega)] at hq'
    exact of_decide_eq_true hq'

/-- A register that is there on every way is there before an instruction that leads here, or
is what that instruction writes. -/
theorem covered_before (h : covered code table = true) (hp : code[p]? = some ins)
    (hq : q ∈ ins.succs p) {r : Reg} (hr : (table.getD q 0).testBit r.number = true) :
    ins.dest = some r ∨ (table.getD p 0).testBit r.number = true := by
  have hsub := ((covered_at h hp).2 q hq).2
  rw [← hsub, Nat.testBit_and, Nat.testBit_or, Bool.and_eq_true, Bool.or_eq_true] at hr
  rcases hr.2 with hr | hr
  · exact .inr hr
  · left
    unfold Instr.gain at hr
    split at hr
    · simp at hr
    · next r' hdest =>
      rw [Nat.testBit_two_pow, decide_eq_true_eq] at hr
      rw [hdest, Reg.number_inj hr]

end

/-! ## All lanes come to a shuffle together -/

variable {V C : Type} {fm : Format V C} {code : List (Instr Nat)} {table : List Nat}
  {w w' : Warp V C} {pc n : Nat}

/-- The lanes are in the code, and no shuffle stands between two of them. Before a shuffle all
lanes are active. -/
structure Together (code : List (Instr Nat)) (w : Warp V C) : Prop where
  inside : ∀ i, (w.lanes i).pc < code.length
  segment : ∀ s rd rs mask, code[s]? = some (.vshfl_xor rd rs mask) →
    (∀ i, (w.lanes i).pc ≤ s ∧ (w.lanes i).active = true) ∨ ∀ i, s < (w.lanes i).pc

theorem Together.begin (hlen : 0 < code.length) (regs : Fin 32 → Regs V) (block : Nat) (args : Word)
    (m : Nat → C) : Together code (begin_warp regs block args m) :=
  ⟨fun _ => hlen, fun s _ _ _ _ => .inl fun _ => ⟨Nat.zero_le s, rfl⟩⟩

/-- The shuffle itself is met by all. -/
theorem Together.all_at (h : Together code w) (hpc : w.min_pc = some pc) {rd rs : F} {mask : Nat}
    (hs : code[pc]? = some (.vshfl_xor rd rs mask)) (i : Fin 32) : w.current_mask pc i = true := by
  obtain ⟨⟨k, hk⟩, hmin⟩ := min_pc_some hpc
  rw [current_mask_iff] at hk ⊢
  rcases h.segment pc rd rs mask hs with hall | hall
  · have hle := hmin i (hall i).2
    have hge := (hall i).1
    exact ⟨(hall i).2, by omega⟩
  · have hlt := hall k
    omega

theorem Together.cycle (fm : Format V C) (hcov : covered code table = true)
    (hseg : segmented code = true) (h : Together code w) :
    ∃ w', core.cycle fm code w = some w' ∧ Together code w' := by
  cases hpc : w.min_pc with
  | none => exact ⟨w, by rw [core.cycle, hpc], h⟩
  | some pc =>
    obtain ⟨⟨k, hk⟩, hmin⟩ := min_pc_some hpc
    obtain ⟨hactive, hkpc⟩ := current_mask_iff.mp hk
    have hlt : pc < code.length := hkpc ▸ h.inside k
    have hins : code[pc]? = some code[pc] := List.getElem?_eq_getElem hlt
    obtain ⟨w', hw', hrest, hmoved⟩ := cycle_lanes fm hpc hins
    refine ⟨w', hw', fun i => ?_, fun s rd rs mask hs => ?_⟩
    · cases hi : w.current_mask pc i with
      | false =>
        rw [hrest i hi]
        exact h.inside i
      | true => exact ((covered_at hcov hins).2 _ (hmoved i hi).1).1
    · obtain ⟨hbefore, hbehind⟩ := segmented_at hseg hs hins
      rcases h.segment s rd rs mask hs with hall | hall
      · have hle : pc ≤ s := hkpc ▸ (hall k).1
        rcases Nat.lt_or_eq_of_le hle with hltS | rfl
        · left
          intro i
          cases hi : w.current_mask pc i with
          | false =>
            rw [hrest i hi]
            exact hall i
          | true => exact ⟨(hbefore hltS).2 _ (hmoved i hi).1, (hmoved i hi).2 (hbefore hltS).1⟩
        · right
          intro i
          have hi := h.all_at hpc hs i
          exact hbehind (Nat.le_refl _) _ (hmoved i hi).1
      · right
        intro i
        cases hi : w.current_mask pc i with
        | false =>
          rw [hrest i hi]
          exact hall i
        | true =>
          have hsk := hall k
          exact hbehind (by omega) _ (hmoved i hi).1

/-! ## What a lane has written -/

/-- Lane `i` has written register `r` in one of the first `n` cycles. -/
def Wrote (fm : Format V C) (code : List (Instr Nat)) (w : Warp V C) (n : Nat) (i : Fin 32)
    (r : Reg) : Prop :=
  ∃ k < n, ∃ w' pc ins, exec_warp fm code k w = some w' ∧ w'.min_pc = some pc ∧
    code[pc]? = some ins ∧ w'.current_mask pc i = true ∧ ins.dest = some r

/-- What the table promises, the lanes have written themselves. -/
def Filled (fm : Format V C) (code : List (Instr Nat)) (table : List Nat) (w : Warp V C) (n : Nat)
    (w' : Warp V C) : Prop :=
  ∀ i r, (table.getD (w'.lanes i).pc 0).testBit r.number = true →
    r = .x .zero ∨ r = .x .a0 ∨ Wrote fm code w n i r

theorem filled_begin (hcov : covered code table = true) (regs : Fin 32 → Regs V) (block : Nat)
    (args : Word) (m : Nat → C) :
    Filled fm code table (begin_warp regs block args m) 0 (begin_warp regs block args m) := by
  intro i r hr
  have hr' : (table.getD 0 0).testBit r.number = true := hr
  rw [covered_zero hcov, GIVEN, Nat.testBit_or, Nat.testBit_two_pow, Nat.testBit_two_pow,
    Bool.or_eq_true, decide_eq_true_eq, decide_eq_true_eq] at hr'
  rcases hr' with h | h
  · exact .inl (Reg.number_inj h).symm
  · exact .inr (.inl (Reg.number_inj h).symm)

theorem Filled.cycle {w0 : Warp V C} (hcov : covered code table = true) (htog : Together code w)
    (h : Filled fm code table w0 n w) (hrun : exec_warp fm code n w0 = some w)
    (hcycle : core.cycle fm code w = some w') : Filled fm code table w0 (n + 1) w' := by
  have hlater : ∀ i r, Wrote fm code w0 n i r → Wrote fm code w0 (n + 1) i r :=
    fun i r ⟨k, hk, hrest⟩ => ⟨k, by omega, hrest⟩
  intro i r hr
  cases hpc : w.min_pc with
  | none =>
    rw [core.cycle, hpc] at hcycle
    cases hcycle
    exact (h i r hr).imp_right (.imp_right (hlater i r))
  | some pc =>
    obtain ⟨⟨k, hk⟩, -⟩ := min_pc_some hpc
    have hlt : pc < code.length := (current_mask_iff.mp hk).2 ▸ htog.inside k
    have hins : code[pc]? = some code[pc] := List.getElem?_eq_getElem hlt
    obtain ⟨w1, hw1, hrest, hmoved⟩ := cycle_lanes fm hpc hins
    obtain rfl : w1 = w' := Option.some.inj (hw1.symm.trans hcycle)
    cases hi : w.current_mask pc i with
    | false =>
      rw [hrest i hi] at hr
      exact (h i r hr).imp_right (.imp_right (hlater i r))
    | true =>
      rcases covered_before hcov hins (hmoved i hi).1 hr with hdest | hthere
      · exact .inr (.inr ⟨n, Nat.lt_succ_self n, w, pc, _, hrun, hpc, hins, hi, hdest⟩)
      · rw [← (current_mask_iff.mp hi).2] at hthere
        exact (h i r hthere).imp_right (.imp_right (hlater i r))

/-! ## What the first contents of the registers do -/

def Lane.agrees (l l' : Lane V) : Reg → Prop
  | .x r => l.x r = l'.x r
  | .f r => l.f r = l'.f r

/-- Two lanes that differ only in registers outside `S`. -/
structure Twins (S : Reg → Prop) (l l' : Lane V) : Prop where
  pc : l.pc = l'.pc
  active : l.active = l'.active
  mhartid : l.mhartid = l'.mhartid
  log : l.log = l'.log
  regs : ∀ r, S r → l.agrees l' r

namespace Twins

variable {S S' : Reg → Prop} {l l' : Lane V} {ins : Instr Nat} {m : Nat → C}

theorem mono (h : Twins S l l') (hsub : ∀ r, S' r → S r) : Twins S' l l' :=
  { h with regs := fun r hr => h.regs r (hsub r hr) }

theorem quiet (h : Twins S l l') : Twins (fun r => none = some r ∨ S r) l l' :=
  h.mono fun _ hr => hr.resolve_left (by simp)

theorem setX (h : Twins S l l') (rd : X) (v : Word) :
    Twins (fun r => some (.x rd) = some r ∨ S r) (l.setX rd v) (l'.setX rd v) := by
  refine ⟨h.pc, h.active, h.mhartid, h.log, fun r hr => ?_⟩
  cases r with
  | x r =>
    show (l.setX rd v).x r = (l'.setX rd v).x r
    rw [x_setX, x_setX]
    by_cases hrd : r = rd
    · simp [hrd]
    · have hS : S (.x r) := hr.resolve_left fun he => hrd (Reg.x.inj (Option.some.inj he)).symm
      have hsame : l.x r = l'.x r := h.regs _ hS
      simp [hrd, hsame]
  | f r => exact h.regs _ (hr.resolve_left (by simp))

theorem setF (h : Twins S l l') (rd : F) (v : V) :
    Twins (fun r => some (.f rd) = some r ∨ S r) (l.setF rd v) (l'.setF rd v) := by
  refine ⟨h.pc, h.active, h.mhartid, h.log, fun r hr => ?_⟩
  cases r with
  | x r => exact h.regs _ (hr.resolve_left (by simp))
  | f r =>
    show (l.setF rd v).f r = (l'.setF rd v).f r
    rw [f_setF, f_setF]
    by_cases hrd : r = rd
    · simp [hrd]
    · have hS : S (.f r) := hr.resolve_left fun he => hrd (Reg.f.inj (Option.some.inj he)).symm
      have hsame : l.f r = l'.f r := h.regs _ hS
      simp [hrd, hsame]

theorem goto (h : Twins S l l') (pc : Nat) : Twins S (l.goto pc) (l'.goto pc) :=
  ⟨rfl, h.active, h.mhartid, h.log, fun r hr => by cases r <;> exact h.regs _ hr⟩

theorem next (h : Twins S l l') : Twins S l.next l'.next :=
  ⟨congrArg (· + 1) h.pc, h.active, h.mhartid, h.log, fun r hr => by cases r <;> exact h.regs _ hr⟩

theorem halt (h : Twins S l l') : Twins S l.halt l'.halt :=
  ⟨h.pc, rfl, h.mhartid, h.log, fun r hr => by cases r <;> exact h.regs _ hr⟩

theorem note (h : Twins S l l') (e : Access V) : Twins S (l.note e) (l'.note e) :=
  ⟨h.pc, h.active, h.mhartid, congrArg (e :: ·) h.log, fun r hr => by cases r <;> exact h.regs _ hr⟩

/-- An instruction that reads only registers in `S` treats both lanes alike. -/
theorem act (h : Twins S l l') (fm : Format V C) (m : Nat → C) (hplain : ins.shuffles = false)
    (huses : ∀ r ∈ ins.uses, S r) :
    Twins (fun r => ins.dest = some r ∨ S r) ((act fm l ins).lane fm.toCells m)
      ((core.act fm l' ins).lane fm.toCells m) ∧
    (core.act fm l ins).mem fm.toCells m = (core.act fm l' ins).mem fm.toCells m := by
  have hx : ∀ r, .x r ∈ ins.uses → l.x r = l'.x r := fun r hr => h.regs _ (huses _ hr)
  have hf : ∀ r, .f r ∈ ins.uses → l.f r = l'.f r := fun r hr => h.regs _ (huses _ hr)
  cases ins with
  | lw rd imm rs =>
    simp only [core.act, Act.lane, Act.mem, hx rs (by simp [Instr.uses])]
    exact ⟨(h.setX rd _).next.note _, trivial⟩
  | sw rs2 imm rs =>
    simp only [core.act, Act.lane, Act.mem, hx rs (by simp [Instr.uses]),
      hx rs2 (by simp [Instr.uses])]
    exact ⟨h.quiet.next.note _, trivial⟩
  | flw rd imm rs =>
    simp only [core.act, Act.lane, Act.mem, hx rs (by simp [Instr.uses])]
    exact ⟨(h.setF rd _).next.note _, trivial⟩
  | fsw rs2 imm rs =>
    simp only [core.act, Act.lane, Act.mem, hx rs (by simp [Instr.uses]),
      hf rs2 (by simp [Instr.uses])]
    exact ⟨h.quiet.next.note _, trivial⟩
  | li rd imm => exact ⟨(h.setX rd imm).next, rfl⟩
  | opi o rd rs imm =>
    simp only [core.act, Act.lane, Act.mem, hx rs (by simp [Instr.uses])]
    exact ⟨(h.setX rd _).next, trivial⟩
  | op o rd rs1 rs2 =>
    simp only [core.act, Act.lane, Act.mem, hx rs1 (by simp [Instr.uses]),
      hx rs2 (by simp [Instr.uses])]
    exact ⟨(h.setX rd _).next, trivial⟩
  | branch c rs1 rs2 target =>
    simp only [core.act, Act.lane, Act.mem, hx rs1 (by simp [Instr.uses]),
      hx rs2 (by simp [Instr.uses])]
    split
    · exact ⟨h.quiet.goto target, trivial⟩
    · exact ⟨h.quiet.next, trivial⟩
  | j target => exact ⟨h.quiet.goto target, rfl⟩
  | csrr_mhartid rd =>
    simp only [core.act, Act.lane, Act.mem, h.mhartid]
    exact ⟨(h.setX rd _).next, trivial⟩
  | fmv_s_x rd rs =>
    simp only [core.act, Act.lane, Act.mem, hx rs (by simp [Instr.uses])]
    exact ⟨(h.setF rd _).next, trivial⟩
  | fmv_x_s rd rs =>
    simp only [core.act, Act.lane, Act.mem, hf rs (by simp [Instr.uses])]
    exact ⟨(h.setX rd _).next, trivial⟩
  | fcvt_s_w rd rs =>
    simp only [core.act, Act.lane, Act.mem, hx rs (by simp [Instr.uses])]
    exact ⟨(h.setF rd _).next, trivial⟩
  | fmv_s rd rs =>
    simp only [core.act, Act.lane, Act.mem, hf rs (by simp [Instr.uses])]
    exact ⟨(h.setF rd _).next, trivial⟩
  | fop o rd rs1 rs2 =>
    simp only [core.act, Act.lane, Act.mem, hf rs1 (by simp [Instr.uses]),
      hf rs2 (by simp [Instr.uses])]
    exact ⟨(h.setF rd _).next, trivial⟩
  | fmadd rd rs1 rs2 rs3 =>
    simp only [core.act, Act.lane, Act.mem, hf rs1 (by simp [Instr.uses]),
      hf rs2 (by simp [Instr.uses]), hf rs3 (by simp [Instr.uses])]
    exact ⟨(h.setF rd _).next, trivial⟩
  | fsqrt rd rs =>
    simp only [core.act, Act.lane, Act.mem, hf rs (by simp [Instr.uses])]
    exact ⟨(h.setF rd _).next, trivial⟩
  | vexp rd rs =>
    simp only [core.act, Act.lane, Act.mem, hf rs (by simp [Instr.uses])]
    exact ⟨(h.setF rd _).next, trivial⟩
  | fcmp c rd rs1 rs2 =>
    simp only [core.act, Act.lane, Act.mem, hf rs1 (by simp [Instr.uses]),
      hf rs2 (by simp [Instr.uses])]
    exact ⟨(h.setX rd _).next, trivial⟩
  | vshfl_xor rd rs mask => cases hplain
  | ebreak => exact ⟨h.quiet.halt, rfl⟩

end Twins

/-- Two warps whose lanes agree in the registers that the table promises. -/
structure Alike (table : List Nat) (w w' : Warp V C) : Prop where
  lanes : ∀ i, Twins (fun r => (table.getD (w.lanes i).pc 0).testBit r.number = true) (w.lanes i)
    (w'.lanes i)
  mem : w.mem = w'.mem

theorem Alike.min_pc (h : Alike table w w') : w.min_pc = w'.min_pc := by
  unfold Warp.min_pc
  simp only [fun i => (h.lanes i).pc, fun i => (h.lanes i).active]

theorem Alike.current_mask (h : Alike table w w') (pc : Nat) :
    w.current_mask pc = w'.current_mask pc := by
  funext i
  unfold Warp.current_mask
  rw [(h.lanes i).pc, (h.lanes i).active]

theorem alike_begin (hcov : covered code table = true) (regs regs' : Fin 32 → Regs V) (block : Nat)
    (args : Word) (m : Nat → C) :
    Alike table (begin_warp regs block args m) (begin_warp regs' block args m) := by
  refine ⟨fun i => ⟨rfl, rfl, rfl, rfl, fun r hr => ?_⟩, rfl⟩
  have hr' : (table.getD 0 0).testBit r.number = true := hr
  rw [covered_zero hcov, GIVEN, Nat.testBit_or, Nat.testBit_two_pow, Nat.testBit_two_pow,
    Bool.or_eq_true, decide_eq_true_eq, decide_eq_true_eq] at hr'
  rcases hr' with hr' | hr'
  · rw [← Reg.number_inj hr']
    rfl
  · rw [← Reg.number_inj hr']
    show Lane.x _ _ = Lane.x _ _
    simp [begin_warp, begin_lane, Lane.x]

section

variable {ins : Instr Nat} {k : Fin 32}

theorem Alike.exec_lane (hcov : covered code table = true) (h : Alike table w w')
    (hins : code[(w.lanes k).pc]? = some ins) (hplain : ins.shuffles = false) :
    Alike table (exec_lane fm ins w k) (core.exec_lane fm ins w' k) := by
  obtain ⟨htwins, hmem⟩ := (h.lanes k).act fm w.mem hplain (covered_at hcov hins).1
  rw [h.mem] at hmem
  refine ⟨fun i => ?_, ?_⟩
  · unfold core.exec_lane
    rw [← h.mem]
    by_cases hi : i = k
    · subst hi
      simp only [Function.update_self]
      exact htwins.mono fun r hr => covered_before hcov hins act_pc hr
    · simp only [Function.update_of_ne hi]
      exact h.lanes i
  · unfold core.exec_lane
    rw [h.mem]
    exact hmem

theorem Alike.exec_lanes (hcov : covered code table = true) (hins : code[pc]? = some ins)
    (hplain : ins.shuffles = false) {is : List (Fin 32)} (hnodup : is.Nodup) (h : Alike table w w')
    (his : ∀ i ∈ is, (w.lanes i).pc = pc) :
    Alike table (is.foldl (core.exec_lane fm ins) w) (is.foldl (core.exec_lane fm ins) w') := by
  induction is generalizing w w' with
  | nil => exact h
  | cons k is ih =>
    obtain ⟨hk, hnodup⟩ := List.nodup_cons.mp hnodup
    have hkpc := his k (List.mem_cons_self ..)
    refine ih hnodup (h.exec_lane hcov (hkpc ▸ hins) hplain) fun i hi => ?_
    have hne : i ≠ k := fun he => hk (he ▸ hi)
    rw [show (core.exec_lane fm ins w k).lanes i = w.lanes i from Function.update_of_ne hne ..]
    exact his i (List.mem_cons_of_mem _ hi)

/-- A shuffle that all lanes meet. -/
theorem Alike.exec_vshfl (hcov : covered code table = true) (h : Alike table w w') {rd rs : F}
    {mask : Nat} (hins : code[pc]? = some (.vshfl_xor rd rs mask))
    (hall : ∀ i, w.current_mask pc i = true) :
    Alike table (exec_vshfl w pc rd rs mask) (core.exec_vshfl w' pc rd rs mask) := by
  refine ⟨fun i => ?_, h.mem⟩
  have hpci := fun i => (current_mask_iff.mp (hall i)).2
  have hsource : ∀ i, (w.lanes i).f rs = (w'.lanes i).f rs := by
    intro i
    apply (h.lanes i).regs (.f rs)
    rw [hpci i]
    exact (covered_at hcov hins).1 _ (by simp [Instr.uses])
  have hlane : ((core.exec_vshfl w pc rd rs mask).lanes i) =
      ((w.lanes i).setF rd ((w.lanes (mate mask i)).f rs)).next := if_pos (hall i)
  have hlane' : ((core.exec_vshfl w' pc rd rs mask).lanes i) =
      ((w'.lanes i).setF rd ((w.lanes (mate mask i)).f rs)).next := by
    rw [hsource]
    exact if_pos (h.current_mask pc ▸ hall i)
  rw [hlane, hlane']
  refine ((h.lanes i).setF rd _).next.mono fun r hr => ?_
  rw [pc_next, pc_setF, hpci i] at hr
  rw [hpci i]
  exact covered_before hcov hins (by simp [Instr.succs]) hr

end

theorem Alike.cycle (hcov : covered code table = true) (htog : Together code w)
    (h : Alike table w w') {w1 : Warp V C} (hcycle : cycle fm code w = some w1) :
    ∃ w1', core.cycle fm code w' = some w1' ∧ Alike table w1 w1' := by
  unfold core.cycle at hcycle ⊢
  rw [← h.min_pc]
  cases hpc : w.min_pc with
  | none =>
    rw [hpc] at hcycle
    cases hcycle
    exact ⟨w', rfl, h⟩
  | some pc =>
    obtain ⟨⟨k, hk⟩, -⟩ := min_pc_some hpc
    have hlt : pc < code.length := (current_mask_iff.mp hk).2 ▸ htog.inside k
    have hins : code[pc]? = some code[pc] := List.getElem?_eq_getElem hlt
    have hmask := h.current_mask pc
    have hlanes : ∀ ins, code[pc]? = some ins → ins.shuffles = false →
        Alike table (((List.finRange 32).filter (w.current_mask pc)).foldl (core.exec_lane fm ins) w)
          (((List.finRange 32).filter (w.current_mask pc)).foldl (core.exec_lane fm ins) w') := by
      intro ins hins hplain
      refine h.exec_lanes hcov hins hplain ((List.nodup_finRange 32).filter _) fun i hi => ?_
      exact (current_mask_iff.mp (List.mem_filter.mp hi).2).2
    rw [hpc] at hcycle
    simp only [← hmask]
    generalize hcode : code[pc] = ins at hins
    simp only [hins] at hcycle ⊢
    cases ins with
    | vshfl_xor rd rs mask =>
      cases hcycle
      exact ⟨_, rfl, h.exec_vshfl hcov hins (htog.all_at hpc hins)⟩
    | _ =>
      cases hcycle
      exact ⟨_, rfl, hlanes _ hins rfl⟩

/-! ## Runs -/

/-- From its begin a warp stays in the code, meets its shuffles with all lanes, and goes the
same way whatever its registers held at first. -/
theorem run_together (fm : Format V C) (hcov : covered code table = true)
    (hseg : segmented code = true) (hlen : 0 < code.length) (regs : Fin 32 → Regs V) (block : Nat)
    (args : Word) (m : Nat → C) (n : Nat) :
    ∃ w, exec_warp fm code n (begin_warp regs block args m) = some w ∧ Together code w ∧
      Filled fm code table (begin_warp regs block args m) n w ∧
      ∀ regs', ∃ w', exec_warp fm code n (begin_warp regs' block args m) = some w' ∧
        Alike table w w' := by
  induction n with
  | zero =>
    exact ⟨_, rfl, Together.begin hlen .., filled_begin hcov regs block args m,
      fun regs' => ⟨_, rfl, alike_begin hcov ..⟩⟩
  | succ n ih =>
    obtain ⟨w, hw, htog, hfilled, halike⟩ := ih
    obtain ⟨w1, hw1, htog1⟩ := htog.cycle fm hcov hseg
    refine ⟨w1, ?_, htog1, hfilled.cycle hcov htog hw hw1, fun regs' => ?_⟩
    · rw [exec_warp_succ, hw]
      exact hw1
    · obtain ⟨w', hw', hlike⟩ := halike regs'
      obtain ⟨w1', hw1', hlike1⟩ := hlike.cycle hcov htog hw1
      refine ⟨w1', ?_, hlike1⟩
      rw [exec_warp_succ, hw']
      exact hw1'

end gpgpu.core

namespace gpgpu.source

open core

/-- The kernels that shuffle. -/
def shuffling : List (List (Line Label)) := [argmax, softmax_decode, rmsnorm, softmax, softmax16]

theorem shuffling_tested : ∀ src ∈ shuffling, tested (assemble src) = true := by
  decide +kernel

/-- Each shuffle of these kernels runs with all 32 lanes, and each lane has itself written the
register that is shuffled. So what a launch leaves in memory, and when its lanes end, does not
depend on what the registers held at first. -/
theorem every_shuffle_meets_all_lanes {src : List (Line Label)} (hsrc : src ∈ shuffling)
    {V C : Type} (fm : Format V C) (regs : Fin 32 → Regs V) (block : Nat) (args : Word)
    (m : Nat → C) (n : Nat) :
    ∃ w, exec_warp fm (assemble src) n (begin_warp regs block args m) = some w ∧
      (∀ pc rd rs mask, w.min_pc = some pc → (assemble src)[pc]? = some (.vshfl_xor rd rs mask) →
        ∀ i, w.current_mask pc i = true ∧
          Wrote fm (assemble src) (begin_warp regs block args m) n i (.f rs)) ∧
      ∀ regs', ∃ w', exec_warp fm (assemble src) n (begin_warp regs' block args m) = some w' ∧
        w'.mem = w.mem ∧ ∀ i, (w'.lanes i).active = (w.lanes i).active ∧
          (w'.lanes i).pc = (w.lanes i).pc ∧ (w'.lanes i).log = (w.lanes i).log := by
  have htested := shuffling_tested src hsrc
  unfold tested at htested
  simp only [Bool.and_eq_true, decide_eq_true_eq] at htested
  obtain ⟨⟨hlen, hcov⟩, hseg⟩ := htested
  obtain ⟨w, hw, htog, hfilled, halike⟩ := run_together fm hcov hseg hlen regs block args m n
  refine ⟨w, hw, fun pc rd rs mask hpc hins i => ?_, fun regs' => ?_⟩
  · have hi := htog.all_at hpc hins i
    refine ⟨hi, ?_⟩
    have hbit := (covered_at hcov hins).1 (.f rs) (by simp [Instr.uses])
    rw [← (current_mask_iff.mp hi).2] at hbit
    rcases hfilled i _ hbit with h | h | h
    · cases h
    · cases h
    · exact h
  · obtain ⟨w', hw', hlike⟩ := halike regs'
    exact ⟨w', hw', hlike.mem.symm, fun i =>
      ⟨(hlike.lanes i).active.symm, (hlike.lanes i).pc.symm, (hlike.lanes i).log.symm⟩⟩

/-- The arguments of `argmax.S` for two logits. -/
def argsOfTwo : Mem := put (fun _ => 0) 64 [16, 2, 128, 256]

/-- With two logits the lanes come to the first shuffle after 28 cycles, all of them. -/
theorem argmax_meets_all_lanes :
    ∃ w, exec_warp countingFormat (assemble argmax) 28 (begin_warp zeroRegs 0 64 argsOfTwo) = some w ∧
      w.min_pc = some 30 ∧ (assemble argmax)[30]? = some (.vshfl_xor .ft3 .ft1 16) ∧
      ∀ i, w.current_mask 30 i = true ∧ Wrote countingFormat (assemble argmax)
        (begin_warp zeroRegs 0 64 argsOfTwo) 28 i (.f .ft1) := by
  obtain ⟨w, hw, hmeets, -⟩ := every_shuffle_meets_all_lanes (List.mem_cons_self ..) countingFormat
    zeroRegs 0 64 argsOfTwo 28
  have hpc : (exec_warp countingFormat (assemble argmax) 28
      (begin_warp zeroRegs 0 64 argsOfTwo)).bind Warp.min_pc = some 30 := by
    decide +kernel
  rw [hw] at hpc
  have hins : (assemble argmax)[30]? = some (.vshfl_xor .ft3 .ft1 16) := rfl
  exact ⟨w, hw, hpc, hins, hmeets 30 _ _ _ hpc hins⟩

end gpgpu.source
