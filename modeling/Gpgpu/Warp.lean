-- What one cycle of a warp does: which lanes it runs, and what a lane does in it.
import Gpgpu.Core

open memory words cells

namespace gpgpu.core

variable {V C : Type} {fm : Format V C} {code : List (Instr Nat)} {w w' : Warp V C} {l : Lane V}
  {ins : Instr Nat} {m : Nat → C} {i : Fin 32} {pc : Nat}

/-! ## Registers -/

section

variable (l : Lane V) (r r' : X) (f f' : F) (v : Word) (u : V) (n : Nat) (e : Access V)

@[simp] theorem x_zero : l.x .zero = 0 := rfl

@[simp] theorem x_setX : (l.setX r v).x r' = if r' = .zero then 0 else if r' = r then v else l.x r' := by
  unfold Lane.x Lane.setX
  simp only [Function.update_apply]
  by_cases h0 : r' = .zero
  · rw [if_pos h0, if_pos h0]
  · rw [if_neg h0, if_neg h0, if_neg h0]

@[simp] theorem f_setF : (l.setF f u).f f' = if f' = f then u else l.f f' := by
  unfold Lane.f Lane.setF
  exact Function.update_apply ..

@[simp] theorem f_setX : (l.setX r v).f f' = l.f f' := rfl
@[simp] theorem x_setF : (l.setF f u).x r = l.x r := rfl
@[simp] theorem x_goto : (l.goto n).x r = l.x r := rfl
@[simp] theorem f_goto : (l.goto n).f f = l.f f := rfl
@[simp] theorem x_next : l.next.x r = l.x r := rfl
@[simp] theorem f_next : l.next.f f = l.f f := rfl
@[simp] theorem x_halt : l.halt.x r = l.x r := rfl
@[simp] theorem f_halt : l.halt.f f = l.f f := rfl
@[simp] theorem x_note : (l.note e).x r = l.x r := rfl
@[simp] theorem f_note : (l.note e).f f = l.f f := rfl

@[simp] theorem pc_setX : (l.setX r v).pc = l.pc := rfl
@[simp] theorem pc_setF : (l.setF f u).pc = l.pc := rfl
@[simp] theorem pc_goto : (l.goto n).pc = n := rfl
@[simp] theorem pc_next : l.next.pc = l.pc + 1 := rfl
@[simp] theorem pc_halt : l.halt.pc = l.pc := rfl
@[simp] theorem pc_note : (l.note e).pc = l.pc := rfl

@[simp] theorem active_setX : (l.setX r v).active = l.active := rfl
@[simp] theorem active_setF : (l.setF f u).active = l.active := rfl
@[simp] theorem active_goto : (l.goto n).active = l.active := rfl
@[simp] theorem active_next : l.next.active = l.active := rfl
@[simp] theorem active_halt : l.halt.active = false := rfl
@[simp] theorem active_note : (l.note e).active = l.active := rfl

@[simp] theorem mhartid_setX : (l.setX r v).mhartid = l.mhartid := rfl
@[simp] theorem mhartid_setF : (l.setF f u).mhartid = l.mhartid := rfl
@[simp] theorem mhartid_goto : (l.goto n).mhartid = l.mhartid := rfl
@[simp] theorem mhartid_next : l.next.mhartid = l.mhartid := rfl
@[simp] theorem mhartid_halt : l.halt.mhartid = l.mhartid := rfl
@[simp] theorem mhartid_note : (l.note e).mhartid = l.mhartid := rfl

@[simp] theorem log_setX : (l.setX r v).log = l.log := rfl
@[simp] theorem log_setF : (l.setF f u).log = l.log := rfl
@[simp] theorem log_goto : (l.goto n).log = l.log := rfl
@[simp] theorem log_next : l.next.log = l.log := rfl
@[simp] theorem log_halt : l.halt.log = l.log := rfl
@[simp] theorem log_note : (l.note e).log = e :: l.log := rfl

end

/-! ## What an instruction can do -/

/-- Where an instruction at `pc` leads. -/
def Instr.succs (pc : Nat) : Instr Nat → List Nat
  | .branch _ _ _ target => [target, pc + 1]
  | .j target => [target]
  | .ebreak => [pc]
  | _ => [pc + 1]

def Instr.shuffles : Instr Nat → Bool
  | .vshfl_xor _ _ _ => true
  | _ => false

def Instr.ends : Instr Nat → Bool
  | .ebreak => true
  | _ => false

theorem act_pc : ((act fm l ins).lane fm.toCells m).pc ∈ ins.succs l.pc := by
  cases ins with
  | branch c rs1 rs2 target =>
    simp only [act, Act.lane, Instr.succs]
    split <;> simp
  | _ => simp [act, Act.lane, Instr.succs]

theorem act_active (h : ins.ends = false) :
    ((act fm l ins).lane fm.toCells m).active = l.active := by
  cases ins with
  | branch c rs1 rs2 target =>
    simp only [act, Act.lane]
    split <;> rfl
  | ebreak => cases h
  | _ => rfl

/-- What a lane has done so far stays in its log. -/
theorem act_log : l.log <:+ ((act fm l ins).lane fm.toCells m).log := by
  cases ins with
  | branch c rs1 rs2 target =>
    simp only [act, Act.lane]
    split <;> exact List.suffix_rfl
  | lw rd imm rs => exact List.suffix_cons ..
  | flw rd imm rs => exact List.suffix_cons ..
  | sw rs2 imm rs => exact List.suffix_cons ..
  | fsw rs2 imm rs => exact List.suffix_cons ..
  | _ => exact List.suffix_rfl

/-! ## The lanes of a cycle -/

theorem min_pc_none (h : w.min_pc = none) : w.Ended := by
  intro i
  unfold Warp.min_pc at h
  rw [List.min?_eq_none_iff, List.filterMap_eq_nil_iff] at h
  have hi := h i (List.mem_finRange i)
  by_contra hactive
  rw [if_pos (by simpa using hactive)] at hi
  cases hi

theorem min_pc_some (h : w.min_pc = some pc) :
    (∃ i, w.current_mask pc i = true) ∧ ∀ i, (w.lanes i).active = true → pc ≤ (w.lanes i).pc := by
  unfold Warp.min_pc at h
  rw [List.min?_eq_some_iff] at h
  obtain ⟨hmem, hle⟩ := h
  constructor
  · obtain ⟨i, -, hi⟩ := List.mem_filterMap.mp hmem
    refine ⟨i, ?_⟩
    unfold Warp.current_mask
    split at hi
    · simp_all
    · cases hi
  · intro i hactive
    apply hle
    rw [List.mem_filterMap]
    exact ⟨i, List.mem_finRange i, if_pos hactive⟩

theorem current_mask_iff :
    w.current_mask pc i = true ↔ (w.lanes i).active = true ∧ (w.lanes i).pc = pc := by
  simp [Warp.current_mask]

/-- The lanes that have not had their turn are as they were. -/
theorem exec_lanes_other {is : List (Fin 32)} (h : i ∉ is) :
    (is.foldl (exec_lane fm ins) w).lanes i = w.lanes i := by
  induction is generalizing w with
  | nil => rfl
  | cons k is ih =>
    rw [List.mem_cons, not_or] at h
    rw [List.foldl_cons, ih h.2]
    exact Function.update_of_ne h.1 ..

/-- Each lane of a cycle has its turn once, in the memory that it finds. -/
theorem exec_lanes_own {is : List (Fin 32)} (hnodup : is.Nodup) (h : i ∈ is) :
    ∃ m, (is.foldl (exec_lane fm ins) w).lanes i = (act fm (w.lanes i) ins).lane fm.toCells m := by
  induction is generalizing w with
  | nil => cases h
  | cons k is ih =>
    obtain ⟨hk, hnodup⟩ := List.nodup_cons.mp hnodup
    rw [List.foldl_cons]
    by_cases hik : i = k
    · subst hik
      rw [exec_lanes_other hk]
      exact ⟨w.mem, Function.update_self ..⟩
    · obtain ⟨m, hm⟩ := ih (w := exec_lane fm ins w k) hnodup
        ((List.mem_cons.mp h).resolve_left hik)
      refine ⟨m, hm.trans ?_⟩
      rw [show (exec_lane fm ins w k).lanes i = w.lanes i from Function.update_of_ne hik ..]

/-- The lanes after a cycle: those of its mask have made a step, and the others stand. -/
theorem cycle_lanes (fm : Format V C) (hpc : w.min_pc = some pc) (hins : code[pc]? = some ins) :
    ∃ w', cycle fm code w = some w' ∧
      (∀ i, w.current_mask pc i = false → w'.lanes i = w.lanes i) ∧
      ∀ i, w.current_mask pc i = true → (w'.lanes i).pc ∈ ins.succs pc ∧
        (ins.ends = false → (w'.lanes i).active = true) := by
  have hturn : ∀ is : List (Fin 32), is.Nodup → ∀ i, w.current_mask pc i = true → i ∈ is →
      ((is.foldl (exec_lane fm ins) w).lanes i).pc ∈ ins.succs pc ∧
        (ins.ends = false → ((is.foldl (exec_lane fm ins) w).lanes i).active = true) := by
    intro is hnodup i hi hmem
    obtain ⟨m, hm⟩ : ∃ m, (is.foldl (exec_lane fm ins) w).lanes i =
      (act fm (w.lanes i) ins).lane fm.toCells m := exec_lanes_own hnodup hmem
    obtain ⟨hactive, rfl⟩ := current_mask_iff.mp hi
    rw [hm]
    refine ⟨act_pc, fun hends => ?_⟩
    rw [act_active hends, hactive]
  have hnodup : ((List.finRange 32).filter (w.current_mask pc)).Nodup :=
    (List.nodup_finRange 32).filter _
  unfold cycle
  rw [hpc]
  simp only [hins]
  cases ins with
  | vshfl_xor rd rs mask =>
    refine ⟨_, rfl, fun i hi => ?_, fun i hi => ?_⟩
    · exact if_neg (by simp [hi])
    · obtain ⟨hactive, hpci⟩ := current_mask_iff.mp hi
      have hlane : (exec_vshfl w pc rd rs mask).lanes i =
          ((w.lanes i).setF rd ((w.lanes (mate mask i)).f rs)).next := if_pos hi
      rw [hlane]
      simp [Instr.succs, hactive, hpci]
  | _ =>
    refine ⟨_, rfl, fun i hi => ?_, fun i hi => ?_⟩
    · exact exec_lanes_other (by simp [hi])
    · exact hturn _ hnodup i hi (by simp [hi])

/-- The cycles of a run, the last one split off. -/
theorem exec_warp_succ (n : Nat) (w : Warp V C) :
    exec_warp fm code (n + 1) w = (exec_warp fm code n w).bind (cycle fm code) := by
  induction n generalizing w with
  | zero =>
    show (cycle fm code w).bind some = cycle fm code w
    cases cycle fm code w <;> rfl
  | succ n ih =>
    rw [exec_warp]
    conv_rhs => rw [exec_warp]
    rw [Option.bind_assoc]
    congr 1
    funext w1
    exact ih w1

end gpgpu.core
