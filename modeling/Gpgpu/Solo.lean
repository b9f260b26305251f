-- A lane on its own. Between two shuffles the lanes of a warp do not notice each other if what
-- one writes no other one touches: whatever the order of the cycles, each comes to where it
-- would have come alone. So a kernel is read as the program of one lane.
import Gpgpu.Warp

open memory words cells

namespace gpgpu.core

variable {V C : Type} {fm : Format V C} {code : List (Instr Nat)} {m0 : Nat → C} {hi k : Nat}
  {l l' l'' : Lane V} {ins : Instr Nat} {w : Warp V C} {i : Fin 32}

/-! ## The steps of one lane -/

/-- What a lane finds that has worked alone on the memory `m0`. -/
def view (fm : Format V C) (m0 : Nat → C) (l : Lane V) : Nat → C := replay fm.toCells m0 l.log

/-- A step of one lane, at a pc below `hi`. -/
def Solo (fm : Format V C) (code : List (Instr Nat)) (m0 : Nat → C) (hi : Nat) (l l' : Lane V) : Prop :=
  l.active = true ∧ l.pc < hi ∧ ∃ ins, code[l.pc]? = some ins ∧ ins.shuffles = false ∧
    l' = (act fm l ins).lane fm.toCells (view fm m0 l)

/-- A number of steps. -/
inductive Steps (fm : Format V C) (code : List (Instr Nat)) (m0 : Nat → C) (hi : Nat) :
    Nat → Lane V → Lane V → Prop
  | refl (l : Lane V) : Steps fm code m0 hi 0 l l
  | head {l l1 l' : Lane V} {k : Nat} (hstep : Solo fm code m0 hi l l1)
      (hrest : Steps fm code m0 hi k l1 l') :
      Steps fm code m0 hi (k + 1) l l'

/-- The lane comes from `l` to `l'`. -/
def Goes (fm : Format V C) (code : List (Instr Nat)) (m0 : Nat → C) (hi : Nat) (l l' : Lane V) : Prop :=
  ∃ k, Steps fm code m0 hi k l l'

theorem Goes.refl (l : Lane V) : Goes fm code m0 hi l l := ⟨0, .refl l⟩

theorem Goes.head (hstep : Solo fm code m0 hi l l') (h : Goes fm code m0 hi l' l'') :
    Goes fm code m0 hi l l'' := by
  obtain ⟨k, hk⟩ := h
  exact ⟨k + 1, .head hstep hk⟩

theorem Goes.trans (h1 : Goes fm code m0 hi l l') (h2 : Goes fm code m0 hi l' l'') :
    Goes fm code m0 hi l l'' := by
  obtain ⟨k, hk⟩ := h1
  induction hk with
  | refl l => exact h2
  | head hstep _ ih => exact (ih h2).head hstep

theorem Steps.log (h : Steps fm code m0 hi k l l') : l.log <:+ l'.log := by
  induction h with
  | refl l => exact List.suffix_rfl
  | head hstep _ ih =>
    obtain ⟨-, -, ins, -, -, rfl⟩ := hstep
    exact act_log.trans ih

/-! ## A step of the lane in the warp -/

/-- Only a load and a store add to the log. -/
theorem act_same_log (fm : Format V C) (l : Lane V) (ins : Instr Nat) :
    match act fm l ins with
    | .quiet l' => l'.log = l.log
    | .load _ k => ∀ v, (k v).log = l.log
    | .store _ _ l' => l'.log = l.log := by
  cases ins with
  | branch c rs1 rs2 target =>
    simp only [act]
    split <;> rfl
  | _ => simp [act]

/-- The logs of the lanes. -/
def logs (lanes : Fin 32 → Lane V) (i : Fin 32) : List (Access V) := (lanes i).log

theorem logs_update (lanes : Fin 32 → Lane V) (i : Fin 32) (l : Lane V) :
    logs (Function.update lanes i l) = Function.update (logs lanes) i l.log := by
  funext j
  unfold logs
  by_cases hj : j = i
  · subst hj
    rw [Function.update_self, Function.update_self]
  · rw [Function.update_of_ne hj, Function.update_of_ne hj]

/-- In the warp a lane makes the step that it would make alone, if the others write
elsewhere. -/
theorem exec_lane_solo (hcoh : Coherent fm.toCells m0 (logs w.lanes) w.mem)
    (hl : l = (act fm (w.lanes i) ins).lane fm.toCells (view fm m0 (w.lanes i)))
    (happ : ∀ j, j ≠ i → ∀ b ∈ written (logs w.lanes j), ∀ e ∈ l.log,
      b + 4 ≤ e.place ∨ e.place + 4 ≤ b) :
    (exec_lane fm ins w i).lanes = Function.update w.lanes i l ∧
      Coherent fm.toCells m0 (logs (exec_lane fm ins w i).lanes) (exec_lane fm ins w i).mem := by
  have hlog := act_same_log fm (w.lanes i) ins
  unfold exec_lane
  dsimp only
  rw [logs_update]
  cases hact : act fm (w.lanes i) ins with
  | quiet l1 =>
    rw [hact] at hl hlog
    have hlane : (Act.quiet l1).lane fm.toCells w.mem = l := hl.symm
    have hsame : Function.update (logs w.lanes) i l.log = logs w.lanes := by
      rw [hl]
      exact (congrArg _ hlog).trans (Function.update_eq_self i (logs w.lanes))
    rw [hlane, hsame]
    exact ⟨rfl, hcoh⟩
  | load a k =>
    rw [hact] at hl hlog
    have hget : fm.get w.mem a = fm.get (view fm m0 (w.lanes i)) a := by
      apply hcoh.get_eq
      intro j hj b hb
      have hmem : .load a ∈ l.log := by
        rw [hl]
        exact List.mem_cons_self ..
      exact happ j hj b hb _ hmem
    have hlane : (Act.load a k).lane fm.toCells w.mem = l := by
      rw [hl]
      simp only [Act.lane, hget]
    rw [hlane]
    refine ⟨rfl, ?_⟩
    have hnew : l.log = .load a :: logs w.lanes i := by
      rw [hl]
      exact congrArg _ (hlog _)
    rw [hnew]
    exact hcoh.load a
  | store a v l1 =>
    rw [hact] at hl hlog
    have hlane : (Act.store a v l1).lane fm.toCells w.mem = l := hl.symm
    have hnew : l.log = .store a v :: logs w.lanes i := by
      rw [hl]
      exact congrArg _ hlog
    rw [hlane, hnew]
    exact ⟨rfl, hcoh.store a v⟩

/-! ## The lanes of a warp up to a place -/

variable {lanes lanes' lanes'' : Fin 32 → Lane V} {ks : Fin 32 → Nat} {pc : Nat}

/-- Each lane has its steps to make, and the memory is coherent. -/
structure Under (fm : Format V C) (code : List (Instr Nat)) (m0 : Nat → C) (hi : Nat)
    (lanes' : Fin 32 → Lane V) (ks : Fin 32 → Nat) (w : Warp V C) : Prop where
  steps : ∀ i, Steps fm code m0 hi (ks i) (w.lanes i) (lanes' i)
  coherent : Coherent fm.toCells m0 (logs w.lanes) w.mem

theorem Under.exec_lane (happ : Apart (logs lanes')) (h : Under fm code m0 hi lanes' ks w)
    (hk : ks i ≠ 0) (hins : code[(w.lanes i).pc]? = some ins) :
    Under fm code m0 hi lanes' (Function.update ks i (ks i - 1)) (core.exec_lane fm ins w i) := by
  have hsteps := h.steps i
  obtain ⟨k, hk'⟩ := Nat.exists_eq_succ_of_ne_zero hk
  rw [hk'] at hsteps
  cases hsteps with
  | @head _ l1 _ _ hstep hrest =>
    obtain ⟨-, -, ins', hins', -, hl1⟩ := hstep
    obtain rfl : ins' = ins := Option.some.inj (hins'.symm.trans hins)
    have hout : ∀ j, j ≠ i → ∀ b ∈ written (logs w.lanes j), ∀ e ∈ l1.log,
        b + 4 ≤ e.place ∨ e.place + 4 ≤ b := by
      intro j hj b hb e he
      obtain ⟨v, hv⟩ := mem_written.mp hb
      exact happ j i hj b (mem_written.mpr ⟨v, (h.steps j).log.subset hv⟩) e
        (hrest.log.subset he)
    obtain ⟨hlanes, hcoh⟩ := exec_lane_solo h.coherent hl1 hout
    refine ⟨fun j => ?_, hcoh⟩
    rw [hlanes]
    by_cases hj : j = i
    · subst hj
      rw [Function.update_self, Function.update_self, hk']
      exact hrest
    · rw [Function.update_of_ne hj, Function.update_of_ne hj]
      exact h.steps j

/-- The lanes of a cycle, one after the other. -/
theorem Under.exec_lanes (happ : Apart (logs lanes')) (hins : code[pc]? = some ins)
    {is : List (Fin 32)} (hnodup : is.Nodup) (h : Under fm code m0 hi lanes' ks w)
    (his : ∀ i ∈ is, ks i ≠ 0 ∧ (w.lanes i).pc = pc) :
    ∃ ks', Under fm code m0 hi lanes' ks' (is.foldl (core.exec_lane fm ins) w) ∧
      (∀ i, ks' i ≤ ks i) ∧ ∀ i ∈ is, ks' i < ks i := by
  induction is generalizing w ks with
  | nil => exact ⟨ks, h, fun i => Nat.le_refl _, fun i hi => absurd hi List.not_mem_nil⟩
  | cons i is ih =>
    obtain ⟨hi, hnodup⟩ := List.nodup_cons.mp hnodup
    obtain ⟨hk, hpc⟩ := his i (List.mem_cons_self ..)
    have hone := h.exec_lane happ hk (hpc ▸ hins)
    have hother : ∀ j ∈ is, j ≠ i := fun j hj he => hi (he ▸ hj)
    obtain ⟨ks', hks', hle, hlt⟩ := ih hnodup hone fun j hj => by
      rw [Function.update_of_ne (hother j hj)]
      rw [show (core.exec_lane fm ins w i).lanes j = w.lanes j from
        Function.update_of_ne (hother j hj) ..]
      exact his j (List.mem_cons_of_mem _ hj)
    have hdown : ∀ j, Function.update ks i (ks i - 1) j ≤ ks j := by
      intro j
      by_cases hj : j = i
      · subst hj
        rw [Function.update_self]
        omega
      · rw [Function.update_of_ne hj]
    refine ⟨ks', hks', fun j => Nat.le_trans (hle j) (hdown j), fun j hj => ?_⟩
    rcases List.mem_cons.mp hj with rfl | hj
    · have := hle j
      rw [Function.update_self] at this
      omega
    · exact Nat.lt_of_lt_of_le (hlt j hj) (hdown j)

/-- One cycle, while a lane has steps to make. -/
theorem Under.cycle (happ : Apart (logs lanes'))
    (hrest : ∀ i, (lanes' i).active = true → hi ≤ (lanes' i).pc)
    (h : Under fm code m0 hi lanes' ks w) {k : Fin 32} (hk : ks k ≠ 0) :
    ∃ w' ks', core.cycle fm code w = some w' ∧ Under fm code m0 hi lanes' ks' w' ∧
      (∀ i, ks' i ≤ ks i) ∧ ∃ i, ks' i < ks i := by
  have hready : ∀ i, ks i ≠ 0 → (w.lanes i).active = true ∧ (w.lanes i).pc < hi ∧
      ∃ ins, code[(w.lanes i).pc]? = some ins ∧ ins.shuffles = false := by
    intro i hi
    obtain ⟨n, hn⟩ := Nat.exists_eq_succ_of_ne_zero hi
    have hsteps := h.steps i
    rw [hn] at hsteps
    cases hsteps with
    | head hstep _ =>
      obtain ⟨hactive, hpc, ins, hins, hplain, -⟩ := hstep
      exact ⟨hactive, hpc, ins, hins, hplain⟩
  obtain ⟨hactive, hkpc, -⟩ := hready k hk
  cases hpc : w.min_pc with
  | none =>
    have := min_pc_none hpc k
    rw [hactive] at this
    cases this
  | some pc =>
    obtain ⟨⟨j, hj⟩, hmin⟩ := min_pc_some hpc
    have hlt : pc < hi := Nat.lt_of_le_of_lt (hmin k hactive) hkpc
    -- A lane below the place still has steps to make.
    have hmask : ∀ i, w.current_mask pc i = true → ks i ≠ 0 ∧ (w.lanes i).pc = pc := by
      intro i hi
      obtain ⟨hact, hpci⟩ := current_mask_iff.mp hi
      refine ⟨fun h0 => ?_, hpci⟩
      have hsteps := h.steps i
      rw [h0] at hsteps
      have hstop := hrest i
      generalize lanes' i = li at hsteps hstop
      cases hsteps
      have := hstop hact
      omega
    obtain ⟨hkj, hpcj⟩ := hmask j hj
    obtain ⟨-, -, ins, hins, hplain⟩ := hready j hkj
    rw [hpcj] at hins
    obtain ⟨ks', hks', hle, hless⟩ := h.exec_lanes happ hins
      ((List.nodup_finRange 32).filter (w.current_mask pc))
      fun i hi => hmask i (List.mem_filter.mp hi).2
    refine ⟨_, ks', ?_, hks', hle, j, hless j (List.mem_filter.mpr ⟨List.mem_finRange j, hj⟩)⟩
    unfold core.cycle
    rw [hpc]
    simp only [hins]
    cases ins with
    | vshfl_xor rd rs mask => cases hplain
    | _ => rfl

/-- The warp comes from one state of its lanes to another, whatever its memory is as long as
it is coherent. -/
def Gets (fm : Format V C) (code : List (Instr Nat)) (m0 : Nat → C) (lanes lanes' : Fin 32 → Lane V) :
    Prop :=
  ∀ m, Coherent fm.toCells m0 (logs lanes) m → ∃ n m', exec_warp fm code n ⟨lanes, m⟩ =
    some ⟨lanes', m'⟩ ∧ Coherent fm.toCells m0 (logs lanes') m'

theorem Under.run (happ : Apart (logs lanes'))
    (hrest : ∀ i, (lanes' i).active = true → hi ≤ (lanes' i).pc)
    (h : Under fm code m0 hi lanes' ks w) :
    ∃ n m', exec_warp fm code n w = some ⟨lanes', m'⟩ ∧ Coherent fm.toCells m0 (logs lanes') m' := by
  induction hsum : ∑ i, ks i using Nat.strong_induction_on generalizing w ks with
  | _ total ih =>
    by_cases hall : ∃ k, ks k ≠ 0
    · obtain ⟨k, hk⟩ := hall
      obtain ⟨w', ks', hcycle, hunder, hle, i, hi⟩ := h.cycle happ hrest hk
      have hless : ∑ i, ks' i < total :=
        hsum ▸ Finset.sum_lt_sum (fun j _ => hle j) ⟨i, Finset.mem_univ i, hi⟩
      obtain ⟨n, m', hrun, hcoh⟩ := ih _ hless hunder rfl
      refine ⟨n + 1, m', ?_, hcoh⟩
      rw [exec_warp, hcycle]
      exact hrun
    · have hlanes : w.lanes = lanes' := by
        funext i
        have hsteps := h.steps i
        rw [not_not.mp (not_exists.mp hall i)] at hsteps
        generalize lanes' i = li at hsteps
        cases hsteps
        rfl
      refine ⟨0, w.mem, ?_, hlanes ▸ h.coherent⟩
      rw [← hlanes]
      rfl

/-- Lanes that lie apart come to where each would come alone. -/
theorem gets_of_goes (hgoes : ∀ i, Goes fm code m0 hi (lanes i) (lanes' i))
    (hrest : ∀ i, (lanes' i).active = true → hi ≤ (lanes' i).pc) (happ : Apart (logs lanes')) :
    Gets fm code m0 lanes lanes' := by
  intro m hcoh
  choose ks hks using hgoes
  have hunder : Under fm code m0 hi lanes' ks ⟨lanes, m⟩ := ⟨hks, hcoh⟩
  exact hunder.run happ hrest

theorem exec_warp_add (n k : Nat) (w : Warp V C) :
    exec_warp fm code (n + k) w = (exec_warp fm code n w).bind (exec_warp fm code k) := by
  induction n generalizing w with
  | zero => rw [Nat.zero_add]; rfl
  | succ n ih =>
    rw [Nat.succ_add, exec_warp, exec_warp, Option.bind_assoc]
    congr 1
    funext w1
    exact ih w1

theorem Gets.trans (h1 : Gets fm code m0 lanes lanes') (h2 : Gets fm code m0 lanes' lanes'') :
    Gets fm code m0 lanes lanes'' := by
  intro m hcoh
  obtain ⟨n, m1, hrun1, hcoh1⟩ := h1 m hcoh
  obtain ⟨k, m2, hrun2, hcoh2⟩ := h2 m1 hcoh1
  refine ⟨n + k, m2, ?_, hcoh2⟩
  rw [exec_warp_add, hrun1]
  exact hrun2

/-- A shuffle that all lanes meet. -/
theorem gets_shuffle {rd rs : F} {mask : Nat} (hins : code[pc]? = some (.vshfl_xor rd rs mask))
    (hpc : ∀ i, (lanes i).pc = pc) (hactive : ∀ i, (lanes i).active = true) :
    Gets fm code m0 lanes fun i => ((lanes i).setF rd ((lanes (mate mask i)).f rs)).next := by
  intro m hcoh
  have hall : ∀ i, Warp.current_mask (⟨lanes, m⟩ : Warp V C) pc i = true :=
    fun i => current_mask_iff.mpr ⟨hactive i, hpc i⟩
  have hmin : Warp.min_pc (⟨lanes, m⟩ : Warp V C) = some pc := by
    cases h : Warp.min_pc (⟨lanes, m⟩ : Warp V C) with
    | none =>
      have := min_pc_none h 0
      rw [hactive 0] at this
      cases this
    | some p =>
      obtain ⟨⟨j, hj⟩, -⟩ := min_pc_some h
      rw [← (current_mask_iff.mp hj).2]
      exact congrArg some (hpc j)
  refine ⟨1, m, ?_, hcoh⟩
  show (cycle fm code ⟨lanes, m⟩).bind some = _
  unfold cycle
  rw [hmin]
  simp only [hins, Option.bind_some, exec_vshfl, hall, if_true]

end gpgpu.core
