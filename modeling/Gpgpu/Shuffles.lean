-- The reductions of the kernels: a shuffle and a float instruction for each bit of the number
-- of a lane. The lanes meet at each shuffle, and end with what all 32 have together.
import Gpgpu.LaunchLaws
import Gpgpu.Lib.Butterfly
import Gpgpu.Exact

open memory words cells

namespace gpgpu.core

open butterfly

variable {V C : Type} {fm : Format V C} {code : List (Instr Nat)} {m0 : Nat → C} {pc : Nat}
  {lanes : Fin 32 → Lane V}

/-! ## All lanes come together -/

/-- The lanes exchange with those whose numbers differ in one bit, from the lowest bit up. -/
def upward : List (Fin 32 → Fin 32) := [1, 2, 4, 8, 16].map mate

/-- The same from the highest bit down. -/
def downward : List (Fin 32 → Fin 32) := [16, 8, 4, 2, 1].map mate

/-- At the begin each lane is on its own. -/
def alone (i : Fin 32) : Nat := 2 ^ i.val

theorem members_alone (i : Fin 32) : members (alone i) = {i} := by
  ext j
  rw [mem_members, alone, Nat.testBit_two_pow, decide_eq_true_eq, Finset.mem_singleton, Fin.ext_iff]
  exact eq_comm

theorem upward_apart : butterfly.Apart upward alone := by decide +kernel

theorem upward_all : ∀ i, groups upward alone i = 2 ^ 32 - 1 := by decide +kernel

theorem downward_apart : butterfly.Apart downward alone := by decide +kernel

theorem downward_all : ∀ i, groups downward alone i = 2 ^ 32 - 1 := by decide +kernel

/-- What holds of one lane, and stays when two groups come together, holds of all lanes. -/
theorem reduce_all {α : Type} (Covers : Finset (Fin 32) → α → Prop) {op : α → α → α}
    (hop : ∀ {S T a b}, Disjoint S T → Covers S a → Covers T b → Covers (S ∪ T) (op a b))
    {mates : List (Fin 32 → Fin 32)} (happ : butterfly.Apart mates alone)
    (hall : ∀ i, groups mates alone i = 2 ^ 32 - 1) {v : Fin 32 → α} (hv : ∀ i, Covers {i} (v i))
    (i : Fin 32) : Covers Finset.univ (reduce op mates v i) := by
  have hmembers : members (groups mates alone i) = (Finset.univ : Finset (Fin 32)) := by
    ext j
    simp [hall, Nat.testBit_two_pow_sub_one, -Nat.reducePow, -Nat.reduceSub]
  rw [← hmembers]
  exact reduce_covers Covers hop happ (fun i => by rw [members_alone]; exact hv i) i

/-! ## The rounds of a reduction -/

/-- The instructions of a reduction in `rs`: a shuffle into `rd` and an instruction for each
mask. -/
def reduction (op : FAlu) (rd rs : F) (masks : List Nat) : List (Instr Nat) :=
  masks.flatMap fun mask => [.vshfl_xor rd rs mask, .fop op rs rs rd]

/-- The lanes `lanes'` are `lanes` after a reduction. -/
structure Reduced (fm : Format V C) (op : FAlu) (rd rs : F) (masks : List Nat)
    (lanes lanes' : Fin 32 → Lane V) : Prop where
  value : ∀ i, (lanes' i).f rs = reduce (fun a b => op.eval fm a b) (masks.map mate)
    (fun j => (lanes j).f rs) i
  x : ∀ i r, (lanes' i).x r = (lanes i).x r
  f : ∀ i r, r ≠ rd → r ≠ rs → (lanes' i).f r = (lanes i).f r
  log : ∀ i, (lanes' i).log = (lanes i).log

/-- The lanes after one round. -/
def exchanged (fm : Format V C) (op : FAlu) (rd rs : F) (mask : Nat) (lanes : Fin 32 → Lane V)
    (i : Fin 32) : Lane V :=
  let l := ((lanes i).setF rd ((lanes (mate mask i)).f rs)).next
  (l.setF rs (op.eval fm (l.f rs) (l.f rd))).next

theorem gets_exchange {op : FAlu} {rd rs : F} {mask : Nat}
    (hshuffle : code[pc]? = some (.vshfl_xor rd rs mask)) (hop : code[pc + 1]? = some (.fop op rs rs rd))
    (hpc : ∀ i, (lanes i).pc = pc) (hactive : ∀ i, (lanes i).active = true)
    (happ : cells.Apart (logs lanes)) :
    Gets fm code m0 lanes (exchanged fm op rd rs mask lanes) := by
  refine (gets_shuffle hshuffle hpc hactive).trans ?_
  have hnext : ∀ i, ((lanes i).setF rd ((lanes (mate mask i)).f rs)).next.pc = pc + 1 := fun i => by
    rw [pc_next, pc_setF, hpc i]
  have hgoes : ∀ i, Goes fm code m0 (pc + 2) ((lanes i).setF rd ((lanes (mate mask i)).f rs)).next
      (exchanged fm op rd rs mask lanes i) := fun i => by
    refine .head ⟨hactive i, ?_, .fop op rs rs rd, ?_, rfl, rfl⟩ (.refl _)
    · rw [hnext i]
      omega
    · rw [hnext i]
      exact hop
  refine gets_of_goes hgoes (fun i _ => ?_) happ
  show pc + 2 ≤ (lanes i).pc + 1 + 1
  rw [hpc i]

/-- All lanes go through a reduction together. -/
theorem gets_reduce (fm : Format V C) (code : List (Instr Nat)) (m0 : Nat → C) (op : FAlu) (rd rs : F)
    (masks : List Nat) (hne : rd ≠ rs)
    (hcode : (code.drop pc).take (2 * masks.length) = reduction op rd rs masks)
    (hpc : ∀ i, (lanes i).pc = pc) (hactive : ∀ i, (lanes i).active = true)
    (happ : cells.Apart (logs lanes)) :
    ∃ lanes', Gets fm code m0 lanes lanes' ∧ Reduced fm op rd rs masks lanes lanes' ∧
      (∀ i, (lanes' i).pc = pc + 2 * masks.length) ∧ ∀ i, (lanes' i).active = true := by
  induction masks generalizing lanes pc with
  | nil =>
    refine ⟨lanes, fun m hcoh => ⟨0, m, rfl, hcoh⟩, ⟨fun i => rfl, fun i r => rfl, fun i r _ _ => rfl,
      fun i => rfl⟩, hpc, hactive⟩
  | cons mask masks ih =>
    rw [List.length_cons] at hcode
    have hget : ∀ k, k < 2 * (masks.length + 1) →
        code[pc + k]? = (reduction op rd rs (mask :: masks))[k]? := by
      intro k hk
      rw [← hcode, List.getElem?_take_of_lt hk, List.getElem?_drop]
    have htail : (code.drop (pc + 2)).take (2 * masks.length) = reduction op rd rs masks := by
      have h := congrArg (List.drop 2) hcode
      rw [List.drop_take, List.drop_drop] at h
      exact h
    have hone : Gets fm code m0 lanes (exchanged fm op rd rs mask lanes) :=
      gets_exchange (hget 0 (by omega)) (hget 1 (by omega)) hpc hactive happ
    have hnext : ∀ i, (exchanged fm op rd rs mask lanes i).pc = pc + 2 := fun i => by
      rw [← hpc i]
      rfl
    obtain ⟨lanes', hgets, hred, hpc', hactive'⟩ := ih htail hnext hactive happ
    refine ⟨lanes', hone.trans hgets, ⟨fun i => ?_, fun i r => ?_, fun i r h1 h2 => ?_, fun i => ?_⟩,
      fun i => ?_, hactive'⟩
    · rw [hred.value i]
      refine congrArg (fun v => reduce (fun a b => op.eval fm a b) (masks.map mate) v i) ?_
      funext j
      simp [exchanged, hne.symm]
    · rw [hred.x i r]
      rfl
    · rw [hred.f i r h1 h2]
      simp [exchanged, h1, h2]
    · rw [hred.log i]
      rfl
    · rw [hpc' i, List.length_cons]
      ring

/-! ## Exact reductions -/

section

variable {K : Type} [Field K] [LinearOrder K] {sqrt exp : K → K} {val : V → WithBot K}
  {v : Fin 32 → V}

/-- Each lane has the sum over all lanes. -/
theorem exact_sum (hexact : Exact fm sqrt exp val) {x : Fin 32 → K} (hv : ∀ i, val (v i) = x i)
    (i : Fin 32) : val (reduce fm.fadd upward v i) = (∑ j, x j : K) := by
  refine reduce_all (fun S a => val a = (∑ j ∈ S, x j : K)) (fun hdisj ha hb => ?_)
    upward_apart upward_all (fun i => ?_) i
  · rw [Finset.sum_union hdisj]
    exact hexact.fadd ha hb
  · rw [Finset.sum_singleton, hv i]

/-- Each lane has the largest value of all lanes. -/
theorem exact_max (hexact : Exact fm sqrt exp val) (i : Fin 32) :
    val (reduce fm.fmax upward v i) = Finset.univ.sup fun j => val (v j) := by
  refine reduce_all (fun S a => val a = S.sup fun j => val (v j)) (fun _ ha hb => ?_)
    upward_apart upward_all (fun i => ?_) i
  · rw [Finset.sup_union, hexact.fmax, ha, hb]
  · rw [Finset.sup_singleton]

end

end gpgpu.core
