-- What argmax.S finds when the comparisons of the device are those of IEEE 754: the first of
-- the largest logits, if one of them is above minus infinity. Otherwise no lane gives up the
-- index it began with, and the warp stores that one.
import Gpgpu.ArgmaxLaws
import Gpgpu.Shuffles

open memory words cells

namespace gpgpu.argmax

open core kernels

/-! ## Floats -/

def exponent (w : Word) : Nat := w.toNat / 2 ^ 23 % 2 ^ 8

def mantissa (w : Word) : Nat := w.toNat % 2 ^ 23

def is_nan (w : Word) : Bool := exponent w = 255 ∧ mantissa w ≠ 0

/-- The size of a float in units of the least one. An infinity has more than all numbers. -/
def magnitude (w : Word) : Nat :=
  if exponent w = 0 then mantissa w else (2 ^ 23 + mantissa w) * 2 ^ (exponent w - 1)

/-- What a float is worth. The two zeros are worth the same. -/
def value (w : Word) : Int := if w.toNat < 2 ^ 31 then magnitude w else -magnitude w

/-- `flt.s`, and `<` on the host: false with a NaN. -/
def less (a b : Word) : Bool := !is_nan a && !is_nan b && value a < value b

/-- `feq.s`. -/
def same (a b : Word) : Bool := !is_nan a && !is_nan b && value a = value b

/-- The comparisons of the device are those of IEEE 754. -/
structure Ieee (fpu : Fpu) : Prop where
  flt : fpu.flt = less
  feq : fpu.feq = same

/-- A number, or infinity, that is above minus infinity. -/
def above (w : Word) : Bool := less MINUS_INFINITY w

theorem less_iff {a b : Word} :
    less a b = true ↔ is_nan a = false ∧ is_nan b = false ∧ value a < value b := by
  simp [less, and_assoc]

theorem same_iff {a b : Word} :
    same a b = true ↔ is_nan a = false ∧ is_nan b = false ∧ value a = value b := by
  simp [same, and_assoc]

theorem above_iff {w : Word} : above w = true ↔ is_nan w = false ∧ value MINUS_INFINITY < value w := by
  have hnan : is_nan MINUS_INFINITY = false := by decide
  simp [above, less, hnan]

/-! ## The best of a set of logits -/

variable {fpu : Fpu} {logits : List Word} {V : Nat}

/-- Logit `j` is larger than logit `k`, or as large and not behind it. -/
def Beats (logits : List Word) (j k : Nat) : Prop :=
  value (logits.getD k 0) < value (logits.getD j 0) ∨
    value (logits.getD k 0) = value (logits.getD j 0) ∧ j ≤ k

/-- The best of the logits in `E`, or the begin if none of them is above minus infinity. -/
inductive BestOf (logits : List Word) (E : Nat → Prop) : Best → Prop
  | none (hnone : ∀ j, E j → above (logits.getD j 0) = false) : BestOf logits E ⟨MINUS_INFINITY, 0x7F7FFFFF⟩
  | some (j : Nat) (hj : E j) (habove : above (logits.getD j 0) = true)
      (hbest : ∀ k, E k → above (logits.getD k 0) = true → Beats logits j k) :
      BestOf logits E ⟨logits.getD j 0, num j⟩

theorem BestOf.congr {E E' : Nat → Prop} {best : Best} (h : BestOf logits E best) (hE : ∀ j, E j ↔ E' j) :
    BestOf logits E' best := by
  obtain rfl : E = E' := funext fun j => propext (hE j)
  exact h

theorem Beats.trans {i j k : Nat} (h : Beats logits i j) (h' : Beats logits j k) : Beats logits i k := by
  unfold Beats at *
  omega

/-- `REDUCE_STEP` gives the best of two sets. -/
theorem BestOf.reduce_step (hieee : Ieee fpu) {E E' : Nat → Prop} {mine other : Best}
    (hmine : BestOf logits E mine) (hother : BestOf logits E' other)
    (hlt : ∀ j, E j ∨ E' j → j < 2 ^ 32) :
    BestOf logits (fun j => E j ∨ E' j) (kernels.reduce_step fpu mine other) := by
  unfold kernels.reduce_step
  rw [hieee.flt, hieee.feq]
  cases hmine with
  | none hnone =>
    cases hother with
    | none hnone' =>
      rw [if_neg (by simp [less_iff]), if_neg (by simp)]
      exact .none fun j hj => hj.elim (hnone j) (hnone' j)
    | some k hk habove hbest =>
      have hless : less MINUS_INFINITY (logits.getD k 0) = true := habove
      rw [if_pos hless]
      refine .some k (.inr hk) habove fun j hj hja => ?_
      rcases hj with hj | hj
      · rw [hnone j hj] at hja
        cases hja
      · exact hbest j hj hja
  | some j hj habove hbest =>
    obtain ⟨hnan, hval⟩ := above_iff.mp habove
    cases hother with
    | none hnone' =>
      rw [if_neg (by rw [less_iff]; dsimp only; omega), if_neg (by rw [same_iff]; dsimp only; omega)]
      refine .some j (.inl hj) habove fun k hk hka => ?_
      rcases hk with hk | hk
      · exact hbest k hk hka
      · rw [hnone' k hk] at hka
        cases hka
    | some k hk habove' hbest' =>
      obtain ⟨hnan', hval'⟩ := above_iff.mp habove'
      have hindex : num k < num j ↔ k < j := by
        rw [UInt32.lt_iff_toNat_lt, num_toNat (hlt k (.inr hk)), num_toNat (hlt j (.inl hj))]
      -- The winner of the two beats both sets.
      have hwins : Beats logits k j → BestOf logits (fun j => E j ∨ E' j) ⟨logits.getD k 0, num k⟩ :=
        fun hkj => .some k (.inr hk) habove' fun n hn hna =>
          hn.elim (fun hn => hkj.trans (hbest n hn hna)) fun hn => hbest' n hn hna
      have hkeeps : Beats logits j k → BestOf logits (fun j => E j ∨ E' j) ⟨logits.getD j 0, num j⟩ :=
        fun hjk => .some j (.inl hj) habove fun n hn hna =>
          hn.elim (fun hn => hbest n hn hna) fun hn => hjk.trans (hbest' n hn hna)
      by_cases hless : less (logits.getD j 0) (logits.getD k 0) = true
      · rw [if_pos hless]
        exact hwins (.inl (less_iff.mp hless).2.2)
      · have hge : value (logits.getD k 0) ≤ value (logits.getD j 0) := by
          rw [less_iff] at hless
          by_contra hcon
          exact hless ⟨hnan, hnan', by omega⟩
        rw [if_neg hless]
        by_cases htie : same (logits.getD j 0) (logits.getD k 0) = true ∧ num k < num j
        · rw [if_pos htie]
          exact hwins (.inr ⟨(same_iff.mp htie.1).2.2, (hindex.mp htie.2).le⟩)
        · rw [if_neg htie]
          refine hkeeps ?_
          rcases hge.lt_or_eq with hlt' | heq
          · exact .inl hlt'
          · refine .inr ⟨heq, Nat.le_of_not_lt fun hkj => htie ⟨same_iff.mpr ⟨hnan, hnan', heq.symm⟩, ?_⟩⟩
            exact hindex.mpr hkj

/-- The scan of a lane gives the best of its logits. -/
theorem scan_best (hieee : Ieee fpu) (V lane t : Nat) :
    BestOf logits (fun j => j < V ∧ ∃ s < t, j = s * 32 + lane) (phaseA_loop fpu V logits lane t) := by
  induction t with
  | zero => exact .none fun j ⟨_, s, hs, _⟩ => absurd hs (Nat.not_lt_zero s)
  | succ t ih =>
    -- The logits of one turn more.
    have hmore : ∀ j, (j < V ∧ ∃ s < t + 1, j = s * 32 + lane) →
        (j < V ∧ ∃ s < t, j = s * 32 + lane) ∨ (j = t * 32 + lane ∧ j < V) := by
      rintro j ⟨hj, s, hs, rfl⟩
      by_cases hst : s = t
      · subst hst
        exact .inr ⟨rfl, hj⟩
      · exact .inl ⟨hj, s, by omega, rfl⟩
    rw [phaseA_loop_succ, hieee.flt]
    generalize phaseA_loop fpu V logits lane t = best at ih ⊢
    cases ih with
    | none hnone =>
      by_cases htake : t * 32 + lane < V ∧ less MINUS_INFINITY (logits.getD (t * 32 + lane) 0) = true
      · rw [if_pos htake]
        refine .some _ ⟨htake.1, t, Nat.lt_succ_self t, rfl⟩ htake.2 fun k hk hka => ?_
        rcases hmore k hk with hk | ⟨rfl, -⟩
        · rw [hnone k hk] at hka
          cases hka
        · exact .inr ⟨rfl, Nat.le_refl _⟩
      · rw [if_neg htake]
        refine .none fun j hj => ?_
        rcases hmore j hj with hj | ⟨rfl, hj⟩
        · exact hnone j hj
        · exact Bool.eq_false_iff.mpr fun ha => htake ⟨hj, ha⟩
    | some j hj habove hbest =>
      obtain ⟨hnan, hval⟩ := above_iff.mp habove
      obtain ⟨hjV, s, hs, hjs⟩ := hj
      by_cases htake : t * 32 + lane < V ∧
          less (logits.getD j 0) (logits.getD (t * 32 + lane) 0) = true
      · obtain ⟨-, hnan', hlt⟩ := less_iff.mp htake.2
        rw [if_pos htake]
        refine .some _ ⟨htake.1, t, Nat.lt_succ_self t, rfl⟩ (above_iff.mpr ⟨hnan', by omega⟩)
          fun k hk hka => ?_
        rcases hmore k hk with hk | ⟨rfl, -⟩
        · exact Beats.trans (.inl hlt) (hbest k hk hka)
        · exact .inr ⟨rfl, Nat.le_refl _⟩
      · rw [if_neg htake]
        refine .some j ⟨hjV, s, by omega, hjs⟩ habove fun k hk hka => ?_
        rcases hmore k hk with hk | ⟨rfl, hk⟩
        · exact hbest k hk hka
        · have hge : value (logits.getD (t * 32 + lane) 0) ≤ value (logits.getD j 0) := by
            by_contra hcon
            exact htake ⟨hk, less_iff.mpr ⟨hnan, (above_iff.mp hka).1, by omega⟩⟩
          rcases hge.lt_or_eq with hlt | heq
          · exact .inl hlt
          · exact .inr ⟨heq, by omega⟩

/-- The rounds of exchanges are a reduction over the lanes. -/
theorem shuffle_eq_reduce {α : Type} (op : α → α → α) {ms : List Nat} (hms : ∀ mask ∈ ms, mask < 32)
    (f : Nat → α) (i : Fin 32) :
    shuffle op ms f i = butterfly.reduce op (ms.map mate) (fun j => f j) i := by
  induction ms generalizing f with
  | nil => rfl
  | cons mask ms ih =>
    rw [shuffle, ih fun mask' h => hms mask' (List.mem_cons_of_mem _ h)]
    rw [List.map_cons, butterfly.reduce]
    congr 1
    funext j
    have hmate : (mate mask j).val = j.val ^^^ mask := by
      unfold mate
      rw [Fin.val_ofNat, Nat.mod_eq_of_lt]
      exact Nat.xor_lt_two_pow (n := 5) j.isLt (hms mask (List.mem_cons_self ..))
    rw [hmate]

/-- After the rounds each lane has the best of all logits. -/
theorem after_shuffles_best (hieee : Ieee fpu) (hV : V ≤ 2 ^ 32) (i : Fin 32) :
    BestOf logits (fun j => j < V) (after_shuffles fpu V logits 5 i) := by
  have hreduce : after_shuffles fpu V logits 5 i =
      butterfly.reduce (reduce_step fpu) downward (fun j => phase_a fpu V logits j) i :=
    shuffle_eq_reduce _ (by decide) _ i
  rw [hreduce]
  refine (reduce_all (fun S => BestOf logits fun j => j < V ∧ Fin.ofNat 32 j ∈ S) (fun _ ha hb => ?_)
    downward_apart downward_all (fun i => ?_) i).congr (by simp)
  · refine (ha.reduce_step hieee hb fun j hj => ?_).congr fun j => ?_
    · rcases hj with hj | hj <;> omega
    · rw [Finset.mem_union]
      tauto
  · refine (scan_best hieee V i ((V + 31) / 32)).congr fun j => and_congr_right fun hj => ?_
    rw [Finset.mem_singleton, Fin.ext_iff, Fin.val_ofNat]
    constructor
    · rintro ⟨s, -, rfl⟩
      omega
    · intro hi
      exact ⟨j / 32, by omega, by omega⟩

/-! ## The result -/

variable {fcvt : Int → Word} {m : Mem} {a : argmax_args} {args : Nat}

/-- Logit `j` as it lies in memory. -/
def argmax_args.logit (a : argmax_args) (m : Mem) (j : Nat) : Word := word m (a.logits_base + 4 * j)

def argmax_args.logit_list (a : argmax_args) (m : Mem) : List Word := (List.range a.V).map (a.logit m)

theorem logits_are (m : Mem) (a : argmax_args) : LogitsAre m a (a.logit_list m) := by
  intro j hj
  unfold argmax_args.logit_list
  rw [List.getD_eq_getElem?_getD, List.getElem?_map, List.getElem?_range hj]
  rfl

/-- `argmax_reference` of the tests. -/
def argmax_reference (L : Nat → Word) (V : Nat) : Nat :=
  ((List.range' 1 (V - 1)).foldl (fun best i => if less best.2 (L i) then (i, L i) else best) (0, L 0)).1

/-- The first of the largest among the first `V`. -/
def FirstLargest (L : Nat → Word) (V j : Nat) : Prop :=
  j < V ∧ (∀ k < V, value (L k) ≤ value (L j)) ∧ ∀ k < j, value (L k) < value (L j)

theorem FirstLargest.unique {L : Nat → Word} {j k : Nat} (hj : FirstLargest L V j)
    (hk : FirstLargest L V k) : j = k := by
  obtain ⟨hjV, hjmax, hjfirst⟩ := hj
  obtain ⟨hkV, hkmax, hkfirst⟩ := hk
  by_contra hne
  rcases Nat.lt_or_gt_of_ne hne with hlt | hlt
  · have h1 := hkfirst j hlt
    have h2 := hjmax k hkV
    omega
  · have h1 := hjfirst k hlt
    have h2 := hkmax j hjV
    omega

/-- The reference finds the first of the largest. -/
theorem argmax_reference_first (L : Nat → Word) (hV : 0 < V) (hnan : ∀ j < V, is_nan (L j) = false) :
    FirstLargest L V (argmax_reference L V) := by
  -- After each turn the pair is the first of the largest so far, with its value.
  have hgo : ∀ n, n + 1 ≤ V → ∃ j, FirstLargest L (n + 1) j ∧
      (List.range' 1 n).foldl (fun best i => if less best.2 (L i) then (i, L i) else best) (0, L 0) =
        (j, L j) := by
    intro n hn
    induction n with
    | zero =>
      refine ⟨0, ⟨Nat.zero_lt_one, fun k hk => ?_, fun k hk => absurd hk (Nat.not_lt_zero k)⟩, rfl⟩
      obtain rfl : k = 0 := by omega
      exact le_refl _
    | succ n ih =>
      obtain ⟨j, ⟨hj, hmax, hfirst⟩, hfold⟩ := ih (by omega)
      rw [List.range'_concat, List.foldl_append, hfold, List.foldl_cons, List.foldl_nil, Nat.one_mul,
        Nat.add_comm 1 n]
      by_cases hless : less (L j) (L (n + 1)) = true
      · have hlt := (less_iff.mp hless).2.2
        refine ⟨n + 1, ⟨Nat.lt_succ_self _, fun k hk => ?_, fun k hk => ?_⟩, if_pos hless⟩
        · rcases Nat.lt_or_eq_of_le (Nat.le_of_lt_succ hk) with hk | rfl
          · exact (hmax k hk).trans hlt.le
          · exact le_refl _
        · exact (hmax k hk).trans_lt hlt
      · refine ⟨j, ⟨by omega, fun k hk => ?_, hfirst⟩, if_neg hless⟩
        rcases Nat.lt_or_eq_of_le (Nat.le_of_lt_succ hk) with hk | rfl
        · exact hmax k hk
        · by_contra hcon
          exact hless (less_iff.mpr ⟨hnan j (by omega), hnan _ (by omega), by omega⟩)
  obtain ⟨j, hj, hfold⟩ := hgo (V - 1) (by omega)
  unfold argmax_reference
  rw [hfold]
  rwa [Nat.sub_add_cancel hV] at hj

/-- What the warp stores is the index of the best. -/
theorem argmax_cases (hieee : Ieee fpu) (hready : Ready fpu fcvt m args a) :
    (kernels.argmax fpu a.V (a.logit_list m) = 0x7F7FFFFF ∧ ∀ j < a.V, above (a.logit m j) = false) ∨
      ∃ j < a.V, kernels.argmax fpu a.V (a.logit_list m) = num j ∧ above (a.logit m j) = true ∧
        ∀ k < a.V, above (a.logit m k) = true → Beats (a.logit_list m) j k := by
  have hV := hready.logits_end
  have hget : ∀ j < a.V, (a.logit_list m).getD j 0 = a.logit m j := fun j hj => (logits_are m a j hj).symm
  have hbest : BestOf (a.logit_list m) (fun j => j < a.V) (after_shuffles fpu a.V (a.logit_list m) 5 0) :=
    after_shuffles_best hieee (by omega) 0
  unfold kernels.argmax
  generalize after_shuffles fpu a.V (a.logit_list m) 5 0 = best at hbest ⊢
  cases hbest with
  | none hnone => exact .inl ⟨rfl, fun j hj => hget j hj ▸ hnone j hj⟩
  | some j hj habove hbest =>
    exact .inr ⟨j, hj, rfl, hget j hj ▸ habove, fun k hk hka => hbest k hk ((hget k hk).symm ▸ hka)⟩

/-- The comparisons of IEEE 754, and words that count. -/
def ieeeFpu : Fpu := { countingFpu with flt := less, feq := same }

/-- Two logits, with the arguments at 0. -/
def twoLogits (w v : Word) : Mem := put (fun _ => 0) 0 [16, 2, 64, 128, w, v]

theorem twoLogits_word (w v : Word) {k : Nat} (hk : k < 6) :
    word (twoLogits w v) (0 + 4 * k) = [16, 2, 64, 128, w, v].getD k 0 :=
  word_put (by simpa using hk)

theorem twoLogits_ready (w v : Word) :
    Ready ieeeFpu UInt32.ofInt (twoLogits w v) 0 ⟨16, 2, 64, 128⟩ :=
  ⟨⟨twoLogits_word w v (k := 0) (by decide), twoLogits_word w v (k := 1) (by decide),
    twoLogits_word w v (k := 2) (by decide), twoLogits_word w v (k := 3) (by decide), trivial⟩,
    by decide, by decide, by decide, by decide, by decide⟩

theorem twoLogits_clear : Clear 0 ⟨16, 2, 64, 128⟩ :=
  ⟨by decide, by decide, by decide, by decide, by decide⟩

theorem twoLogits_logit (w v : Word) {j : Nat} (hj : j < 2) :
    argmax_args.logit ⟨16, 2, 64, 128⟩ (twoLogits w v) j = [w, v].getD j 0 := by
  interval_cases j
  · exact twoLogits_word w v (k := 4) (by decide)
  · exact twoLogits_word w v (k := 5) (by decide)

/-- One warp of `argmax.S` stores what the reference of the host finds, the first of the largest
logits, and writes elsewhere only in the debug area. -/
theorem argmax_is_the_first_largest (fpu : Fpu) (hieee : Ieee fpu) (fcvt : Int → Word)
    (regs : Nat → Fin 32 → Regs Word) (m : Mem) (args : Nat) (a : argmax_args)
    (hready : Ready fpu fcvt m args a) (hclear : Clear args a)
    (hnan : ∀ j < a.V, is_nan (a.logit m j) = false)
    (hsome : ∃ j < a.V, value MINUS_INFINITY < value (a.logit m j)) :
    Ends (wordFormat fpu fcvt) (assemble source.argmax) regs (num args) [0] m fun m' logs =>
      (∃ j, FirstLargest (a.logit m) a.V j ∧ word m' a.out_base = num j ∧
        j = argmax_reference (a.logit m) a.V) ∧
      (∀ log ∈ logs, ∀ x ∈ written log, x = a.out_base ∨ InBuf a.debug_base 1024 x) ∧
      ∀ y, (y < a.out_base ∨ a.out_base + 4 ≤ y) → (y < a.debug_base ∨ a.debug_base + 1024 ≤ y) →
        m' y = m y := by
  refine (argmax_spec hready hclear (logits_are m a) regs).mono fun m' logs ⟨hlogs, hout, _, hframe⟩ =>
    ⟨?_, fun log hlog => (hlogs log hlog).2, hframe⟩
  have hget : ∀ j < a.V, (a.logit_list m).getD j 0 = a.logit m j := fun j hj => (logits_are m a j hj).symm
  rcases argmax_cases hieee hready with ⟨-, hnone⟩ | ⟨j, hj, hstored, habove, hbest⟩
  · obtain ⟨j, hj, hlt⟩ := hsome
    have habove := above_iff.mpr ⟨hnan j hj, hlt⟩
    rw [hnone j hj] at habove
    cases habove
  · have hjval := (above_iff.mp habove).2
    have hbeats : ∀ k < a.V, value (a.logit m k) < value (a.logit m j) ∨
        value (a.logit m k) = value (a.logit m j) ∧ j ≤ k := by
      intro k hk
      by_cases hka : above (a.logit m k) = true
      · have h := hbest k hk hka
        unfold Beats at h
        rwa [hget k hk, hget j hj] at h
      · refine .inl (lt_of_le_of_lt (not_lt.mp fun hlt => hka ?_) hjval)
        exact above_iff.mpr ⟨hnan k hk, hlt⟩
    have hfirst : FirstLargest (a.logit m) a.V j := by
      refine ⟨hj, fun k hk => ?_, fun k hk => ?_⟩
      · have := hbeats k hk
        omega
      · have := hbeats k (by omega)
        omega
    exact ⟨j, hfirst, hout.trans hstored,
      hfirst.unique (argmax_reference_first _ hready.some_logit hnan)⟩

/-- The two zeros are equal, so the first one is taken. -/
theorem of_two_zeros_the_first :
    Ends (wordFormat ieeeFpu UInt32.ofInt) (assemble source.argmax) (fun _ => zeroRegs) (num 0) [0]
      (twoLogits 0x80000000 0) fun m' _ => word m' 64 = 0 := by
  have hlogit : ∀ j < 2, argmax_args.logit ⟨16, 2, 64, 128⟩ (twoLogits 0x80000000 0) j =
      [0x80000000, 0].getD j 0 := fun j hj => twoLogits_logit _ _ hj
  have h := argmax_is_the_first_largest ieeeFpu ⟨rfl, rfl⟩ UInt32.ofInt (fun _ => zeroRegs)
    (twoLogits 0x80000000 0) 0 ⟨16, 2, 64, 128⟩ (twoLogits_ready _ _) twoLogits_clear
    (fun j hj => by
      rw [hlogit j hj]
      have hj2 : j < 2 := hj
      interval_cases j <;> decide)
    ⟨0, by decide, by rw [hlogit 0 (by decide)]; decide +kernel⟩
  refine h.mono fun m' _ ⟨⟨j, ⟨hj, _, hfirst⟩, hword, _⟩, _⟩ => ?_
  have hj2 : j < 2 := hj
  have hne : j ≠ 1 := by
    rintro rfl
    have hlt := hfirst 0 (by decide)
    rw [hlogit 0 (by decide), hlogit 1 (by decide)] at hlt
    revert hlt
    decide
  obtain rfl : j = 0 := by omega
  exact hword

/-! ## Logits of which none is above minus infinity -/

/-- The stored index is that of a logit just when one logit is above minus infinity. -/
theorem the_stored_index_is_an_id_iff (fpu : Fpu) (hieee : Ieee fpu) (fcvt : Int → Word)
    (regs : Nat → Fin 32 → Regs Word) (m : Mem) (args : Nat) (a : argmax_args)
    (hready : Ready fpu fcvt m args a) (hclear : Clear args a) :
    Ends (wordFormat fpu fcvt) (assemble source.argmax) regs (num args) [0] m fun m' _ =>
      ((word m' a.out_base).toNat < a.V ↔ ∃ j < a.V, above (a.logit m j) = true) := by
  have hend := hready.logits_end
  refine (argmax_spec hready hclear (logits_are m a) regs).mono fun m' logs ⟨_, hout, _⟩ => ?_
  rw [hout]
  rcases argmax_cases hieee hready with ⟨hstored, hnone⟩ | ⟨j, hj, hstored, habove, -⟩
  · rw [hstored]
    constructor
    · intro hlt
      have hbegin : (0x7F7FFFFF : Word).toNat = 2139095039 := rfl
      omega
    · rintro ⟨j, hj, habove⟩
      rw [hnone j hj] at habove
      cases habove
  · rw [hstored, num_toNat (by omega)]
    exact ⟨fun _ => ⟨j, hj, habove⟩, fun _ => hj⟩

theorem an_id_for_one_number :
    Ends (wordFormat ieeeFpu UInt32.ofInt) (assemble source.argmax) (fun _ => zeroRegs) (num 0) [0]
      (twoLogits 0x7FC00000 0x3F800000) fun m' _ => (word m' 64).toNat < 2 := by
  refine (the_stored_index_is_an_id_iff ieeeFpu ⟨rfl, rfl⟩ UInt32.ofInt (fun _ => zeroRegs)
    (twoLogits 0x7FC00000 0x3F800000) 0 ⟨16, 2, 64, 128⟩ (twoLogits_ready _ _) twoLogits_clear).mono
    fun m' _ h => h.mpr ⟨1, by decide, ?_⟩
  rw [twoLogits_logit _ _ (by decide)]
  decide +kernel

/-- A NaN and minus infinity: the warp stores the index it began with. -/
theorem no_id_for_a_nan_and_minus_infinity :
    Ends (wordFormat ieeeFpu UInt32.ofInt) (assemble source.argmax) (fun _ => zeroRegs) (num 0) [0]
      (twoLogits 0x7FC00000 0xFF800000) fun m' _ =>
        word m' 64 = 0x7F7FFFFF ∧ ¬ (word m' 64).toNat < 2 := by
  have hnone : ∀ j < 2, above (argmax_args.logit ⟨16, 2, 64, 128⟩
      (twoLogits 0x7FC00000 0xFF800000) j) = false := by
    intro j hj
    rw [twoLogits_logit _ _ hj]
    interval_cases j <;> decide +kernel
  refine (argmax_spec (twoLogits_ready _ _) twoLogits_clear (logits_are _ _) fun _ => zeroRegs).mono
    fun m' _ ⟨_, hout, _⟩ => ?_
  have hstored : word m' 64 = 0x7F7FFFFF := by
    refine hout.trans ?_
    rcases argmax_cases ⟨rfl, rfl⟩ (twoLogits_ready _ _) with ⟨hstored, -⟩ | ⟨j, hj, -, habove, -⟩
    · exact hstored
    · rw [hnone j hj] at habove
      cases habove
  rw [hstored]
  exact ⟨rfl, by decide⟩

end gpgpu.argmax
