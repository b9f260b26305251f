-- Straight lines of code for one lane, jumps, and the numbers that the registers hold. Sums
-- and products of numbers wrap by themselves; only an address, a comparison, a shift to the
-- right or a division asks for a bound.
import Gpgpu.Solo
import Gpgpu.Lib.Rows

open memory words cells

namespace gpgpu.core

/-! ## Numbers -/

/-- The number `n` as a word. -/
def num (n : Nat) : Word := UInt32.ofNat n

section

variable (a b n : Nat)

@[simp] theorem num_add : num a + num b = num (a + b) := (UInt32.ofNat_add a b).symm

@[simp] theorem num_add_lit : num a + no_index (OfNat.ofNat n) = num (a + OfNat.ofNat n) :=
  (UInt32.ofNat_add a n).symm

@[simp] theorem add_num : Alu.eval (num a) (num b) .add = num (a + b) := num_add a b

@[simp] theorem add_lit : Alu.eval (num a) (no_index (OfNat.ofNat n)) .add = num (a + OfNat.ofNat n) :=
  num_add a n

@[simp] theorem mul_num : Alu.eval (num a) (num b) .mul = num (a * b) := (UInt32.ofNat_mul a b).symm

@[simp] theorem sll_lit : Alu.eval (num a) (no_index (OfNat.ofNat n)) .sll =
    num (a * 2 ^ ((OfNat.ofNat n : Nat) % 32)) := by
  show UInt32.ofNat a <<< UInt32.ofNat n = UInt32.ofNat (a * 2 ^ (n % 32))
  rw [← UInt32.toNat_inj, UInt32.toNat_shiftLeft]
  simp only [UInt32.toNat_ofNat']
  have hmod : n % 2 ^ 32 % 32 = n % 32 := by omega
  rw [hmod, Nat.shiftLeft_eq, Nat.mod_mul_mod]

variable {a b n}

@[simp] theorem num_toNat (h : a < 2 ^ 32) : (num a).toNat = a := UInt32.toNat_ofNat_of_lt' h

theorem num_inj (ha : a < 2 ^ 32) (hb : b < 2 ^ 32) : num a = num b ↔ a = b := by
  rw [← UInt32.toNat_inj, num_toNat ha, num_toNat hb]

theorem signed_num (h : a < 2 ^ 31) : signed (num a) = (a : Int) := by
  have hnat : (num a).toNat = a := num_toNat (by omega)
  unfold signed
  rw [int_of_word (by rw [hnat]; exact h), hnat]

@[simp] theorem srl_lit (ha : a < 2 ^ 32) : Alu.eval (num a) (no_index (OfNat.ofNat n)) .srl =
    num (a / 2 ^ ((OfNat.ofNat n : Nat) % 32)) := by
  show num a >>> UInt32.ofNat n = num (a / 2 ^ (n % 32))
  have hle : a / 2 ^ (n % 32) ≤ a := Nat.div_le_self ..
  have hmod : (UInt32.ofNat n).toNat % 32 = n % 32 := by
    rw [UInt32.toNat_ofNat']
    omega
  rw [← UInt32.toNat_inj, UInt32.toNat_shiftRight, hmod, num_toNat ha,
    num_toNat (Nat.lt_of_le_of_lt hle ha), Nat.shiftRight_eq_div_pow]

@[simp] theorem sub_num (h : b ≤ a) : Alu.eval (num a) (num b) .sub = num (a - b) := by
  obtain ⟨d, rfl⟩ := Nat.exists_eq_add_of_le h
  show num (b + d) - num b = num (b + d - b)
  rw [Nat.add_sub_cancel_left, Nat.add_comm, ← num_add]
  exact UInt32.add_sub_cancel ..

/-- One less. -/
@[simp] theorem pred_num (h : 0 < a) : Alu.eval (num a) (-1) .add = num (a - 1) := by
  obtain ⟨d, rfl⟩ := Nat.exists_eq_add_of_le' h
  show num (d + 1) + -1 = num (d + 1 - 1)
  rw [Nat.add_sub_cancel, ← num_add, ← UInt32.sub_eq_add_neg]
  exact UInt32.add_sub_cancel ..

theorem msb_num (h : a < 2 ^ 31) : (num a).toBitVec.msb = false := by
  have hnat : (num a).toBitVec.toNat = a := num_toNat (by omega)
  rw [BitVec.msb_eq_false_iff_two_mul_lt, hnat]
  omega

theorem num_ne_zero (h : b < 2 ^ 32) (h0 : b ≠ 0) : num b ≠ 0 := by
  intro he
  have hnat := congrArg UInt32.toNat he
  rw [num_toNat h] at hnat
  exact h0 hnat

/-- The quotient of numbers that are not negative as an `int`. -/
@[simp] theorem div_num (ha : a < 2 ^ 31) (hb : b < 2 ^ 31) (h0 : b ≠ 0) :
    Alu.eval (num a) (num b) .div = num (a / b) := by
  have hle : a / b ≤ a := Nat.div_le_self ..
  have hna : (num a).toBitVec.toNat = a := num_toNat (by omega)
  have hnb : (num b).toBitVec.toNat = b := num_toNat (by omega)
  have hquot : ((num a).toBitVec.sdiv (num b).toBitVec).toNat = a / b := by
    rw [BitVec.sdiv_eq, msb_num ha, msb_num hb]
    exact congrArg₂ (· / ·) hna hnb
  simp only [Alu.eval]
  rw [if_neg (num_ne_zero (by omega) h0), ← UInt32.toNat_inj, num_toNat (by omega)]
  exact hquot

/-- The rest of that division. -/
@[simp] theorem rem_num (ha : a < 2 ^ 31) (hb : b < 2 ^ 31) (h0 : b ≠ 0) :
    Alu.eval (num a) (num b) .rem = num (a % b) := by
  have hle : a % b ≤ a := Nat.mod_le ..
  have hna : (num a).toBitVec.toNat = a := num_toNat (by omega)
  have hnb : (num b).toBitVec.toNat = b := num_toNat (by omega)
  have hrest : ((num a).toBitVec.srem (num b).toBitVec).toNat = a % b := by
    rw [BitVec.srem_eq, msb_num ha, msb_num hb]
    exact congrArg₂ (· % ·) hna hnb
  simp only [Alu.eval]
  rw [if_neg (num_ne_zero (by omega) h0), ← UInt32.toNat_inj, num_toNat (by omega)]
  exact hrest

/-! ## Comparisons -/

@[simp] theorem eq_num (ha : a < 2 ^ 32) (hb : b < 2 ^ 32) :
    Cond.eval (num a) (num b) .eq = decide (a = b) := by
  simp only [Cond.eval, num_inj ha hb]

@[simp] theorem ne_num (ha : a < 2 ^ 32) (hb : b < 2 ^ 32) :
    Cond.eval (num a) (num b) .ne = decide (a ≠ b) := by
  simp only [Cond.eval, ne_eq, num_inj ha hb]

@[simp] theorem lt_num (ha : a < 2 ^ 31) (hb : b < 2 ^ 31) :
    Cond.eval (num a) (num b) .lt = decide (a < b) := by
  simp only [Cond.eval, signed_num ha, signed_num hb, Nat.cast_lt]

@[simp] theorem ge_num (ha : a < 2 ^ 31) (hb : b < 2 ^ 31) :
    Cond.eval (num a) (num b) .ge = decide (b ≤ a) := by
  simp only [Cond.eval, signed_num ha, signed_num hb, Nat.cast_le]

@[simp] theorem geu_num (ha : a < 2 ^ 32) (hb : b < 2 ^ 32) :
    Cond.eval (num a) (num b) .geu = decide (b ≤ a) := by
  simp only [Cond.eval, num_toNat ha, num_toNat hb]

/-- A comparison with `zero`. -/
@[simp] theorem eq_zero_num (ha : a < 2 ^ 32) : Cond.eval (num a) 0 .eq = decide (a = 0) :=
  eq_num ha (by decide)

@[simp] theorem ne_zero_num (ha : a < 2 ^ 32) : Cond.eval (num a) 0 .ne = decide (a ≠ 0) :=
  ne_num ha (by decide)

end

/-! ## The number of a lane -/

@[simp] theorem hart_lane (block : Nat) (i : Fin 32) : Alu.eval (hartid block i) 0x1F .and = num i := by
  show UInt32.ofNat (block * 2 ^ 13 + i) &&& 0x1F = UInt32.ofNat i
  rw [← UInt32.toNat_inj, UInt32.toNat_and, UInt32.toNat_ofNat', UInt32.toNat_ofNat']
  have hmask : (0x1F : Word).toNat = 2 ^ 5 - 1 := rfl
  rw [hmask, Nat.and_two_pow_sub_one_eq_mod]
  omega

@[simp] theorem hart_block {block : Nat} (h : block < 2 ^ 19) (i : Fin 32) :
    Alu.eval (hartid block i) 13 .srl = num block := by
  have hdiv : (block * 2 ^ 13 + i) / 2 ^ (13 % 32) = block := by
    simp only [Nat.reduceMod, Nat.reducePow]
    omega
  have hsrl := srl_lit (a := block * 2 ^ 13 + i) (n := 13) (by omega)
  rw [hdiv] at hsrl
  exact hsrl

/-! ## What a lane finds -/

variable {V C : Type} {fm : Format V C} {code : List (Instr Nat)} {m0 : Nat → C} {hi : Nat}
  {l l' : Lane V} {ins : Instr Nat}

section

variable (l : Lane V) (r : X) (f : F) (v : Word) (u : V) (n : Nat)

@[simp] theorem view_setX : view fm m0 (l.setX r v) = view fm m0 l := rfl
@[simp] theorem view_setF : view fm m0 (l.setF f u) = view fm m0 l := rfl
@[simp] theorem view_goto : view fm m0 (l.goto n) = view fm m0 l := rfl
@[simp] theorem view_next : view fm m0 l.next = view fm m0 l := rfl
@[simp] theorem view_halt : view fm m0 l.halt = view fm m0 l := rfl
@[simp] theorem view_load : view fm m0 (l.note (.load n)) = view fm m0 l := rfl
@[simp] theorem view_store : view fm m0 (l.note (.store n u)) = fm.set (view fm m0 l) n u := rfl

end

/-- The word at `x` is in the `n` bytes at `a`. -/
def InBuf (a n x : Nat) : Prop := a ≤ x ∧ x + 4 ≤ a + n

/-- The word at `x` is in one of some spans, each with its first address and its bytes. -/
def InSpans (ps : List (Nat × Nat)) (x : Nat) : Prop := ∃ p ∈ ps, InBuf p.1 p.2 x

/-- One span ends before the other begins. -/
def SpansApart (p q : Nat × Nat) : Prop := p.1 + p.2 ≤ q.1 ∨ q.1 + q.2 ≤ p.1

/-! ## Matrices of words

The entry in row `r` and column `j` of a matrix with rows of `w` words lies at `r * w + j`. -/

section

variable {base w n r j r' j' : Nat}

theorem entry_in (hr : r < n) (hj : j < w) : InBuf base (4 * (n * w)) (base + 4 * (r * w + j)) := by
  have hlt := rows.pair_lt hr hj
  unfold InBuf
  omega

theorem entries_apart (hj : j < w) (hj' : j' < w) (hne : (r, j) ≠ (r', j')) :
    base + 4 * (r * w + j) + 4 ≤ base + 4 * (r' * w + j') ∨
      base + 4 * (r' * w + j') + 4 ≤ base + 4 * (r * w + j) := by
  have hplace : r * w + j ≠ r' * w + j' := by
    intro he
    obtain ⟨rfl, rfl⟩ := rows.pair_inj hj hj' he
    exact hne rfl
  omega

end

/-- The words of the arguments from `a` on. -/
def Args (fm : Format V C) (m : Nat → C) : Nat → List Nat → Prop
  | _, [] => True
  | a, v :: vs => fm.toBits (fm.get m a) = num v ∧ Args fm m (a + 4) vs

theorem Args.of_get {m m' : Nat → C} {a : Nat} {vs : List Nat} (h : Args fm m a vs)
    (hsame : ∀ x, InBuf a (4 * vs.length) x → fm.get m' x = fm.get m x) : Args fm m' a vs := by
  induction vs generalizing a with
  | nil => trivial
  | cons v vs ih =>
    unfold InBuf at hsame ih
    rw [List.length_cons] at hsame
    refine ⟨?_, ih h.2 fun x hx => hsame x ⟨by omega, by omega⟩⟩
    rw [hsame a ⟨Nat.le_refl _, by omega⟩]
    exact h.1

section

variable (regs : Regs V) (block : Nat) (args : Word) (i : Fin 32)

@[simp] theorem begin_a0 : (begin_lane regs block args i).x .a0 = args := by
  simp [begin_lane, Lane.x]

@[simp] theorem begin_mhartid : (begin_lane regs block args i).mhartid = hartid block i := rfl

@[simp] theorem begin_log : (begin_lane regs block args i).log = [] := rfl

@[simp] theorem begin_view : view fm m0 (begin_lane regs block args i) = m0 := rfl

end

/-! ## Straight lines -/

/-- The instructions that lead to the next one. -/
def Instr.plain : Instr Nat → Bool
  | .branch _ _ _ _ | .j _ | .vshfl_xor _ _ _ | .ebreak => false
  | _ => true

/-- A lane after a line of instructions. -/
def straight (fm : Format V C) (m0 : Nat → C) : List (Instr Nat) → Lane V → Lane V
  | [], l => l
  | ins :: line, l => straight fm m0 line ((act fm l ins).lane fm.toCells (view fm m0 l))

theorem plain_step (fm : Format V C) (l : Lane V) (h : ins.plain = true) (m : Nat → C) :
    ((act fm l ins).lane fm.toCells m).pc = l.pc + 1 ∧
      ((act fm l ins).lane fm.toCells m).active = l.active := by
  cases ins with
  | branch c rs1 rs2 target => cases h
  | j target => cases h
  | vshfl_xor rd rs mask => cases h
  | ebreak => cases h
  | _ => exact ⟨rfl, rfl⟩

theorem plain_not_shuffles (h : ins.plain = true) : ins.shuffles = false := by
  cases ins <;> first | rfl | cases h

/-- A lane runs a line of instructions. -/
theorem goes_straight {line : List (Instr Nat)} {pc : Nat} (hplain : line.all Instr.plain = true)
    (hcode : (code.drop pc).take line.length = line) (hpc : l.pc = pc) (hactive : l.active = true)
    (hhi : pc + line.length ≤ hi) :
    Goes fm code m0 hi l (straight fm m0 line l) ∧ (straight fm m0 line l).pc = pc + line.length ∧
      (straight fm m0 line l).active = true := by
  induction line generalizing l pc with
  | nil => exact ⟨.refl l, hpc, hactive⟩
  | cons ins line ih =>
    rw [List.all_cons, Bool.and_eq_true] at hplain
    rw [List.length_cons] at hcode hhi
    obtain ⟨hnext, hstill⟩ := plain_step fm l hplain.1 (view fm m0 l)
    have hins : code[pc]? = some ins := by
      have h := congrArg List.head? hcode
      rw [List.head?_take, List.head?_drop] at h
      simpa using h
    have htail : (code.drop (pc + 1)).take line.length = line := by
      have h := congrArg List.tail hcode
      rw [← List.drop_one, List.drop_take, List.drop_drop] at h
      simpa using h
    have hstep : Solo fm code m0 hi l ((act fm l ins).lane fm.toCells (view fm m0 l)) :=
      ⟨hactive, by omega, ins, hpc ▸ hins, plain_not_shuffles hplain.1, rfl⟩
    obtain ⟨hgoes, hend, hon⟩ := ih hplain.2 htail (hnext.trans (congrArg (· + 1) hpc))
      (hstill.trans hactive) (by omega)
    refine ⟨hgoes.head hstep, hend.trans ?_, hon⟩
    rw [List.length_cons]
    omega

/-! ## Where a lane leads -/

/-- From `l` the lane comes to a state with `Q`. -/
def Leads (fm : Format V C) (code : List (Instr Nat)) (m0 : Nat → C) (hi : Nat) (l : Lane V)
    (Q : Lane V → Prop) : Prop :=
  ∃ l', Goes fm code m0 hi l l' ∧ Q l'

section

variable {Q Q' : Lane V → Prop} {c : Cond} {rs1 rs2 : X} {target : Nat}

theorem leads_refl (h : Q l) : Leads fm code m0 hi l Q := ⟨l, .refl l, h⟩

theorem Leads.trans (h : Leads fm code m0 hi l Q)
    (hQ : ∀ l', Q l' → Leads fm code m0 hi l' Q') : Leads fm code m0 hi l Q' := by
  obtain ⟨l', hgoes, hl'⟩ := h
  obtain ⟨l'', hgoes', hl''⟩ := hQ l' hl'
  exact ⟨l'', hgoes.trans hgoes', hl''⟩

theorem leads_straight (line : List (Instr Nat)) (pc : Nat) (hplain : line.all Instr.plain = true)
    (hcode : (code.drop pc).take line.length = line) (hpc : l.pc = pc) (hactive : l.active = true)
    (hhi : pc + line.length ≤ hi)
    (hQ : (straight fm m0 line l).pc = pc + line.length → (straight fm m0 line l).active = true →
      Leads fm code m0 hi (straight fm m0 line l) Q) : Leads fm code m0 hi l Q := by
  obtain ⟨hgoes, hend, hon⟩ := goes_straight hplain hcode hpc hactive hhi
  obtain ⟨l', hgoes', hl'⟩ := hQ hend hon
  exact ⟨l', hgoes.trans hgoes', hl'⟩

/-- A line of instructions, to a lane with a name. -/
theorem leads_line (line : List (Instr Nat)) (pc : Nat) (hplain : line.all Instr.plain = true)
    (hcode : (code.drop pc).take line.length = line) (hpc : l.pc = pc) (hactive : l.active = true)
    (hhi : pc + line.length ≤ hi)
    (hQ : ∀ l', l' = straight fm m0 line l → l'.pc = pc + line.length → l'.active = true →
      Leads fm code m0 hi l' Q) : Leads fm code m0 hi l Q :=
  leads_straight line pc hplain hcode hpc hactive hhi fun hend hon => hQ _ rfl hend hon

theorem leads_step (ins : Instr Nat) (hcode : code[l.pc]? = some ins) (hplain : ins.shuffles = false)
    (hactive : l.active = true) (hhi : l.pc < hi)
    (h : Leads fm code m0 hi ((act fm l ins).lane fm.toCells (view fm m0 l)) Q) :
    Leads fm code m0 hi l Q := by
  obtain ⟨l', hgoes, hQ⟩ := h
  exact ⟨l', hgoes.head ⟨hactive, hhi, ins, hcode, hplain, rfl⟩, hQ⟩

theorem leads_branch (pc : Nat) (hcode : code[pc]? = some (.branch c rs1 rs2 target)) (hpc : l.pc = pc)
    (hactive : l.active = true) (hhi : pc < hi)
    (h : Leads fm code m0 hi (if c.eval (l.x rs1) (l.x rs2) then l.goto target else l.next) Q) :
    Leads fm code m0 hi l Q :=
  leads_step (.branch c rs1 rs2 target) (hpc ▸ hcode) rfl hactive (hpc ▸ hhi) h

/-- A branch whose test is decided by `p`. -/
theorem leads_test {p : Prop} [Decidable p] (pc : Nat)
    (hcode : code[pc]? = some (.branch c rs1 rs2 target)) (hpc : l.pc = pc) (hactive : l.active = true)
    (hhi : pc < hi) (htest : c.eval (l.x rs1) (l.x rs2) = decide p)
    (hyes : p → Leads fm code m0 hi (l.goto target) Q)
    (hno : ¬ p → Leads fm code m0 hi (l.goto (pc + 1)) Q) : Leads fm code m0 hi l Q := by
  refine leads_branch pc hcode hpc hactive hhi ?_
  have hnext : l.next = l.goto (pc + 1) := congrArg (fun n => l.goto (n + 1)) hpc
  rw [htest, hnext]
  by_cases hp : p
  · rw [if_pos (decide_eq_true hp)]
    exact hyes hp
  · rw [if_neg (by simpa using hp)]
    exact hno hp

theorem leads_jump (pc : Nat) (hcode : code[pc]? = some (.j target)) (hpc : l.pc = pc)
    (hactive : l.active = true) (hhi : pc < hi) (h : Leads fm code m0 hi (l.goto target) Q) :
    Leads fm code m0 hi l Q :=
  leads_step (.j target) (hpc ▸ hcode) rfl hactive (hpc ▸ hhi) h

theorem leads_ebreak (pc : Nat) (hcode : code[pc]? = some .ebreak) (hpc : l.pc = pc)
    (hactive : l.active = true) (hhi : pc < hi) (hQ : Q l.halt) : Leads fm code m0 hi l Q :=
  leads_step .ebreak (hpc ▸ hcode) rfl hactive (hpc ▸ hhi) (leads_refl hQ)

/-- A loop of `n` turns, with what holds before each. -/
theorem leads_turns (I : Nat → Lane V → Prop) {k n : Nat} (hkn : k ≤ n) (h : I k l)
    (hturn : ∀ k' < n, ∀ l', I k' l' → Leads fm code m0 hi l' (I (k' + 1))) :
    Leads fm code m0 hi l (I n) := by
  induction n, hkn using Nat.le_induction with
  | base => exact leads_refl h
  | succ n hn ih =>
    exact (ih fun k' hk' => hturn k' (by omega)).trans fun l' hl' => hturn n (by omega) l' hl'

end

/-- A lane that only reads finds the memory as it was. -/
theorem view_of_reads {R : Nat → Prop} (h : Within R (fun _ => False) l.log) : view fm m0 l = m0 := by
  funext y
  apply replay_outside
  rw [stored_iff]
  rintro ⟨a, ha, -⟩
  exact h.2 a ha

/-! ## The arguments -/

theorem Args.get {m : Nat → C} {a k : Nat} {vs : List Nat} (h : Args fm m a vs) (hk : k < vs.length) :
    fm.toBits (fm.get m (a + 4 * k)) = num (vs.getD k 0) := by
  induction vs generalizing a k with
  | nil => cases hk
  | cons v vs ih =>
    cases k with
    | zero => exact h.1
    | succ k =>
      rw [show a + 4 * (k + 1) = a + 4 + 4 * k by ring, ih h.2 (Nat.lt_of_succ_lt_succ hk)]
      rfl

/-- A line that loads words of the arguments into registers. -/
def loads (rs : List (X × Nat)) : List (Instr Nat) := rs.map fun p => .lw p.1 (num (4 * p.2)) .a0

/-- The lane holds words of the arguments in registers, and has done nothing else. -/
structure Loaded (args n : Nat) (vs : List Nat) (rs : List (X × Nat)) (block : Nat) (i : Fin 32)
    (l : Lane V) : Prop where
  pc : l.pc = rs.length
  active : l.active = true
  a0 : l.x .a0 = num args
  regs : ∀ p ∈ rs, l.x p.1 = num (vs.getD p.2 0)
  mhartid : l.mhartid = hartid block i
  log : Within (InBuf args n) (fun _ => False) l.log

/-- The registers that a lane can load from the arguments one after the other. -/
structure Loadable (vs : List Nat) (rs : List (X × Nat)) : Prop where
  apart : (rs.map Prod.fst).Nodup
  regs : ∀ p ∈ rs, p.1 ≠ .a0 ∧ p.1 ≠ .zero ∧ p.2 < vs.length

theorem straight_loads {args n : Nat} {vs : List Nat} {rs : List (X × Nat)} {block : Nat}
    {i : Fin 32} (hargs : Args fm m0 args vs) (hend : args + 4 * vs.length ≤ 2 ^ 32)
    (hn : 4 * vs.length ≤ n) (hrs : Loadable vs rs) (ha0 : l.x .a0 = num args)
    (hlog : Within (InBuf args n) (fun _ => False) l.log) (hhart : l.mhartid = hartid block i) :
    (straight fm m0 (loads rs) l).x .a0 = num args ∧
      (∀ p ∈ rs, (straight fm m0 (loads rs) l).x p.1 = num (vs.getD p.2 0)) ∧
      (∀ r, (∀ p ∈ rs, p.1 ≠ r) → (straight fm m0 (loads rs) l).x r = l.x r) ∧
      (straight fm m0 (loads rs) l).mhartid = hartid block i ∧
      Within (InBuf args n) (fun _ => False) (straight fm m0 (loads rs) l).log := by
  induction rs generalizing l with
  | nil => exact ⟨ha0, by simp, fun _ _ => rfl, hhart, hlog⟩
  | cons p rs ih =>
    obtain ⟨hapart, hregs⟩ := hrs
    rw [List.map_cons, List.nodup_cons] at hapart
    obtain ⟨hpa0, hpzero, hplt⟩ := hregs p (List.mem_cons_self ..)
    have haddr : (l.x .a0 + num (4 * p.2)).toNat = args + 4 * p.2 := by
      rw [ha0, num_add, num_toNat (by omega)]
    have hval : fm.toBits (fm.get (view fm m0 l) (args + 4 * p.2)) = num (vs.getD p.2 0) := by
      rw [view_of_reads hlog, hargs.get hplt]
    -- One load, and then the others.
    let l1 := (act fm l (.lw p.1 (num (4 * p.2)) .a0)).lane fm.toCells (view fm m0 l)
    have hx : ∀ r, l1.x r = if r = .zero then 0 else if r = p.1 then num (vs.getD p.2 0) else l.x r := by
      intro r
      show ((l.setX p.1 (fm.toBits (fm.get (view fm m0 l) _))).x r) = _
      rw [haddr, hval, x_setX]
    have hlog1 : Within (InBuf args n) (fun _ => False) l1.log := by
      show Within _ _ (.load _ :: l.log)
      rw [haddr, within_load]
      exact ⟨⟨by omega, by omega⟩, hlog⟩
    obtain ⟨h1, h2, h3, h4, h5⟩ := ih (l := l1) ⟨hapart.2, fun q hq => hregs q (List.mem_cons_of_mem _ hq)⟩
      (by rw [hx, if_neg (by decide), if_neg hpa0.symm, ha0]) hlog1 hhart
    refine ⟨h1, fun q hq => ?_, fun r hr => ?_, h4, h5⟩
    · rcases List.mem_cons.mp hq with rfl | hq
      · have hnew : ∀ q' ∈ rs, q'.1 ≠ q.1 := fun q' hq' he =>
          hapart.1 (List.mem_map.mpr ⟨q', hq', he⟩)
        exact (h3 q.1 hnew).trans (by rw [hx, if_neg hpzero, if_pos rfl])
      · exact h2 q hq
    · refine (h3 r fun q hq => hr q (List.mem_cons_of_mem _ hq)).trans ?_
      have hne : ¬ r = p.1 := fun he => hr p (List.mem_cons_self ..) he.symm
      rw [hx, if_neg hne]
      by_cases hz : r = .zero
      · rw [if_pos hz, hz, x_zero]
      · rw [if_neg hz]

theorem loads_plain (rs : List (X × Nat)) : (loads rs).all Instr.plain = true := by
  simp [loads, Instr.plain]

/-- A lane that begins with the load of its arguments. -/
theorem leads_loads {args n : Nat} {vs : List Nat} {regs : Regs V} {block : Nat} {i : Fin 32}
    (rs : List (X × Nat)) (hargs : Args fm m0 args vs) (hend : args + 4 * vs.length ≤ 2 ^ 32)
    (hn : 4 * vs.length ≤ n) (hrs : Loadable vs rs)
    (hcode : code.take rs.length = loads rs) (hhi : rs.length ≤ hi) :
    Leads fm code m0 hi (begin_lane regs block (num args) i) (Loaded args n vs rs block i) := by
  have hlen : (loads rs).length = rs.length := List.length_map ..
  obtain ⟨h1, h2, -, h4, h5⟩ := straight_loads (l := begin_lane regs block (num args) i) hargs hend hn
    hrs (begin_a0 ..) (by simp) rfl
  exact leads_straight (loads rs) 0 (loads_plain rs) (by rw [hlen]; exact hcode) rfl rfl
    (by omega) fun hpc hactive => leads_refl ⟨by rw [hpc, hlen, Nat.zero_add], hactive, h1, h2, h4, h5⟩

end gpgpu.core
