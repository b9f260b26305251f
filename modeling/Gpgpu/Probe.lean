-- `gpgpu_probe` and `gpgpu_remove` (gpgpu_drv.c): twelve services of the kernel are asked one
-- after the other, and a ladder of labels gives back what was taken. The laws say when the PCI
-- core and the driver agree on what a device holds.
import Gpgpu.Lib.Runs

open runs

namespace gpgpu.pci

/-! ## What a device holds -/

/-- What a probe takes. -/
inductive Resource
  | memory | enabled | regions | ctrl_map | vram_map | doorbell_map | chrdev | cdev | device_class
  | node | vectors | irq
deriving DecidableEq

/-- All that a device which works holds. -/
def everything : Finset Resource :=
  {.irq, .vectors, .node, .device_class, .cdev, .chrdev, .doorbell_map, .vram_map, .ctrl_map, .regions,
    .enabled, .memory}

/-- The code of an error pointer or of a call that fails. -/
def Errno : Type := {e : Int // -4095 ≤ e ∧ e < 0}

def ENOMEM : Int := 12

/-- What the services of the kernel return to one probe. A call that fails takes nothing. -/
structure Services where
  kmalloc : Bool
  pci_enable_device : Int
  pci_request_regions : Int
  iomap_ctrl : Bool
  iomap_vram : Bool
  iomap_doorbell : Bool
  alloc_chrdev_region : Int
  cdev_add : Int
  class_create : Option Errno
  device_create : Option Errno
  pci_alloc_irq_vectors : Int
  request_irq : Int

/-- Gives a resource back. To give back what is not held is a fault. -/
def release (held : Finset Resource) (r : Resource) : Option (Finset Resource) :=
  if r ∈ held then some (held.erase r) else none

/-! ## The labels

What the lines from a label on give back: each label falls through to the one after it. Nothing
jumps to `err_request_irq_kernel`. -/

def err_free : List Resource := [.memory]
def err_disable_device : List Resource := .enabled :: err_free
def err_release_regions : List Resource := .regions :: err_disable_device
def err_iounmap_ctrl : List Resource := .ctrl_map :: err_release_regions
def err_iounmap_vram : List Resource := .vram_map :: err_iounmap_ctrl
def err_iounmap_doorbell : List Resource := .doorbell_map :: err_iounmap_vram
def err_cdev_region : List Resource := .chrdev :: err_iounmap_doorbell
def err_cdev_init : List Resource := .cdev :: err_cdev_region
def err_cdev_create : List Resource := .device_class :: err_cdev_init
def err_device_create : List Resource := .node :: err_cdev_create
def err_pci_alloc_irq_vectors : List Resource := .vectors :: err_device_create

/-- The jump to a label, which ends the probe. -/
def goto (held : Finset Resource) (ret : Int) (label : List Resource) : Option (Int × Finset Resource) :=
  (run release held label).map fun held => (ret, held)

/-! ## The two functions -/

/-- `gpgpu_probe`: its code, and what the device holds then. -/
def gpgpu_probe (sv : Services) (held : Finset Resource) : Option (Int × Finset Resource) :=
  let ret := -ENOMEM
  -- The line at `err_free` frees `NULL` here.
  if sv.kmalloc = false then some (ret, held) else
  let held := insert .memory held
  let ret := sv.pci_enable_device
  if ret ≠ 0 then goto held ret err_free else
  let held := insert .enabled held
  let ret := sv.pci_request_regions
  if ret ≠ 0 then goto held ret err_disable_device else
  let held := insert .regions held
  if sv.iomap_ctrl = false then goto held ret err_release_regions else
  let held := insert .ctrl_map held
  if sv.iomap_vram = false then goto held ret err_iounmap_ctrl else
  let held := insert .vram_map held
  if sv.iomap_doorbell = false then goto held ret err_iounmap_vram else
  let held := insert .doorbell_map held
  let ret := sv.alloc_chrdev_region
  if ret ≠ 0 then goto held ret err_iounmap_doorbell else
  let held := insert .chrdev held
  let ret := sv.cdev_add
  if ret ≠ 0 then goto held ret err_cdev_region else
  let held := insert .cdev held
  match sv.class_create with
  | some e => goto held e.val err_cdev_init
  | none =>
    let held := insert .device_class held
    match sv.device_create with
    | some e => goto held e.val err_cdev_create
    | none =>
      let held := insert .node held
      let ret := sv.pci_alloc_irq_vectors
      if ret < 0 then goto held ret err_device_create else
      let held := insert .vectors held
      let ret := sv.request_irq
      if ret ≠ 0 then goto held ret err_pci_alloc_irq_vectors else
      some (0, insert .irq held)

/-- `gpgpu_remove`. -/
def gpgpu_remove (held : Finset Resource) : Option (Finset Resource) :=
  run release held [.irq, .vectors, .node, .device_class, .cdev, .chrdev, .ctrl_map, .vram_map,
    .doorbell_map, .regions, .enabled, .memory]

/-! ## Calls -/

variable {D : Type} [DecidableEq D]

inductive Call (D : Type)
  | probe (d : D) (sv : Services)
  | remove (d : D)

/-- What each device holds, and which devices the PCI core takes for bound: the last probe
returned 0, and no remove came after it. -/
structure State (D : Type) where
  held : D → Finset Resource
  bound : D → Bool

def start : State D := ⟨fun _ => ∅, fun _ => false⟩

/-- One call of the PCI core. It probes a device that is not bound, and removes one that
is. -/
def step (s : State D) : Call D → Option (State D)
  | .probe d sv =>
    if s.bound d then some s
    else (gpgpu_probe sv (s.held d)).map fun (ret, held) =>
      ⟨Function.update s.held d held, Function.update s.bound d (ret = 0)⟩
  | .remove d =>
    if s.bound d then (gpgpu_remove (s.held d)).map fun held =>
      ⟨Function.update s.held d held, Function.update s.bound d false⟩
    else some s

/-- Each bound device holds everything, and each other device nothing. -/
def Balanced (s : State D) : Prop := ∀ d, s.held d = if s.bound d then everything else ∅

/-- No call faults, and the state is balanced before the calls and after each of them. -/
def StaysBalanced : State D → List (Call D) → Prop
  | s, [] => Balanced s
  | s, c :: calls => Balanced s ∧ ∃ s', step s c = some s' ∧ StaysBalanced s' calls

/-- A probe comes to its mappings, and one of them fails. -/
def Services.map_fails (sv : Services) : Prop :=
  sv.kmalloc = true ∧ sv.pci_enable_device = 0 ∧ sv.pci_request_regions = 0 ∧
    ¬ (sv.iomap_ctrl = true ∧ sv.iomap_vram = true ∧ sv.iomap_doorbell = true)

/-! ## One call -/

/-- What is held can be given back, in any order. -/
theorem run_release {rs : List Resource} {held : Finset Resource} (hnodup : rs.Nodup)
    (hheld : held = rs.toFinset) : run release held rs = some ∅ := by
  induction rs generalizing held with
  | nil => rw [hheld]; rfl
  | cons r rs ih =>
    obtain ⟨hr, hnodup⟩ := List.nodup_cons.mp hnodup
    have hmem : r ∈ held := by simp [hheld]
    have herase : held.erase r = rs.toFinset := by
      rw [hheld, List.toFinset_cons, Finset.erase_insert (by simpa using hr)]
    rw [run, release, if_pos hmem, Option.bind_some]
    exact ih hnodup herase

theorem goto_eq {held : Finset Resource} {label : List Resource} (ret : Int) (hnodup : label.Nodup)
    (hheld : held = label.toFinset) : goto held ret label = some (ret, ∅) := by
  rw [goto, run_release hnodup hheld]
  rfl

/-- A probe takes everything and returns 0, or gives everything back. Then its code is 0 just
when a mapping has failed. -/
theorem gpgpu_probe_spec (sv : Services) :
    (gpgpu_probe sv ∅ = some (0, everything) ∧ ¬ sv.map_fails) ∨
      ∃ ret, gpgpu_probe sv ∅ = some (ret, ∅) ∧ (ret = 0 ↔ sv.map_fails) := by
  unfold gpgpu_probe Services.map_fails
  by_cases hkmalloc : sv.kmalloc = false
  · exact .inr ⟨_, by rw [if_pos hkmalloc], by simp [hkmalloc, ENOMEM]⟩
  rw [if_neg hkmalloc]
  by_cases henable : sv.pci_enable_device ≠ 0
  · exact .inr ⟨_, by rw [if_pos henable, goto_eq _ (by decide) (by decide)], by simp [henable]⟩
  rw [if_neg henable]
  by_cases hregions : sv.pci_request_regions ≠ 0
  · exact .inr ⟨_, by rw [if_pos hregions, goto_eq _ (by decide) (by decide)], by simp [hregions]⟩
  rw [if_neg hregions]
  have hcalm := not_not.mp hregions
  by_cases hctrl : sv.iomap_ctrl = false
  · refine .inr ⟨_, by rw [if_pos hctrl, goto_eq _ (by decide) (by decide)], ?_⟩
    simp_all
  rw [if_neg hctrl]
  by_cases hvram : sv.iomap_vram = false
  · refine .inr ⟨_, by rw [if_pos hvram, goto_eq _ (by decide) (by decide)], ?_⟩
    simp_all
  rw [if_neg hvram]
  by_cases hdoorbell : sv.iomap_doorbell = false
  · refine .inr ⟨_, by rw [if_pos hdoorbell, goto_eq _ (by decide) (by decide)], ?_⟩
    simp_all
  rw [if_neg hdoorbell]
  have hmaps : sv.iomap_ctrl = true ∧ sv.iomap_vram = true ∧ sv.iomap_doorbell = true := by
    exact ⟨by simpa using hctrl, by simpa using hvram, by simpa using hdoorbell⟩
  -- From here on the code of each failed call is its own error.
  have hno : ¬ (sv.kmalloc = true ∧ sv.pci_enable_device = 0 ∧ sv.pci_request_regions = 0 ∧
      ¬ (sv.iomap_ctrl = true ∧ sv.iomap_vram = true ∧ sv.iomap_doorbell = true)) :=
    fun h => h.2.2.2 hmaps
  by_cases hchrdev : sv.alloc_chrdev_region ≠ 0
  · exact .inr ⟨_, by rw [if_pos hchrdev, goto_eq _ (by decide) (by decide)], iff_of_false hchrdev hno⟩
  rw [if_neg hchrdev]
  by_cases hcdev : sv.cdev_add ≠ 0
  · exact .inr ⟨_, by rw [if_pos hcdev, goto_eq _ (by decide) (by decide)], iff_of_false hcdev hno⟩
  rw [if_neg hcdev]
  cases sv.class_create with
  | some e =>
    exact .inr ⟨_, goto_eq _ (by decide) (by decide), iff_of_false (Int.ne_of_lt e.2.2) hno⟩
  | none =>
    cases sv.device_create with
    | some e =>
      exact .inr ⟨_, goto_eq _ (by decide) (by decide), iff_of_false (Int.ne_of_lt e.2.2) hno⟩
    | none =>
      by_cases hvectors : sv.pci_alloc_irq_vectors < 0
      · exact .inr ⟨_, by simp only [if_pos hvectors]; exact goto_eq _ (by decide) (by decide),
          iff_of_false (Int.ne_of_lt hvectors) hno⟩
      by_cases hirq : sv.request_irq ≠ 0
      · exact .inr ⟨_, by simp only [if_neg hvectors, if_pos hirq]; exact goto_eq _ (by decide) (by decide),
          iff_of_false hirq hno⟩
      · exact .inl ⟨by simp only [if_neg hvectors, if_neg hirq]; rfl, hno⟩

theorem gpgpu_remove_spec : gpgpu_remove everything = some ∅ :=
  run_release (by decide) (by decide)

theorem balanced_update {s : State D} (h : Balanced s) (d : D) (held : Finset Resource) (bound : Bool) :
    Balanced ⟨Function.update s.held d held, Function.update s.bound d bound⟩ ↔
      held = if bound then everything else ∅ := by
  constructor
  · intro hnew
    have hd := hnew d
    simpa only [Function.update_self] using hd
  · intro hheld d'
    by_cases hd : d' = d
    · subst hd
      simpa only [Function.update_self] using hheld
    · simpa only [Function.update_of_ne hd] using h d'

/-- The call does not probe a device of which a mapping fails. -/
def Maps (s : State D) (c : Call D) : Prop :=
  ∀ d sv, c = .probe d sv → s.bound d = false → ¬ sv.map_fails

/-- A call in a balanced state keeps the balance, but for a probe of which a mapping fails. -/
theorem step_balanced {s : State D} (h : Balanced s) (c : Call D) :
    ∃ s', step s c = some s' ∧ (Balanced s' ↔ Maps s c) := by
  cases c with
  | probe d sv =>
    have hmaps : Maps s (.probe d sv) ↔ (s.bound d = false → ¬ sv.map_fails) := by
      constructor
      · exact fun hm => hm d sv rfl
      · rintro hm d' sv' he
        cases he
        exact hm
    rw [hmaps]
    cases hbound : s.bound d with
    | true => exact ⟨s, by simp [step, hbound], by simpa using h⟩
    | false =>
      have hheld : s.held d = ∅ := by simpa [hbound] using h d
      rcases gpgpu_probe_spec sv with ⟨hprobe, hno⟩ | ⟨ret, hprobe, hret⟩
      · refine ⟨_, by simp [step, hbound, hheld, hprobe]; rfl, ?_⟩
        rw [balanced_update h]
        simpa using hno
      · refine ⟨_, by simp [step, hbound, hheld, hprobe]; rfl, ?_⟩
        rw [balanced_update h]
        have hne : (∅ : Finset Resource) ≠ everything := by decide
        by_cases h0 : ret = 0
        · simpa [h0, hne] using hret.mp h0
        · simpa [h0] using mt hret.mpr h0
  | remove d =>
    have hmaps : Maps s (.remove d) := fun d' sv he => by cases he
    cases hbound : s.bound d with
    | false => exact ⟨s, by simp [step, hbound], by simpa [hmaps] using h⟩
    | true =>
      have hheld : s.held d = everything := by simpa [hbound] using h d
      refine ⟨_, by simp [step, hbound, hheld, gpgpu_remove_spec]; rfl, ?_⟩
      rw [balanced_update h]
      simpa using hmaps

/-! ## Every run -/

/-- After each call of a run every device holds just what the PCI core takes it to hold, if and
only if no probe that comes to its mappings has one of them fail. -/
theorem a_run_stays_balanced_iff_no_mapping_fails (calls : List (Call D)) :
    StaysBalanced start calls ↔ Meets step Maps start calls := by
  have hgo : ∀ s : State D, Balanced s → (StaysBalanced s calls ↔ Meets step Maps s calls) := by
    induction calls with
    | nil => exact fun s h => iff_of_true h trivial
    | cons c calls ih =>
      intro s h
      obtain ⟨s', hstep, hiff⟩ := step_balanced h c
      simp only [StaysBalanced, Meets, hstep, Option.elim_some, Option.some.injEq, exists_eq_left']
      by_cases hmaps : Maps s c
      · simp [h, hmaps, ih s' (hiff.mpr hmaps)]
      · refine iff_of_false (fun hstays => ?_) fun hmeets => hmaps hmeets.1
        have hbal : Balanced s' := by
          cases calls with
          | nil => exact hstays.2
          | cons c' calls => exact hstays.2.1
        exact hmaps (hiff.mp hbal)
  exact hgo start fun d => by simp [start]

/-- The services of a probe of which nothing fails, but for one mapping. -/
def no_vram : Services := ⟨true, 0, 0, true, false, true, 0, 0, none, none, 1, 0⟩

/-- The mapping of the memory fails: the probe has given everything back and returns 0, and the
remove that follows gives back what is not held. -/
theorem a_failed_mapping_looks_bound :
    gpgpu_probe no_vram ∅ = some (0, ∅) ∧
      ¬ StaysBalanced (start : State Unit) [.probe () no_vram] ∧
      (run step (start : State Unit) [.probe () no_vram, .remove ()]).isNone := by
  refine ⟨by decide, fun hstays => ?_, by decide⟩
  obtain ⟨-, s', hstep, hbal⟩ := hstays
  have hafter : (step (start : State Unit) (.probe () no_vram)).map (fun s => (s.held (), s.bound ())) =
      some (∅, true) := by decide
  rw [hstep, Option.map_some, Option.some.injEq, Prod.mk.injEq] at hafter
  have hheld := hbal ()
  rw [hafter.1, hafter.2] at hheld
  exact absurd hheld (by decide)

end gpgpu.pci
