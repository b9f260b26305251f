-- The laws of the loader: after a load every file lies in its region, where the address
-- book says, and what was live before is as it was.
import Gpgpu.KvLaws
import Gpgpu.Weights

open memory

namespace gpgpu.weights

open buddy context kv

variable {T : Nat} {ctx ctx1 ctx2 : GpgpuCtx} {pool pool1 pool2 : Pool} {new : List (Nat × Nat)}

/-! ## Allocations that are added -/

/-- The allocations `new` have come to those of `pool`, whose bytes are as they were. -/
structure Grows (T : Nat) (ctx : GpgpuCtx) (pool : Pool) (new : List (Nat × Nat)) (ctx' : GpgpuCtx)
    (pool' : Pool) : Prop where
  carries : Carries T ctx' pool'
  live : pool'.live = new ++ pool.live
  mapped : ctx'.vram_mmap = ctx.vram_mmap
  keeps : ∀ e ∈ pool.live, ∀ y, InSpan ctx.vram_mmap e y → ctx'.buddy.mem y = ctx.buddy.mem y

theorem grows_refl (h : Carries T ctx pool) : Grows T ctx pool [] ctx pool :=
  ⟨h, rfl, rfl, fun _ _ _ _ => rfl⟩

theorem Grows.trans {more : List (Nat × Nat)} (h1 : Grows T ctx pool new ctx1 pool1)
    (h2 : Grows T ctx1 pool1 more ctx2 pool2) : Grows T ctx pool (more ++ new) ctx2 pool2 := by
  refine ⟨h2.carries, ?_, h2.mapped.trans h1.mapped, fun e he y hy => ?_⟩
  · rw [h2.live, h1.live, List.append_assoc]
  · rw [h2.keeps e (by rw [h1.live]; exact List.mem_append_right _ he) y (by rwa [h1.mapped]),
      h1.keeps e he y hy]

theorem grows_malloc {size x : Nat} {malloc_ok : Bool} (h : Carries T ctx pool)
    (hcode : gpuMalloc ctx size malloc_ok = some (x, ctx1)) (hx : x ≠ NO_OFFSET) :
    ∃ pool1, Grows T ctx pool [(x, size)] ctx1 pool1 := by
  obtain ⟨pool1, hcar, hlive, hmap, hkeep⟩ := h.grant hcode
  rw [if_neg hx] at hlive
  exact ⟨pool1, hcar, hlive, hmap, hkeep⟩

/-- A new allocation is not an old one. -/
theorem Grows.ne {e f : Nat × Nat} (h : Grows T ctx pool new ctx1 pool1) (he : e ∈ pool.live)
    (hf : f ∈ new) : e ≠ f := by
  have hnodup := h.carries.good.nodup.of_map
  rw [h.live] at hnodup
  exact fun heq => List.disjoint_of_nodup_append hnodup hf (heq ▸ he)

/-- A write into the new allocations. -/
theorem Grows.write {m : Mem} (h : Grows T ctx pool new ctx1 pool1)
    (hm : ∀ y, (∀ e ∈ new, ¬ InSpan ctx1.vram_mmap e y) → m y = ctx1.buddy.mem y) :
    Grows T ctx pool new (ctx1.setMem m) pool1 := by
  refine ⟨h.carries.setMem fun y hy => hm y fun e he => ?_, h.live, h.mapped, fun e he y hy => ?_⟩
  · rw [h.carries.mapped]
    exact hy e (by rw [h.live]; exact List.mem_append_left _ he)
  · rw [← h.keeps e he y hy]
    apply hm
    intro f hf hin
    have hgood := h.carries.good
    have hap := hgood.apart (by rw [h.live]; exact List.mem_append_right _ he)
      (by rw [h.live]; exact List.mem_append_left _ hf) (h.ne he hf)
    rw [h.mapped] at hin
    unfold InSpan at hy hin
    omega

/-- A copy into one of the new allocations. -/
theorem Grows.copy {e : Nat × Nat} {x n : Nat} (h : Grows T ctx pool new ctx1 pool1) (he : e ∈ new)
    (hx : e.1 ≤ x ∧ x + n ≤ e.1 + e.2) (src : Nat → UInt8) :
    gpuMemcpy ctx1 x src n GPU_MEMCPY_H2D =
        (0, ctx1.setMem (copy ctx1.buddy.mem (ctx1.vram_mmap + x) src n), src) ∧
      Grows T ctx pool new (ctx1.setMem (copy ctx1.buddy.mem (ctx1.vram_mmap + x) src n)) pool1 := by
  have hlive : e ∈ pool1.live := by
    rw [h.live]
    exact List.mem_append_left _ he
  have hspan := h.carries.good.le_span hlive
  have hle := h.carries.good.span_le hlive
  have hend := h.carries.ends
  have hmapped := h.carries.mapped
  refine ⟨gpuMemcpy_H2D (by omega), h.write fun y hy => copy_outside ?_⟩
  have hnot := hy e he
  unfold InSpan at hnot
  omega

/-! ## Allocations with names -/

/-- The allocations of the names `ks` are live, each one by itself. -/
def Owns {κ : Type} (off size : κ → Nat) (ks : List κ) (pool : Pool) : Prop :=
  (ks.map fun k => (off k, size k)).Subperm pool.live

section

variable {κ : Type} {off size : κ → Nat} {ks : List κ} {a b : κ}

theorem Owns.mem (h : Owns off size ks pool) (ha : a ∈ ks) : (off a, size a) ∈ pool.live :=
  h.subset (List.mem_map_of_mem ha)

/-- What lies behind a name ends in the memory, up to the end of its block. -/
theorem Owns.span_le (h : Owns off size ks pool) (hcar : Carries T ctx pool) (ha : a ∈ ks) {n : Nat}
    (hn : n ≤ span (size a)) : off a + n ≤ T := by
  have hle := hcar.good.span_le (h.mem ha)
  simp only at hle
  omega

theorem Owns.le (h : Owns off size ks pool) (hcar : Carries T ctx pool) (ha : a ∈ ks) :
    off a + size a ≤ T :=
  h.span_le hcar ha (hcar.good.le_span (h.mem ha))

/-- What lies behind two names lies apart, up to the ends of their blocks. -/
theorem Owns.spans_apart (h : Owns off size ks pool) (hcar : Carries T ctx pool) (ha : a ∈ ks)
    (hb : b ∈ ks) (hne : a ≠ b) {n k : Nat} (hn : n ≤ span (size a)) (hk : k ≤ span (size b)) :
    off a + n ≤ off b ∨ off b + k ≤ off a := by
  have hnodup : (ks.map off).Nodup := by
    obtain ⟨l, hperm, hsub⟩ := h
    have hl := hcar.good.nodup.sublist (hsub.map Prod.fst)
    rwa [(hperm.map Prod.fst).nodup_iff, List.map_map] at hl
  have hoff : (off a, size a) ≠ (off b, size b) := fun heq =>
    hne (List.inj_on_of_nodup_map hnodup ha hb (Prod.mk.inj heq).1)
  have hap := hcar.good.apart (h.mem ha) (h.mem hb) hoff
  simp only at hap
  omega

theorem Owns.apart (h : Owns off size ks pool) (hcar : Carries T ctx pool) (ha : a ∈ ks)
    (hb : b ∈ ks) (hne : a ≠ b) : off a + size a ≤ off b ∨ off b + size b ≤ off a :=
  h.spans_apart hcar ha hb hne (hcar.good.le_span (h.mem ha)) (hcar.good.le_span (h.mem hb))

/-- Names whose allocations have come to those that were owned. -/
theorem Owns.grow (h : Owns off size ks pool) (js : List κ)
    (hg : Grows T ctx pool (js.map fun k => (off k, size k)).reverse ctx1 pool1) :
    Owns off size (js ++ ks) pool1 := by
  unfold Owns at h ⊢
  rw [hg.live, List.map_append]
  exact List.Subperm.append (List.reverse_perm _).symm.subperm h

end

/-! ## The regions -/

/-- The regions of a loader, with their sizes. -/
def regions (region_base : Nat → Nat) (rs : List Nat) : List (Nat × Nat) :=
  rs.map fun r => (region_base r, plan_bytes r)

theorem alloc_regions_spec {io : LoadIo} {rs : List Nat} {region_base region_base' : Nat → Nat}
    (h : Carries T ctx pool) (hnodup : rs.Nodup)
    (hcode : alloc_regions io rs ctx region_base = some (true, ctx1, region_base')) :
    (∀ r, r ∉ rs → region_base' r = region_base r) ∧
      ∃ pool1, Grows T ctx pool (regions region_base' rs).reverse ctx1 pool1 := by
  induction rs generalizing ctx pool region_base with
  | nil =>
    cases hcode
    exact ⟨fun _ _ => rfl, pool, grows_refl h⟩
  | cons r rs ih =>
    obtain ⟨hr, hnodup⟩ := List.nodup_cons.mp hnodup
    rw [alloc_regions] at hcode
    obtain ⟨⟨base, ctx2⟩, hmalloc, hrest⟩ := Option.bind_eq_some_iff.mp hcode
    simp only at hrest
    split at hrest
    · cases hrest
    next hbase =>
      obtain ⟨pool2, hgrows⟩ := grows_malloc h hmalloc hbase
      obtain ⟨hsame, pool1, hmore⟩ := ih hgrows.carries hnodup hrest
      have hhead : region_base' r = base := by rw [hsame r hr, Function.update_self]
      refine ⟨fun q hq => ?_, pool1, ?_⟩
      · rw [List.mem_cons, not_or] at hq
        rw [hsame q hq.2, Function.update_of_ne hq.1]
      · have hall := hgrows.trans hmore
        rw [← hhead] at hall
        simpa [regions] using hall

/-! ## The address book -/

/-- The region of a file, and where in the region it begins. -/
def place : WeightFile → Nat × Nat
  | .embedding => (0, 0)
  | .lm_head => (1, 0)
  | .final_norm => (2, 0)
  | .layer i => (2 + i / 4, (if i < 4 then WL_FINAL_NORM_BYTES else 0) + i % 4 * WL_LAYER_BYTES)

theorem fill_layers_eq (n i cursor : Nat) (layer_base : Nat → Nat) (j : Nat)
    (hfit : cursor + n * WL_LAYER_BYTES < 2 ^ 64) : fill_layers n i cursor layer_base j =
      if i ≤ j ∧ j < i + n then cursor + (j - i) * WL_LAYER_BYTES else layer_base j := by
  induction n generalizing i cursor layer_base with
  | zero =>
    rw [if_neg (by omega)]
    rfl
  | succ n ih =>
    have hadd : add64 cursor WL_LAYER_BYTES = cursor + WL_LAYER_BYTES := add64_eq (by
      unfold WL_LAYER_BYTES at *
      omega)
    rw [fill_layers, hadd, ih _ _ _ (by unfold WL_LAYER_BYTES at *; omega)]
    by_cases hj : j = i
    · subst hj
      rw [if_neg (by omega), if_pos (by omega), Function.update_self, Nat.sub_self, Nat.zero_mul,
        Nat.add_zero]
    · rw [Function.update_of_ne hj]
      by_cases hin : i ≤ j ∧ j < i + (n + 1)
      · rw [if_pos hin, if_pos (by omega)]
        unfold WL_LAYER_BYTES
        omega
      · rw [if_neg hin, if_neg (by omega)]

theorem fill_regions_eq (region_base : Nat → Nat) (rs : List Nat) (layer_base : Nat → Nat) (j : Nat)
    (hrs : ∀ r ∈ rs, 2 ≤ r ∧ region_base r + LAYERS_PER_REGION * WL_LAYER_BYTES < 2 ^ 64) :
    fill_regions region_base rs layer_base j = if 2 + j / 4 ∈ rs then
      region_base (2 + j / 4) + j % 4 * WL_LAYER_BYTES else layer_base j := by
  induction rs generalizing layer_base with
  | nil => rfl
  | cons r rs ih =>
    obtain ⟨hr, hfit⟩ := hrs r List.mem_cons_self
    rw [fill_regions, ih _ fun q hq => hrs q (List.mem_cons_of_mem _ hq)]
    by_cases hin : 2 + j / 4 ∈ rs
    · rw [if_pos hin, if_pos (List.mem_cons_of_mem _ hin)]
    · rw [if_neg hin, fill_layers_eq _ _ _ _ _ hfit]
      unfold LAYERS_PER_REGION
      by_cases heq : 2 + j / 4 = r
      · have hsub : j - (r - 2) * 4 = j % 4 := by omega
        rw [if_pos (by omega), if_pos (by rw [heq]; exact List.mem_cons_self), heq, hsub]
      · rw [if_neg (by omega), if_neg (by simp [heq, hin])]

/-- The address book gives each file its place. -/
theorem addr_eq {region_base : Nat → Nat} (hfit : ∀ r < 8, region_base r + plan_bytes r < 2 ^ 64)
    {f : WeightFile} (hf : f ∈ weight_files) :
    (address_book region_base).addr f = region_base (place f).1 + (place f).2 := by
  have hlast : ∀ r ∈ [3, 4, 5, 6, 7],
      2 ≤ r ∧ region_base r + LAYERS_PER_REGION * WL_LAYER_BYTES < 2 ^ 64 := by
    intro r hr
    have hle : 3 ≤ r ∧ r < 8 := by
      simp only [List.mem_cons, List.not_mem_nil, or_false] at hr
      omega
    have := hfit r hle.2
    rw [plan_bytes, if_neg (by omega), if_neg (by omega), if_neg (by omega)] at this
    exact ⟨by omega, this⟩
  have htwo := hfit 2 (by decide)
  rw [plan_bytes, if_neg (by decide), if_neg (by decide), if_pos rfl] at htwo
  have hnorm : add64 (region_base 2) WL_FINAL_NORM_BYTES = region_base 2 + WL_FINAL_NORM_BYTES :=
    add64_eq (by omega)
  cases f with
  | embedding => rfl
  | lm_head => rfl
  | final_norm => rfl
  | layer i =>
    have hi : i < 24 := by
      simpa [weight_files, WL_NUM_LAYERS] using hf
    show fill_regions _ _ _ _ = _
    rw [fill_regions_eq _ _ _ _ hlast, hnorm,
      fill_layers_eq _ _ _ _ _ (by omega)]
    simp only [place]
    by_cases hfour : i < 4
    · have hdiv : i / 4 = 0 := by omega
      have hmod : i % 4 = i := by omega
      rw [hdiv, hmod, if_neg (by decide), if_pos ⟨Nat.zero_le i, by unfold LAYERS_PER_REGION; omega⟩,
        if_pos hfour, Nat.sub_zero, Nat.add_assoc]
    · rw [if_pos (by simp; omega), if_neg hfour, Nat.zero_add]

/-- A file lies inside its region. -/
theorem place_fits {f : WeightFile} (hf : f ∈ weight_files) :
    (place f).1 < 8 ∧ (place f).2 + expected_bytes f ≤ plan_bytes (place f).1 := by
  cases f with
  | embedding => decide
  | lm_head => decide
  | final_norm => decide
  | layer i =>
    have hi : i < 24 := by
      simpa [weight_files, WL_NUM_LAYERS] using hf
    have hplan : plan_bytes (2 + i / 4) = (if i < 4 then WL_FINAL_NORM_BYTES else 0) +
        4 * WL_LAYER_BYTES := by
      rw [plan_bytes, if_neg (by omega), if_neg (by omega)]
      by_cases hfour : i < 4
      · rw [if_pos hfour, if_pos (by omega)]
        rfl
      · rw [if_neg hfour, if_neg (by omega), Nat.zero_add]
        rfl
    simp only [place, expected_bytes, hplan]
    unfold WL_LAYER_BYTES
    omega

/-- Two files lie apart in one region. -/
theorem place_apart {f g : WeightFile} (hne : f ≠ g) (hsame : (place f).1 = (place g).1) :
    (place f).2 + expected_bytes f ≤ (place g).2 ∨ (place g).2 + expected_bytes g ≤ (place f).2 := by
  cases f <;> cases g <;> simp only [place, expected_bytes] at hsame ⊢ <;>
    first | exact absurd rfl hne | omega | skip
  case final_norm.layer j =>
    rw [if_pos (by omega)]
    omega
  case layer.final_norm i =>
    rw [if_pos (by omega)]
    omega
  case layer.layer i j =>
    have hij : i ≠ j := fun heq => hne (by rw [heq])
    have hiff : i < 4 ↔ j < 4 := by omega
    simp only [hiff]
    unfold WL_LAYER_BYTES
    omega

/-! ## The files -/

/-- The byte `y` is where the file `f` lies. -/
def InFile (base : Nat) (wl : WeightLoader) (f : WeightFile) (y : Nat) : Prop :=
  base + wl.addr f ≤ y ∧ y < base + wl.addr f + expected_bytes f

/-- The file `f` lies at its address. -/
def Lies (files : WeightFile → Option FileData) (wl : WeightLoader) (ctx : GpgpuCtx)
    (f : WeightFile) : Prop :=
  ∃ file, files f = some file ∧ ∀ i < expected_bytes f,
    ctx.buddy.mem (ctx.vram_mmap + wl.addr f + i) = file.data i

theorem load_file_spec {file : Option FileData} {read_ok : Bool} {e : Nat × Nat} {x n : Nat}
    (h : Grows T ctx pool new ctx1 pool1) (he : e ∈ new) (hx : e.1 ≤ x ∧ x + n ≤ e.1 + e.2)
    (hok : ¬ (load_file_to_vram ctx1 file read_ok x n).1 < 0) :
    ∃ found, file = some found ∧ (load_file_to_vram ctx1 file read_ok x n).2 =
        ctx1.setMem (copy ctx1.buddy.mem (ctx1.vram_mmap + x) found.data n) ∧
      Grows T ctx pool new (load_file_to_vram ctx1 file read_ok x n).2 pool1 := by
  unfold load_file_to_vram at hok ⊢
  cases file with
  | none => simp at hok
  | some found =>
    obtain ⟨hcopy, hgrows⟩ := h.copy he hx found.data
    cases read_ok with
    | false => simp at hok
    | true =>
      simp only [hcopy]
      exact ⟨found, rfl, rfl, hgrows⟩

theorem load_files_spec {files : WeightFile → Option FileData} {io : LoadIo} {wl : WeightLoader}
    {fs : List WeightFile} (h : Grows T ctx pool new ctx1 pool1)
    (hin : ∀ f ∈ fs, ∃ e ∈ new, e.1 ≤ wl.addr f ∧ wl.addr f + expected_bytes f ≤ e.1 + e.2)
    (hapart : fs.Pairwise fun f g => wl.addr f + expected_bytes f ≤ wl.addr g ∨
      wl.addr g + expected_bytes g ≤ wl.addr f)
    (hok : ¬ (load_files files io wl fs ctx1).1 < 0) :
    Grows T ctx pool new (load_files files io wl fs ctx1).2 pool1 ∧
      (∀ f ∈ fs, Lies files wl (load_files files io wl fs ctx1).2 f) ∧
      ∀ y, (∀ f ∈ fs, ¬ InFile ctx1.vram_mmap wl f y) →
        (load_files files io wl fs ctx1).2.buddy.mem y = ctx1.buddy.mem y := by
  induction fs generalizing ctx1 with
  | nil => exact ⟨h, by simp, fun _ _ => rfl⟩
  | cons f fs ih =>
    obtain ⟨hfirst, hapart⟩ := List.pairwise_cons.mp hapart
    obtain ⟨e, he, hx⟩ := hin f List.mem_cons_self
    rw [load_files] at hok ⊢
    by_cases hread : (load_file_to_vram ctx1 (files f) (io.read_ok f) (wl.addr f)
        (expected_bytes f)).1 < 0
    · simp [if_pos hread] at hok
    rw [if_neg hread] at hok ⊢
    obtain ⟨found, hfile, hctx, hgrows⟩ := load_file_spec h he hx hread
    rw [hctx] at hok hgrows ⊢
    obtain ⟨hall, hlies, hout⟩ := ih hgrows (fun g hg => hin g (List.mem_cons_of_mem _ hg)) hapart hok
    refine ⟨hall, fun g hg => ?_, fun y hy => ?_⟩
    · rcases List.mem_cons.mp hg with rfl | hg
      · refine ⟨found, hfile, fun i hi => ?_⟩
        rw [hall.mapped, ← h.mapped]
        rw [hout]
        · exact copy_inside hi
        · intro f hf hin'
          have hap := hfirst f hf
          have hmap : (ctx1.setMem (copy ctx1.buddy.mem (ctx1.vram_mmap + wl.addr g) found.data
            (expected_bytes g))).vram_mmap = ctx1.vram_mmap := rfl
          rw [hmap] at hin'
          unfold InFile at hin'
          omega
      · exact hlies g hg
    · rw [hout y fun g hg => hy g (List.mem_cons_of_mem _ hg)]
      apply copy_outside
      have hnot := hy f List.mem_cons_self
      unfold InFile at hnot
      omega

/-- The files of a loader lie apart, each inside its region. -/
theorem addr_apart {wl : WeightLoader} {f g : WeightFile}
    (hcar : Carries T ctx pool) (howns : Owns wl.region_base plan_bytes (List.range 8) pool)
    (haddr : ∀ f ∈ weight_files, wl.addr f = wl.region_base (place f).1 + (place f).2)
    (hf : f ∈ weight_files) (hg : g ∈ weight_files) (hne : f ≠ g) :
    wl.addr f + expected_bytes f ≤ wl.addr g ∨ wl.addr g + expected_bytes g ≤ wl.addr f := by
  rw [haddr f hf, haddr g hg]
  obtain ⟨hr, hin⟩ := place_fits hf
  obtain ⟨hq, hin'⟩ := place_fits hg
  by_cases hsame : (place f).1 = (place g).1
  · have hap := place_apart hne hsame
    rw [hsame]
    omega
  · have hap := howns.apart hcar (List.mem_range.mpr hr) (List.mem_range.mpr hq) hsame
    omega

/-- After a load the regions are live, and every file lies in its place. -/
theorem load_spec {files : WeightFile → Option FileData} {io : LoadIo} {wl : WeightLoader}
    (h : Carries T ctx pool) (hcode : weight_loader_load files io ctx = some (some wl, ctx1)) :
    ∃ pool1, Grows T ctx pool (regions wl.region_base (List.range 8)).reverse ctx1 pool1 ∧
      ∀ f ∈ weight_files, wl.addr f = wl.region_base (place f).1 + (place f).2 ∧
        Lies files wl ctx1 f := by
  unfold weight_loader_load at hcode
  split at hcode
  · cases hcode
  split at hcode
  · cases hcode
  obtain ⟨⟨all, ctx2, region_base⟩, halloc, hrest⟩ := Option.bind_eq_some_iff.mp hcode
  simp only at hrest
  cases all with
  | false =>
    simp at hrest
  | true =>
    simp only [if_true] at hrest
    split at hrest
    · simp at hrest
    next hok =>
      obtain ⟨-, pool1, hgrows⟩ := alloc_regions_spec h List.nodup_range halloc
      simp only [Option.some.injEq, Prod.mk.injEq] at hrest
      obtain ⟨rfl, rfl⟩ := hrest
      have howns : Owns region_base plan_bytes (List.range 8) pool1 := by
        unfold Owns
        rw [hgrows.live]
        exact (List.reverse_perm _).symm.subperm.trans (List.sublist_append_left _ _).subperm
      have hfit : ∀ r < 8, region_base r + plan_bytes r ≤ T := fun r hr =>
        howns.le hgrows.carries (List.mem_range.mpr hr)
      have hsmall := hgrows.carries.small
      have haddr : ∀ f ∈ weight_files, (address_book region_base).addr f =
          region_base (place f).1 + (place f).2 := fun f hf =>
        addr_eq (fun r hr => by have := hfit r hr; omega) hf
      have hinside : ∀ f ∈ weight_files, ∃ e ∈ (regions region_base (List.range 8)).reverse,
          e.1 ≤ (address_book region_base).addr f ∧
            (address_book region_base).addr f + expected_bytes f ≤ e.1 + e.2 := by
        intro f hf
        obtain ⟨hr, hin⟩ := place_fits hf
        refine ⟨(region_base (place f).1, plan_bytes (place f).1), ?_, ?_⟩
        · simp only [regions, List.mem_reverse, List.mem_map, List.mem_range]
          exact ⟨_, hr, rfl⟩
        · rw [haddr f hf]
          simp only
          omega
      have hnodup : weight_files.Nodup := by decide
      have hapart : weight_files.Pairwise fun f g =>
          (address_book region_base).addr f + expected_bytes f ≤ (address_book region_base).addr g ∨
          (address_book region_base).addr g + expected_bytes g ≤ (address_book region_base).addr f :=
        hnodup.pairwise_of_forall_ne fun f hf g hg hne =>
          addr_apart hgrows.carries howns haddr hf hg hne
      obtain ⟨hall, hlies, -⟩ := load_files_spec hgrows hinside hapart hok
      exact ⟨pool1, hall, fun f hf => ⟨haddr f hf, hlies f hf⟩⟩

/-- A file stays where it lies while its region is live. -/
theorem Lies.grows {files : WeightFile → Option FileData} {wl : WeightLoader} {f : WeightFile}
    {e : Nat × Nat} (h : Lies files wl ctx f) (hcar : Carries T ctx pool) (he : e ∈ pool.live)
    (hin : e.1 ≤ wl.addr f ∧ wl.addr f + expected_bytes f ≤ e.1 + e.2)
    (hg : Grows T ctx pool new ctx1 pool1) : Lies files wl ctx1 f := by
  obtain ⟨file, hfile, hbytes⟩ := h
  have hspan := hcar.good.le_span he
  refine ⟨file, hfile, fun i hi => ?_⟩
  rw [hg.mapped, hg.keeps e he _ ⟨by omega, by omega⟩]
  exact hbytes i hi

end gpgpu.weights
