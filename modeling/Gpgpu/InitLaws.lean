-- The laws of `transformer_init`: the buffers, the kernels and their arguments get
-- allocations of their own, and the kernels and the table lie in theirs.
import Gpgpu.WeightLaws
import Gpgpu.Desk

open memory words buffers

namespace gpgpu.transformer

open buddy context kernels device kv weights desk

variable {T : Nat} {ctx ctx1 : GpgpuCtx} {pool : Pool}

/-! ## One allocation for each entry -/

section

variable {ι κ : Type} [DecidableEq κ] {call : ι → GpgpuCtx → Option (Nat × GpgpuCtx)} {key : ι → κ}
  {is : List ι} {ok : κ → Bool} {es : List (κ × Nat)} {off off' : κ → Nat}

/-- One call for each entry; its result goes to the key of the entry. -/
def each (call : ι → GpgpuCtx → Option (Nat × GpgpuCtx)) (key : ι → κ) :
    List ι → GpgpuCtx → (κ → Nat) → Option (GpgpuCtx × (κ → Nat))
  | [], ctx, off => some (ctx, off)
  | i :: is, ctx, off =>
    (call i ctx).bind fun (x, ctx) => each call key is ctx (Function.update off (key i) x)

/-- What is not in the list keeps its offset. -/
theorem each_other (hcode : each call key is ctx off = some (ctx1, off')) {k : κ}
    (hk : k ∉ is.map key) : off' k = off k := by
  induction is generalizing ctx off with
  | nil =>
    cases hcode
    rfl
  | cons i is ih =>
    rw [List.map_cons, List.mem_cons, not_or] at hk
    rw [each] at hcode
    obtain ⟨⟨x, ctx2⟩, -, hrest⟩ := Option.bind_eq_some_iff.mp hcode
    rw [ih hrest hk.2, Function.update_of_ne hk.1]

theorem alloc_each_eq (ok : κ → Bool) (es : List (κ × Nat)) (ctx : GpgpuCtx) (off : κ → Nat) :
    alloc_each ok es ctx off = each (fun e ctx => gpuMalloc ctx e.2 (ok e.1)) Prod.fst es ctx off := by
  induction es generalizing ctx off with
  | nil => rfl
  | cons e es ih =>
    rw [alloc_each, each]
    simp only [ih]

theorem load_each_eq (dev : Device) (io : InitIo) (ks : List Kernel) (ctx : GpgpuCtx)
    (kbin : Kernel → Nat) : load_each dev io ks ctx kbin =
      each (fun k ctx => load_kernel_bin (dev.binary k) ctx (io.read_ok k) (io.code_ok k)) id ks ctx
        kbin := by
  induction ks generalizing ctx kbin with
  | nil => rfl
  | cons k ks ih =>
    rw [load_each, each]
    simp only [ih, id]

theorem alloc_each_spec (h : Carries T ctx pool) (hnodup : (es.map Prod.fst).Nodup)
    (hcode : alloc_each ok es ctx off = some (ctx1, off'))
    (hall : ∀ e ∈ es, off' e.1 ≠ NO_OFFSET) :
    ∃ pool1, Grows T ctx pool (es.map fun e => (off' e.1, e.2)).reverse ctx1 pool1 := by
  induction es generalizing ctx pool off with
  | nil =>
    cases hcode
    exact ⟨pool, grows_refl h⟩
  | cons e es ih =>
    obtain ⟨he, hnodup⟩ := List.nodup_cons.mp hnodup
    rw [alloc_each] at hcode
    obtain ⟨⟨x, ctx2⟩, hmalloc, hrest⟩ := Option.bind_eq_some_iff.mp hcode
    have hx : off' e.1 = x := by
      rw [each_other ((alloc_each_eq ..).symm.trans hrest) he, Function.update_self]
    obtain ⟨pool2, hgrows⟩ := grows_malloc h hmalloc (hx ▸ hall e List.mem_cons_self)
    obtain ⟨pool1, hmore⟩ := ih hgrows.carries hnodup hrest fun f hf =>
      hall f (List.mem_cons_of_mem _ hf)
    have hboth := hgrows.trans hmore
    rw [← hx] at hboth
    exact ⟨pool1, by simpa using hboth⟩

end

/-! ## The kernels -/

/-- The binary lies at offset `x`. -/
def BinaryAt (ctx : GpgpuCtx) (x : Nat) (binary : List UInt8) : Prop :=
  ∀ i < binary.length, ctx.buddy.mem (ctx.vram_mmap + x + i) = binary.getD i 0

/-- A binary stays where it lies while its allocation is live. -/
theorem BinaryAt.grows {pool1 : Pool} {new : List (Nat × Nat)} {x : Nat} {binary : List UInt8}
    (hb : BinaryAt ctx x binary) (h : Carries T ctx pool) (hlive : (x, binary.length) ∈ pool.live)
    (hg : Grows T ctx pool new ctx1 pool1) : BinaryAt ctx1 x binary := by
  intro i hi
  have hspan := h.good.le_span hlive
  rw [hg.mapped, hg.keeps _ hlive _ ⟨by omega, by simp only at hspan ⊢; omega⟩]
  exact hb i hi

theorem load_kernel_bin_spec {binary : List UInt8} {read_ok malloc_ok : Bool} {x : Nat}
    (h : Carries T ctx pool) (hx : x ≠ NO_OFFSET)
    (hcode : load_kernel_bin binary ctx read_ok malloc_ok = some (x, ctx1)) :
    BinaryAt ctx1 x binary ∧ ∃ pool1, Grows T ctx pool [(x, binary.length)] ctx1 pool1 := by
  unfold load_kernel_bin at hcode
  split at hcode
  · cases hcode
    exact absurd rfl hx
  obtain ⟨⟨off, ctx2⟩, hmalloc, hrest⟩ := Option.bind_eq_some_iff.mp hcode
  simp only at hrest
  split at hrest
  · cases hrest
    exact absurd rfl hx
  next hoff =>
    obtain ⟨pool1, hgrows⟩ := grows_malloc h hmalloc hoff
    obtain ⟨hcopy, hwritten⟩ := hgrows.copy (x := off) (n := binary.length) List.mem_cons_self
      ⟨Nat.le_refl _, Nat.le_refl _⟩ (fun i => binary.getD i 0)
    simp only [hcopy, lt_self_iff_false, if_false, Option.some.injEq, Prod.mk.injEq] at hrest
    obtain ⟨rfl, rfl⟩ := hrest
    refine ⟨fun i hi => ?_, pool1, hwritten⟩
    have hbyte : copy ctx2.buddy.mem (ctx2.vram_mmap + off) (fun i => binary.getD i 0)
        binary.length (ctx2.vram_mmap + off + i) = binary.getD i 0 := copy_inside hi
    exact hbyte

section

variable {dev : Device} {io : InitIo} {ks : List Kernel} {kbin kbin' : Kernel → Nat}

theorem load_each_spec (h : Carries T ctx pool) (hnodup : ks.Nodup)
    (hcode : load_each dev io ks ctx kbin = some (ctx1, kbin'))
    (hall : ∀ k ∈ ks, kbin' k ≠ NO_OFFSET) :
    (∀ k ∈ ks, BinaryAt ctx1 (kbin' k) (dev.binary k)) ∧ ∃ pool1,
      Grows T ctx pool (ks.map fun k => (kbin' k, (dev.binary k).length)).reverse ctx1 pool1 := by
  induction ks generalizing ctx pool kbin with
  | nil =>
    cases hcode
    exact ⟨by simp, pool, grows_refl h⟩
  | cons k ks ih =>
    obtain ⟨hk, hnodup⟩ := List.nodup_cons.mp hnodup
    rw [load_each] at hcode
    obtain ⟨⟨x, ctx2⟩, hload, hrest⟩ := Option.bind_eq_some_iff.mp hcode
    obtain rfl : kbin' k = x := by
      rw [each_other ((load_each_eq ..).symm.trans hrest) (by rwa [List.map_id]),
        Function.update_self]
    obtain ⟨hbin, pool2, hgrows⟩ := load_kernel_bin_spec h (hall k List.mem_cons_self) hload
    obtain ⟨hbins, pool1, hmore⟩ := ih hgrows.carries hnodup hrest fun j hj =>
      hall j (List.mem_cons_of_mem _ hj)
    refine ⟨fun j hj => ?_, pool1, by simpa using hgrows.trans hmore⟩
    rcases List.mem_cons.mp hj with rfl | hj
    · exact hbin.grows hgrows.carries (by rw [hgrows.live]; exact List.mem_cons_self) hmore
    · exact hbins j hj

end

/-! ## `transformer_init` -/

section

variable {dev : Device} {host : Libm} {io : InitIo} {c : KvCache} {cfg : Config} {ws ws' : Workspace}

theorem init_fail_ne : init_fail ctx ws ≠ some (some ws', ctx1) := by
  unfold init_fail
  intro h
  obtain ⟨_, -, hr⟩ := Option.map_eq_some_iff.mp h
  cases hr

/-- The table and the zeros come to the workspace that is there. -/
theorem init_tables_same (hcode : init_tables host io ctx ws = some (some ws', ctx1)) : ws' = ws := by
  unfold init_tables at hcode
  obtain ⟨⟨err, table⟩, -, hrest⟩ := Option.bind_eq_some_iff.mp hcode
  simp only at hrest
  split at hrest
  · exact absurd hrest init_fail_ne
  split at hrest
  · exact absurd hrest init_fail_ne
  split at hrest <;> cases hrest <;> rfl

/-- What has gone well when there is a workspace. -/
structure Inited (dev : Device) (host : Libm) (io : InitIo) (cfg : Config) (ctx ctx1 ctx2 ctx3 : GpgpuCtx)
    (ws : Workspace) (ctx' : GpgpuCtx) : Prop where
  cfg_eq : ws.cfg = cfg
  scratch : alloc_each io.scratch_ok (scratch_sizes cfg) ctx (fun _ => NO_OFFSET) = some (ctx1, ws.off)
  scratch_ok : ∀ e ∈ scratch_sizes cfg, ws.off e.1 ≠ NO_OFFSET
  code : load_each dev io kernel_list ctx1 (fun _ => NO_OFFSET) = some (ctx2, ws.kbin)
  code_ok : ∀ k ∈ kernel_list, ws.kbin k ≠ NO_OFFSET
  args : alloc_each io.args_ok (kernel_list.map (·, 32)) ctx2 (fun _ => NO_OFFSET) =
    some (ctx3, ws.args)
  args_ok : ∀ k ∈ kernel_list, ws.args k ≠ NO_OFFSET
  tables : init_tables host io ctx3 ws = some (some ws, ctx')

theorem init_cases (hcode : transformer_init dev host io ctx c cfg = some (some ws, ctx1)) :
    ∃ a b d, Inited dev host io cfg ctx a b d ws ctx1 := by
  unfold transformer_init at hcode
  split at hcode
  · cases hcode
  split at hcode
  · cases hcode
  split at hcode
  · cases hcode
  split at hcode
  · cases hcode
  obtain ⟨⟨a, off⟩, hscratch, hcode⟩ := Option.bind_eq_some_iff.mp hcode
  simp only at hcode
  split at hcode
  · exact absurd hcode init_fail_ne
  next hoff =>
    obtain ⟨⟨b, kbin⟩, hload, hcode⟩ := Option.bind_eq_some_iff.mp hcode
    simp only at hcode
    split at hcode
    · exact absurd hcode init_fail_ne
    next hkbin =>
      obtain ⟨⟨d, args⟩, hargs, hcode⟩ := Option.bind_eq_some_iff.mp hcode
      simp only at hcode
      split at hcode
      · exact absurd hcode init_fail_ne
      next hargs_ok =>
        obtain rfl := init_tables_same hcode
        simp only [List.any_eq_true, decide_eq_true_eq, not_exists, not_and] at hoff hkbin hargs_ok
        exact ⟨a, b, d, rfl, hscratch, hoff, hload, hkbin, hargs, hargs_ok, hcode⟩

theorem sincos_table_length (theta : Word) (max_pos head_dim : Nat) :
    (sincos_table host theta max_pos head_dim).length = max_pos * head_dim := by
  simp [sincos_table]

theorem compute_sincos_table_ok {theta : Word} {max_pos head_dim : Nat} {calloc_ok : Bool}
    {table : List Word}
    (h : compute_sincos_table host theta max_pos head_dim calloc_ok = some (TRANSFORMER_OK, table)) :
    table = sincos_table host theta max_pos head_dim := by
  unfold compute_sincos_table at h
  split at h
  · cases h
  split at h
  · simp [TRANSFORMER_OK, TRANSFORMER_ERR_ALLOC] at h
  split at h
  · cases h
  simp only at h
  split at h
  · simp [TRANSFORMER_OK, TRANSFORMER_ERR_SINCOS] at h
  · cases h
    rfl

/-- The buffers that `init_tables` writes. -/
def tabled : List Buf := [.work .sincos, .work .RESID_A, .work .RESID_B]

end

end gpgpu.transformer
