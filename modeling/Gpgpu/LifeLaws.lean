-- The laws of the constructors. Each of them is a run of calls of the library: one that
-- fails leaves what was live before it, and the matching destroy gives back all that one
-- has taken.
import Gpgpu.InitLaws

open memory words runs

namespace gpgpu.context

open buddy weights

variable {T : Nat} {s s1 : State} {held : List (Nat × Nat)}

/-! ## What a run has taken -/

/-- A run leads from `s` to `s'`, and the code follows a pool to its end. -/
structure Leads (T : Nat) (s s' : State) : Prop where
  steps : ∃ calls, run step s calls = some s'
  stands : ∃ t, Follows T s' t

/-- The entries that there is an offset for. -/
def taken (held : List (Nat × Nat)) : List (Nat × Nat) := held.filter fun e => e.1 ≠ NO_OFFSET

/-- The run from `s` to `s'` has taken the entries `held`, and given back the rest. -/
structure Took (T : Nat) (s : State) (held : List (Nat × Nat)) (s' : State) : Prop where
  leads : Leads T s s'
  live : s'.live.Perm (taken held ++ s.live)

theorem leads_refl (h : ∃ t, Follows T s t) : Leads T s s := ⟨⟨[], rfl⟩, h⟩

theorem took_nil (h : Leads T s s1) (hlive : s1.live.Perm s.live) : Took T s [] s1 := ⟨h, hlive⟩

/-- Entries without an offset do not count. -/
theorem taken_none (h : ∀ e ∈ held, e.1 = NO_OFFSET) : taken held = [] :=
  List.filter_eq_nil_iff.mpr fun e he => by simpa using h e he

theorem taken_append (held more : List (Nat × Nat)) :
    taken (held ++ more) = taken held ++ taken more :=
  List.filter_append ..

theorem mem_taken {e : Nat × Nat} (he : e ∈ held) (hne : e.1 ≠ NO_OFFSET) : e ∈ taken held :=
  List.mem_filter.mpr ⟨he, by simpa using hne⟩

theorem Took.perm {held' : List (Nat × Nat)} (h : Took T s held s1) (hp : held.Perm held') :
    Took T s held' s1 :=
  ⟨h.leads, h.live.trans ((hp.filter _).append_right _)⟩

/-- Entries without an offset may be left out. -/
theorem Took.fill {more : List (Nat × Nat)} (h : Took T s held s1)
    (hmore : ∀ e ∈ more, e.1 = NO_OFFSET) : Took T s (held ++ more) s1 := by
  refine ⟨h.leads, ?_⟩
  rw [taken_append, taken_none hmore, List.append_nil]
  exact h.live

theorem Leads.event {s2 : State} {t : Pool × List Returned} {e : Event} (h : Leads T s s1)
    (hstep : step s1 e = some s2) (hf : Follows T s2 t) : Leads T s s2 := by
  obtain ⟨calls, hrun⟩ := h.steps
  refine ⟨⟨calls ++ [e], ?_⟩, t, hf⟩
  rw [run_append, hrun, Option.bind_some, run, hstep]
  rfl

/-! ## One call -/

theorem Took.malloc (h : Took T s held s1) (size : Nat) (malloc_ok : Bool) :
    ∃ x s2, gpuMalloc s1.ctx size malloc_ok = some (x, s2.ctx) ∧
      Took T s ((x, size) :: held) s2 := by
  obtain ⟨t, hf⟩ := h.leads.stands
  obtain ⟨s2, hstep, hf2⟩ := hf.malloc size malloc_ok
  have hleads := h.leads.event hstep hf2
  obtain ⟨⟨x, ctx⟩, hcode, heq⟩ := Option.bind_eq_some_iff.mp hstep
  cases heq
  refine ⟨x, _, hcode, hleads, ?_⟩
  by_cases hx : x = NO_OFFSET
  · simpa [taken, hx] using h.live
  · simpa [taken, hx] using h.live

theorem Took.write {e : Nat × Nat} {x n : Nat} (h : Took T s held s1) (he : e ∈ taken held)
    (hx : e.1 ≤ x ∧ x + n ≤ e.1 + e.2) (src : Nat → UInt8) :
    ∃ s2, gpuMemcpy s1.ctx x src n GPU_MEMCPY_H2D = (0, s2.ctx, src) ∧ Took T s held s2 := by
  obtain ⟨t, hf⟩ := h.leads.stands
  let bytes := (List.range n).map src
  have hlen : bytes.length = n := by simp [bytes]
  have hlive : e ∈ s1.live := h.live.mem_iff.mpr (List.mem_append_left _ he)
  have hallowed : allowed s1.live x bytes.length = true := by
    rw [hlen]
    exact List.any_eq_true.mpr ⟨e, hlive, by simpa using hx⟩
  obtain ⟨s2, hstep, hf2⟩ := hf.write x bytes
  have hleads := h.leads.event hstep hf2
  simp only [step, hallowed, if_true, Option.some.injEq] at hstep
  subst hstep
  refine ⟨_, ?_, hleads, h.live⟩
  -- The copy reads no byte beyond the `n` of the list.
  have hsame : ∀ m a, copy m a (fun k => bytes.getD k 0) n = copy m a src n := by
    intro m a
    funext y
    unfold copy
    split
    · have hlt : y - a < n := by omega
      simp [bytes, hlt]
    · rfl
  unfold gpuMemcpy
  rw [if_pos rfl, if_pos rfl, hlen, hsame]

theorem Leads.free {e : Nat × Nat} (h : Leads T s s1) (he : e ∈ s1.live) :
    ∃ s2, gpuFree s1.ctx e.1 = some (0, s2.ctx) ∧ step s1 (.free e.1) = some s2 ∧ Leads T s s2 ∧
      s2.live = s1.live.erase e ∧ s2.returned = .status 0 :: s1.returned := by
  obtain ⟨t, hf⟩ := h.stands
  have hmem : e ∈ t.1.live := hf.live ▸ he
  -- The offset belongs to no other allocation.
  have hfind : s1.live.find? (fun f => f.1 = e.1) = some e := by
    cases hfind : s1.live.find? (fun f => f.1 = e.1) with
    | none => exact absurd (List.find?_eq_none.mp hfind e he) (by simp)
    | some f =>
      have hf1 : f ∈ t.1.live := hf.live ▸ List.mem_of_find?_eq_some hfind
      have hoff : f.1 = e.1 := by simpa using List.find?_some hfind
      rw [eq_of_offset hf.carries.good.nodup hf1 hmem hoff]
  obtain ⟨s2, hstep, hf2⟩ := hf.free e.1
  obtain ⟨ctx', hcode, -, -, -⟩ := gpuFree_spec hf.carries hmem
  have hleads := h.event hstep hf2
  have hs2 : s2 = ⟨ctx', s1.live.erase e, .status 0 :: s1.returned⟩ := by
    simp only [step, hfind, hcode] at hstep
    cases hstep
    rfl
  subst hs2
  exact ⟨_, hcode, hstep, hleads, rfl, rfl⟩

/-! ## Giving back -/

/-- What a run has taken goes back, each entry by one call. -/
theorem free_all_spec {rest : List (Nat × Nat)} (h : Leads T s s1)
    (hlive : s1.live.Perm (taken held ++ rest)) :
    ∃ s2, free_all (held.map Prod.fst) s1.ctx = some s2.ctx ∧
      run step s1 ((taken held).map fun e => .free e.1) = some s2 ∧ Leads T s s2 ∧
      s2.live.Perm rest ∧
      s2.returned = List.replicate (taken held).length (.status 0) ++ s1.returned := by
  induction held generalizing s1 with
  | nil => exact ⟨s1, rfl, rfl, h, hlive, rfl⟩
  | cons e held ih =>
    rw [List.map_cons, free_all]
    by_cases he : e.1 = NO_OFFSET
    · have hskip : taken (e :: held) = taken held := by simp [taken, he]
      rw [hskip] at hlive ⊢
      rw [if_pos he]
      exact ih h hlive
    · have htake : taken (e :: held) = e :: taken held := by simp [taken, he]
      rw [htake] at hlive ⊢
      rw [if_neg he]
      obtain ⟨s2, hcode, hstep, hleads, herase, hret⟩ :=
        h.free (hlive.mem_iff.mpr List.mem_cons_self)
      have hlive2 : s2.live.Perm (taken held ++ rest) := by
        rw [herase]
        simpa using hlive.erase e
      obtain ⟨s3, hcode3, hrun3, hleads3, hlive3, hret3⟩ := ih hleads hlive2
      refine ⟨s3, ?_, ?_, hleads3, hlive3, ?_⟩
      · rw [hcode]
        exact hcode3
      · rw [List.map_cons, run, hstep]
        exact hrun3
      · rw [hret3, hret, List.length_cons, List.replicate_succ']
        simp

/-! ## What a constructor is held to -/

variable {α : Type} {aborts : Prop} {holds : α → List (Nat × Nat)}

/-- A constructor has failed and left what was live, or it has taken what its result
holds. It stops the program only in the case `aborts`. -/
def Settles (T : Nat) (s : State) (aborts : Prop) (holds : α → List (Nat × Nat)) :
    Option (Option α × GpgpuCtx) → Prop
  | none => aborts
  | some (none, ctx) => ∃ s', s'.ctx = ctx ∧ Leads T s s' ∧ s'.live.Perm s.live
  | some (some x, ctx) =>
    (∀ e ∈ holds x, e.1 ≠ NO_OFFSET) ∧ ∃ s', s'.ctx = ctx ∧ Took T s (holds x) s'

/-- A constructor that leaks nothing: when it fails, its calls of the library leave the
live allocations that they found; when it works, `destroy` frees what the calls have
allocated, each allocation by one call that finds it live, and nothing else. -/
structure LeakFree (s : State) (aborts : Prop) (made : Option (Option α × GpgpuCtx))
    (destroy : GpgpuCtx → α → Option GpgpuCtx) : Prop where
  returns : made = none → aborts
  fails : ∀ ctx', made = some (none, ctx') →
    ∃ calls s', run step s calls = some s' ∧ s'.ctx = ctx' ∧ s'.live.Perm s.live
  works : ∀ x ctx', made = some (some x, ctx') → ∃ calls s' own s'',
    run step s calls = some s' ∧ s'.ctx = ctx' ∧ s'.live.Perm (own ++ s.live) ∧
    run step s' (own.map fun e => .free e.1) = some s'' ∧ destroy ctx' x = some s''.ctx ∧
    s''.returned = List.replicate own.length (.status 0) ++ s'.returned ∧ s''.live.Perm s.live

theorem Settles.leakFree {made : Option (Option α × GpgpuCtx)}
    {destroy : GpgpuCtx → α → Option GpgpuCtx} (h : Settles T s aborts holds made)
    (hdestroy : ∀ x ctx, (∀ e ∈ holds x, e.1 ≠ NO_OFFSET) →
      destroy ctx x = free_all ((holds x).map Prod.fst) ctx) : LeakFree s aborts made destroy := by
  refine ⟨fun hmade => ?_, fun ctx' hmade => ?_, fun x ctx' hmade => ?_⟩ <;> subst hmade
  · exact h
  · obtain ⟨s', rfl, hleads, hlive⟩ := h
    obtain ⟨calls, hrun⟩ := hleads.steps
    exact ⟨calls, s', hrun, rfl, hlive⟩
  · obtain ⟨hall, s', rfl, htook⟩ := h
    obtain ⟨calls, hrun⟩ := htook.leads.steps
    obtain ⟨s'', hcode, hfrees, -, hlive, hret⟩ := free_all_spec htook.leads htook.live
    refine ⟨calls, s', _, s'', hrun, rfl, htook.live, hfrees, ?_, hret, hlive⟩
    rw [hdestroy x s'.ctx hall, hcode]

/-- A constructor returns, and the code still follows a pool. -/
theorem Settles.returns {made : Option (Option α × GpgpuCtx)} (h : Settles T s aborts holds made)
    (hno : ¬ aborts) : ∃ r s', made = some (r, s'.ctx) ∧ ∃ t, Follows T s' t := by
  match made with
  | none => exact absurd h hno
  | some (none, ctx) =>
    obtain ⟨s', rfl, hleads, -⟩ := h
    exact ⟨none, s', rfl, hleads.stands⟩
  | some (some x, ctx) =>
    obtain ⟨-, s', rfl, htook⟩ := h
    exact ⟨some x, s', rfl, htook.leads.stands⟩

/-- A constructor may fail before it has taken anything. -/
theorem settles_untouched (h : ∃ t, Follows T s t) :
    Settles T s aborts holds (some (none, s.ctx)) :=
  ⟨s, rfl, leads_refl h, List.Perm.refl _⟩

/-- What has been taken is given back on the way out. -/
theorem Took.give_back (h : Took T s held s1) : Settles T s aborts holds
    ((free_all (held.map Prod.fst) s1.ctx).map fun ctx => (none, ctx)) := by
  obtain ⟨s2, hcode, -, hleads, hlive, -⟩ := free_all_spec h.leads h.live
  rw [hcode]
  exact ⟨s2, rfl, hleads, hlive⟩

end gpgpu.context

/-! ## The loader -/

namespace gpgpu.weights

open buddy context

variable {T : Nat} {s s1 : context.State} {held : List (Nat × Nat)}

/-- The regions are taken one by one, and after the first that fails the rest is not
taken. -/
theorem alloc_regions_took (io : LoadIo) {rs : List Nat} (region_base : Nat → Nat)
    (h : Took T s held s1) (hnodup : rs.Nodup) (hfresh : ∀ r ∈ rs, region_base r = NO_OFFSET) :
    ∃ all s2 region_base',
      alloc_regions io rs s1.ctx region_base = some (all, s2.ctx, region_base') ∧
      Took T s (regions region_base' rs ++ held) s2 ∧
      (∀ r, r ∉ rs → region_base' r = region_base r) ∧
      (all = true → ∀ r ∈ rs, region_base' r ≠ NO_OFFSET) := by
  induction rs generalizing s1 held region_base with
  | nil => exact ⟨true, s1, region_base, rfl, h, fun _ _ => rfl, by simp⟩
  | cons r rs ih =>
    obtain ⟨hr, hnodup⟩ := List.nodup_cons.mp hnodup
    obtain ⟨base, s2, hcode, htook⟩ := h.malloc (plan_bytes r) (io.region_ok r)
    rw [alloc_regions, hcode, Option.bind_some]
    simp only
    by_cases hbase : base = NO_OFFSET
    · rw [if_pos hbase]
      have hnone : taken (regions region_base (r :: rs)) = [] := by
        apply taken_none
        intro e he
        obtain ⟨q, hq, rfl⟩ := List.mem_map.mp he
        exact hfresh q hq
      have hskip : taken ((base, plan_bytes r) :: held) = taken held := by simp [taken, hbase]
      refine ⟨false, s2, region_base, rfl, ⟨htook.leads, ?_⟩, fun _ _ => rfl, by simp⟩
      rw [taken_append, hnone, List.nil_append, ← hskip]
      exact htook.live
    · rw [if_neg hbase]
      have hrest : ∀ q ∈ rs, Function.update region_base r base q = NO_OFFSET := by
        intro q hq
        have hne : q ≠ r := fun heq => hr (heq ▸ hq)
        rw [Function.update_of_ne hne]
        exact hfresh q (List.mem_cons_of_mem _ hq)
      obtain ⟨all, s3, region_base', hcode3, htook3, hsame, hall⟩ := ih _ htook hnodup hrest
      have hhead : region_base' r = base := by rw [hsame r hr, Function.update_self]
      refine ⟨all, s3, region_base', hcode3, htook3.perm ?_, fun q hq => ?_, fun ht q hq => ?_⟩
      · rw [← hhead]
        exact List.perm_middle
      · rw [List.mem_cons, not_or] at hq
        rw [hsame q hq.2, Function.update_of_ne hq.1]
      · rcases List.mem_cons.mp hq with rfl | hq
        · rwa [hhead]
        · exact hall ht q hq

/-- The copies stay inside what has been taken, whether all go well or not. -/
theorem load_files_took (files : WeightFile → Option FileData) (io : LoadIo) {wl : WeightLoader}
    {fs : List WeightFile} (h : Took T s held s1) (hin : ∀ f ∈ fs, ∃ e ∈ taken held,
      e.1 ≤ wl.addr f ∧ wl.addr f + expected_bytes f ≤ e.1 + e.2) :
    ∃ s2, (load_files files io wl fs s1.ctx).2 = s2.ctx ∧ Took T s held s2 := by
  induction fs generalizing s1 with
  | nil => exact ⟨s1, rfl, h⟩
  | cons f fs ih =>
    have hone : ∃ s2, (load_file_to_vram s1.ctx (files f) (io.read_ok f) (wl.addr f)
        (expected_bytes f)).2 = s2.ctx ∧ Took T s held s2 := by
      unfold load_file_to_vram
      cases files f with
      | none => exact ⟨s1, rfl, h⟩
      | some file =>
        obtain ⟨e, he, hx⟩ := hin f List.mem_cons_self
        obtain ⟨s2, hcopy, htook⟩ := h.write he hx file.data
        cases io.read_ok f with
        | false => exact ⟨s1, rfl, h⟩
        | true =>
          simp only [hcopy]
          exact ⟨s2, rfl, htook⟩
    obtain ⟨s2, hctx, htook⟩ := hone
    rw [load_files]
    split
    · exact ⟨s2, hctx, htook⟩
    · rw [hctx]
      exact ih htook fun g hg => hin g (List.mem_cons_of_mem _ hg)

/-- When every region has been taken, every file lies inside one of them. -/
theorem addr_inside {region_base : Nat → Nat} {f : WeightFile}
    (h : Took T s (regions region_base (List.range 8)) s1)
    (hall : ∀ r ∈ List.range 8, region_base r ≠ NO_OFFSET) (hf : f ∈ weight_files) :
    ∃ e ∈ taken (regions region_base (List.range 8)), e.1 ≤ (address_book region_base).addr f ∧
      (address_book region_base).addr f + expected_bytes f ≤ e.1 + e.2 := by
  obtain ⟨t, hfollows⟩ := h.leads.stands
  have htaken : ∀ r < 8,
      (region_base r, plan_bytes r) ∈ taken (regions region_base (List.range 8)) := by
    intro r hr
    rw [← List.mem_range] at hr
    exact mem_taken (List.mem_map_of_mem hr) (hall r hr)
  have hfit : ∀ r < 8, region_base r + plan_bytes r < 2 ^ 64 := by
    intro r hr
    have hlive : (region_base r, plan_bytes r) ∈ t.1.live := by
      rw [← hfollows.live]
      exact h.live.mem_iff.mpr (List.mem_append_left _ (htaken r hr))
    have hspan := hfollows.carries.good.le_span hlive
    have hle := hfollows.carries.good.span_le hlive
    have hsmall := hfollows.carries.small
    simp only at hspan hle
    omega
  obtain ⟨hr, hin⟩ := place_fits hf
  refine ⟨_, htaken _ hr, ?_⟩
  rw [addr_eq hfit hf]
  simp only
  omega

theorem load_settles (h : ∃ t, Follows T s t) (files : WeightFile → Option FileData) (io : LoadIo) :
    Settles T s False (fun wl : WeightLoader => regions wl.region_base (List.range NUM_REGIONS))
      (weight_loader_load files io s.ctx) := by
  unfold weight_loader_load
  split
  · exact settles_untouched h
  split
  · exact settles_untouched h
  obtain ⟨all, s1, region_base, hcode, htook, -, hall⟩ := alloc_regions_took io
    (fun _ => NO_OFFSET) (took_nil (leads_refl h) (List.Perm.refl _))
    (List.nodup_range (n := NUM_REGIONS)) fun _ _ => rfl
  rw [List.append_nil] at htook
  rw [hcode, Option.bind_some]
  cases all with
  | false => exact htook.give_back
  | true =>
    -- Up to the way out, the regions are what has been taken.
    obtain ⟨s2, hctx, htook2⟩ := load_files_took files io htook fun f hf =>
      addr_inside htook (hall rfl) hf
    simp only [if_true]
    split
    · rw [hctx]
      exact htook2.give_back
    · refine ⟨fun e he => ?_, s2, hctx.symm, htook2⟩
      obtain ⟨r, hr, rfl⟩ := List.mem_map.mp he
      exact hall rfl r hr

end gpgpu.weights

/-! ## The cache -/

namespace gpgpu.kv

open buddy context weights

variable {T : Nat} {s : context.State}

/-- The two buffers of a cache. -/
def buffers (size : Nat) (c : KvCache) : List (Nat × Nat) :=
  [(c.K_dev_off, size), (c.V_dev_off, size)]

theorem create_settles (h : ∃ t, Follows T s t) (L H S D : Nat) (host_ok K_ok V_ok : Bool) :
    Settles T s False (buffers (total_bytes L H S D))
      (kv_cache_create s.ctx L H S D host_ok K_ok V_ok) := by
  unfold kv_cache_create
  generalize total_bytes L H S D = size
  split
  · exact settles_untouched h
  obtain ⟨K, s1, hK, htook1⟩ := (took_nil (leads_refl h) (List.Perm.refl s.live)).malloc size K_ok
  simp only [hK, Option.bind_some]
  split
  next hno => exact ⟨s1, rfl, htook1.leads, by simpa [taken, hno] using htook1.live⟩
  next hKne =>
    obtain ⟨V, s2, hV, htook2⟩ := htook1.malloc size V_ok
    simp only [hV, Option.bind_some]
    split
    next hno =>
      have hlive : s2.live.Perm ((K, size) :: s.live) := by
        simpa [taken, hno, hKne] using htook2.live
      obtain ⟨s3, hfree, -, hleads, herase, -⟩ :=
        htook2.leads.free (hlive.mem_iff.mpr List.mem_cons_self)
      rw [hfree]
      refine ⟨s3, rfl, hleads, ?_⟩
      rw [herase]
      simpa using hlive.erase (K, size)
    next hVne => exact ⟨by simp [buffers, hKne, hVne], s2, rfl, htook2.perm (List.Perm.swap ..)⟩

/-- The two calls of `kv_cache_destroy`, on a cache that has its buffers. -/
theorem destroy_eq {size : Nat} {c : KvCache} (hall : ∀ e ∈ buffers size c, e.1 ≠ NO_OFFSET)
    (ctx : GpgpuCtx) : kv_cache_destroy ctx c = free_all ((buffers size c).map Prod.fst) ctx := by
  have hK : c.K_dev_off ≠ NO_OFFSET := hall _ List.mem_cons_self
  have hV : c.V_dev_off ≠ NO_OFFSET := hall _ (List.mem_cons_of_mem _ List.mem_cons_self)
  unfold kv_cache_destroy
  simp only [buffers, List.map_cons, List.map_nil, free_all, if_neg hK, if_neg hV]
  cases gpuFree ctx c.K_dev_off with
  | none => rfl
  | some r =>
    simp only [Option.bind_eq_bind, Option.bind_some]
    cases gpuFree r.2 c.V_dev_off <;> rfl

end gpgpu.kv

/-! ## The workspace -/

namespace gpgpu.transformer

open buddy context kernels device kv weights

variable {T : Nat} {s s1 : context.State} {held : List (Nat × Nat)}

section

variable {ι κ : Type} [DecidableEq κ] {call : ι → GpgpuCtx → Option (Nat × GpgpuCtx)}
  {size : ι → Nat}

/-- When each call takes one entry or none, the loop has taken those that have an
offset. -/
theorem each_took (key : ι → κ) (hcall : ∀ i held s1, Took T s held s1 →
      ∃ x s2, call i s1.ctx = some (x, s2.ctx) ∧ Took T s ((x, size i) :: held) s2)
    {is : List ι} (hnodup : (is.map key).Nodup) (h : Took T s held s1) (off : κ → Nat) :
    ∃ off' s2, each call key is s1.ctx off = some (s2.ctx, off') ∧
      Took T s (held ++ is.map fun i => (off' (key i), size i)) s2 := by
  induction is generalizing s1 held off with
  | nil => exact ⟨off, s1, rfl, by simpa using h⟩
  | cons i is ih =>
    obtain ⟨hi, hnodup⟩ := List.nodup_cons.mp hnodup
    obtain ⟨x, s2, hcode, htook⟩ := hcall i held s1 h
    obtain ⟨off', s3, hrest, htook3⟩ := ih hnodup htook (Function.update off (key i) x)
    have hhead : off' (key i) = x := by rw [each_other hrest hi, Function.update_self]
    refine ⟨off', s3, by rw [each, hcode]; exact hrest, htook3.perm ?_⟩
    rw [← hhead]
    exact List.perm_middle.symm

end

theorem alloc_each_took {κ : Type} [DecidableEq κ] (ok : κ → Bool) {es : List (κ × Nat)}
    (hnodup : (es.map Prod.fst).Nodup) (h : Took T s held s1) (off : κ → Nat) :
    ∃ off' s2, alloc_each ok es s1.ctx off = some (s2.ctx, off') ∧
      Took T s (held ++ es.map fun e => (off' e.1, e.2)) s2 := by
  rw [alloc_each_eq]
  exact each_took Prod.fst (fun e _ _ h => h.malloc e.2 (ok e.1)) hnodup h off

theorem load_kernel_bin_took (binary : List UInt8) (read_ok malloc_ok : Bool)
    (h : Took T s held s1) :
    ∃ x s2, load_kernel_bin binary s1.ctx read_ok malloc_ok = some (x, s2.ctx) ∧
      Took T s ((x, binary.length) :: held) s2 := by
  have hnone : ∀ s2, Took T s held s2 → Took T s ((NO_OFFSET, binary.length) :: held) s2 :=
    fun s2 h2 => ⟨h2.leads, by simpa [taken] using h2.live⟩
  unfold load_kernel_bin
  split
  · exact ⟨NO_OFFSET, s1, rfl, hnone s1 h⟩
  obtain ⟨x, s2, hcode, htook⟩ := h.malloc binary.length malloc_ok
  rw [hcode, Option.bind_some]
  simp only
  by_cases hx : x = NO_OFFSET
  · subst hx
    rw [if_pos rfl]
    exact ⟨NO_OFFSET, s2, rfl, htook⟩
  · obtain ⟨s3, hcopy, htook3⟩ := htook.write (x := x) (n := binary.length)
      (mem_taken List.mem_cons_self hx) ⟨Nat.le_refl _, Nat.le_refl _⟩ (fun i => binary.getD i 0)
    rw [if_neg hx, hcopy]
    exact ⟨x, s3, rfl, htook3⟩

theorem load_each_took (dev : Device) (io : InitIo) {ks : List Kernel} (hnodup : ks.Nodup)
    (h : Took T s held s1) (kbin : Kernel → Nat) :
    ∃ kbin' s2, load_each dev io ks s1.ctx kbin = some (s2.ctx, kbin') ∧
      Took T s (held ++ ks.map fun k => (kbin' k, (dev.binary k).length)) s2 := by
  rw [load_each_eq]
  exact each_took id (fun k _ _ h => load_kernel_bin_took (dev.binary k) _ _ h)
    (by rwa [List.map_id]) h kbin

/-- What a workspace holds: a buffer for each entry, a binary and the arguments for each
kernel. -/
def holdings (dev : Device) (ws : Workspace) : List (Nat × Nat) :=
  (scratch_sizes ws.cfg).map (fun e => (ws.off e.1, e.2)) ++
  kernel_list.map (fun k => (ws.kbin k, (dev.binary k).length)) ++
  kernel_list.map fun k => (ws.args k, 32)

/-- No field is missing from the lists of `transformer_destroy`, and none stands there
twice. -/
theorem holdings_fst (dev : Device) (ws : Workspace) :
    (holdings dev ws).map Prod.fst = destroy_fields ws := rfl

theorem init_fail_settles {dev : Device} {ws : Workspace} {aborts : Prop}
    (h : Took T s (holdings dev ws) s1) :
    Settles T s aborts (holdings dev) (init_fail s1.ctx ws) := by
  unfold init_fail transformer_destroy
  rw [← holdings_fst dev ws]
  exact h.give_back

/-- The assertions of `compute_sincos_table`. -/
def SincosHolds (cfg : Config) : Prop :=
  0 < cfg.head_dim ∧ cfg.head_dim < 2 ^ 31 ∧ cfg.head_dim % 2 = 0 ∧ cfg.head_dim / 2 ≤ 64

theorem compute_sincos_table_returns (host : Libm) {cfg : Config} (h : SincosHolds cfg)
    (theta : Word) (max_pos : Nat) (calloc_ok : Bool) :
    ∃ r, compute_sincos_table host theta max_pos cfg.head_dim calloc_ok = some r := by
  obtain ⟨hpos, hint, heven, hpairs⟩ := h
  unfold compute_sincos_table
  rw [if_neg (not_not.mpr ⟨hpos, hint, heven⟩)]
  split
  · exact ⟨_, rfl⟩
  simp only
  split <;> exact ⟨_, rfl⟩

theorem init_tables_settles {dev : Device} {host : Libm} {io : InitIo} (ws : Workspace) {err : Int}
    {table : List Word} (h : Took T s (holdings dev ws) s1)
    (hall : ∀ e ∈ holdings dev ws, e.1 ≠ NO_OFFSET)
    (htable : compute_sincos_table host ws.cfg.rope_theta ws.cfg.max_seq ws.cfg.head_dim
      io.sincos_ok = some (err, table)) {aborts : Prop} :
    Settles T s aborts (holdings dev) (init_tables host io s1.ctx ws) := by
  -- A buffer of the workspace has room for a copy of its own size.
  have hcopy : ∀ x n s1, (x, n) ∈ scratch_sizes ws.cfg → Took T s (holdings dev ws) s1 →
      ∀ src, ∃ s2, gpuMemcpy s1.ctx (ws.off x) src n GPU_MEMCPY_H2D = (0, s2.ctx, src) ∧
        Took T s (holdings dev ws) s2 := by
    intro x n s1 hx h1 src
    have hmem : (ws.off x, n) ∈ holdings dev ws := by
      unfold holdings
      rw [List.append_assoc]
      exact List.mem_append_left _ (List.mem_map_of_mem (f := fun e => (ws.off e.1, e.2)) hx)
    exact h1.write (mem_taken hmem (hall _ hmem)) ⟨Nat.le_refl _, Nat.le_refl _⟩ src
  have hsincos : (.sincos, mul64 (mul64 ws.cfg.max_seq ws.cfg.head_dim) 4) ∈
      scratch_sizes ws.cfg := by simp [scratch_sizes]
  have hresid : ∀ x, x = .RESID_A ∨ x = .RESID_B →
      (x, mul64 (mul64 ws.cfg.S_max ws.cfg.D) 4) ∈ scratch_sizes ws.cfg := by
    rintro x (rfl | rfl) <;> simp [scratch_sizes]
  unfold init_tables
  rw [htable, Option.bind_some]
  simp only
  split
  · exact init_fail_settles h
  obtain ⟨s2, hcode2, htook2⟩ := hcopy _ _ s1 hsincos h (bytesOf table)
  simp only [hcode2, lt_self_iff_false, if_false]
  split
  · exact ⟨hall, s2, rfl, htook2⟩
  · obtain ⟨s3, hcode3, htook3⟩ := hcopy _ _ s2 (hresid .RESID_A (Or.inl rfl)) htook2 fun _ => 0
    obtain ⟨s4, hcode4, htook4⟩ := hcopy _ _ s3 (hresid .RESID_B (Or.inr rfl)) htook3 fun _ => 0
    simp only [hcode3, hcode4]
    exact ⟨hall, s4, rfl, htook4⟩

/-- Up to the assertions on the table, the code returns, and settles what it took. -/
theorem init_settles (h : ∃ t, Follows T s t) (dev : Device) (host : Libm) (io : InitIo)
    (c : KvCache) (cfg : Config) : Settles T s (¬ SincosHolds cfg) (holdings dev)
      (transformer_init dev host io s.ctx c cfg) := by
  unfold transformer_init
  split
  · exact settles_untouched h
  split
  · exact settles_untouched h
  split
  · exact settles_untouched h
  split
  · exact settles_untouched h
  have hkeys : ((scratch_sizes cfg).map Prod.fst).Nodup := by
    have hlist : (scratch_sizes cfg).map Prod.fst = [.RESID_A, .RESID_B, .SCRATCH_X, .SCRATCH_Q,
      .SCRATCH_K, .SCRATCH_V, .SCRATCH_SCORES, .SCRATCH_FFN_A, .SCRATCH_FFN_B, .LOGITS, .sincos,
      .token_id_buf, .argmax_debug] := rfl
    rw [hlist]
    decide
  have hnone : ∀ (f : Kernel → Nat), ∀ e ∈ kernel_list.map fun k => (NO_OFFSET, f k),
      e.1 = NO_OFFSET := by
    intro f e he
    obtain ⟨k, -, rfl⟩ := List.mem_map.mp he
    rfl
  obtain ⟨off, s1, hcode1, htook1⟩ := alloc_each_took io.scratch_ok hkeys
    (took_nil (leads_refl h) (List.Perm.refl _)) fun _ => NO_OFFSET
  rw [hcode1, Option.bind_some]
  simp only
  split
  · -- A buffer is missing: no kernel has an offset yet.
    exact init_fail_settles ((htook1.fill (hnone _)).fill (hnone _))
  next hoff =>
    have hnodup : kernel_list.Nodup := by decide
    obtain ⟨kbin, s2, hcode2, htook2⟩ := load_each_took dev io hnodup htook1 fun _ => NO_OFFSET
    rw [hcode2, Option.bind_some]
    simp only
    split
    · exact init_fail_settles (htook2.fill (hnone _))
    next hkbin =>
      have hkernels : ((kernel_list.map (·, 32)).map Prod.fst).Nodup := by decide
      obtain ⟨args, s3, hcode3, htook3⟩ := alloc_each_took io.args_ok hkernels htook2
        fun _ => NO_OFFSET
      rw [hcode3, Option.bind_some]
      simp only
      split
      · exact init_fail_settles htook3
      next hargs =>
        simp only [List.any_eq_true, decide_eq_true_eq, not_exists, not_and] at hoff hkbin hargs
        have hall : ∀ e ∈ holdings dev ⟨cfg, off, kbin, args⟩, e.1 ≠ NO_OFFSET := by
          intro e he
          simp only [holdings, List.mem_append, List.mem_map] at he
          rcases he with (⟨x, hx, rfl⟩ | ⟨k, hk, rfl⟩) | ⟨k, hk, rfl⟩
          · exact hoff x hx
          · exact hkbin k hk
          · exact hargs k hk
        cases htable : compute_sincos_table host cfg.rope_theta cfg.max_seq cfg.head_dim
            io.sincos_ok with
        | none =>
          unfold init_tables
          rw [htable]
          intro hassert
          obtain ⟨r, hr⟩ := compute_sincos_table_returns host hassert cfg.rope_theta
            cfg.max_seq io.sincos_ok
          rw [htable] at hr
          cases hr
        | some r => exact init_tables_settles ⟨cfg, off, kbin, args⟩ htook3 hall htable

end gpgpu.transformer

/-! ## The law -/

namespace gpgpu.context

open buddy kernels device kv weights transformer

/-- In every state that a run reaches, the three constructors leak nothing, whatever goes
wrong; only the assertions of `compute_sincos_table` can stop one of them. -/
theorem constructors_leak_nothing {ctx0 ctx : GpgpuCtx} {fd : Int} {base size : Nat}
    {malloc_ok : Slab → Bool} (hm : Mapped base size)
    (hinit : gpuInit ctx0 fd base malloc_ok size = some (0, ctx)) (events : List Event) :
    ∃ s, run step ⟨ctx, [], []⟩ events = some s ∧
      (∀ files io, LeakFree s False (weight_loader_load files io s.ctx) weight_loader_destroy) ∧
      (∀ L H S D host_ok K_ok V_ok,
        LeakFree s False (kv_cache_create s.ctx L H S D host_ok K_ok V_ok) kv_cache_destroy) ∧
      ∀ dev host io c cfg, LeakFree s (¬ SincosHolds cfg)
        (transformer_init dev host io s.ctx c cfg) transformer_destroy := by
  obtain ⟨t0, hrun⟩ := run_follows_pool hm hinit
  obtain ⟨s, hs, hf⟩ := hrun events
  refine ⟨s, hs, fun files io => ?_, fun L H S D host_ok K_ok V_ok => ?_,
    fun dev host io c cfg => ?_⟩
  · exact (load_settles ⟨_, hf⟩ files io).leakFree fun _ _ _ => rfl
  · exact (create_settles ⟨_, hf⟩ L H S D host_ok K_ok V_ok).leakFree fun c ctx hall =>
      kv.destroy_eq hall ctx
  · exact (init_settles ⟨_, hf⟩ dev host io c cfg).leakFree fun _ _ _ => rfl

/-- Sixteen pages with one allocation are too few for the weights, for the cache and for the
workspace of the default config, whose table passes the assertions. -/
theorem a_load_on_sixteen_pages_leaks_nothing : ∃ ctx s,
    gpuInit blankCtx 3 4096 (fun _ => true) 65536 = some (0, ctx) ∧
      run step ⟨ctx, [], []⟩ [.malloc 100 true] = some s ∧
      (∀ files io, LeakFree s False (weight_loader_load files io s.ctx) weight_loader_destroy) ∧
      (∀ host_ok K_ok V_ok, LeakFree s False
        (kv_cache_create s.ctx 24 2 128 64 host_ok K_ok V_ok) kv_cache_destroy) ∧
      SincosHolds transformer_default_config ∧
      ∀ dev host io c, LeakFree s (¬ SincosHolds transformer_default_config)
        (transformer_init dev host io s.ctx c transformer_default_config) transformer_destroy := by
  obtain ⟨ctx, hinit⟩ := blankCtx_inits
  obtain ⟨s, hs, hload, hcreate, hworkspace⟩ := constructors_leak_nothing ⟨by decide, by decide⟩ hinit
    [.malloc 100 true]
  have hsincos : SincosHolds transformer_default_config := by
    refine ⟨?_, ?_, ?_, ?_⟩ <;> decide
  exact ⟨ctx, s, hinit, hs, hload, hcreate 24 2 128 64, hsincos,
    fun dev host io c => hworkspace dev host io c transformer_default_config⟩

end gpgpu.context
