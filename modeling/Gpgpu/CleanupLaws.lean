-- The laws of the inference driver: `main` keeps the protocol of the cache, and whichever call
-- fails, it destroys what it has set up, so that nothing is live when it comes to `gpuDestroy`.
import Gpgpu.IdleLaws
import Gpgpu.InferLaws

open memory words buffers runs

namespace gpgpu.infer_tokens

open buddy context kernels device kv weights transformer desk

/-! ## What is live when `cleanup` begins -/

section

variable {env : Env} {ws : Workspace} {wl : WeightLoader} {c : KvCache} {lay : Layout Buf}
  {ctx : GpgpuCtx} {st : Run} {b : Buf}

/-- A buffer that the steps write is one that the workspace or the cache holds. -/
theorem Library.mine_held (hl : Library env ws wl c lay ctx) (hb : Mine b) :
    (lay.off b, lay.size b) ∈ holdings env.dev ws ++ buffers c.bytes c := by
  have hr := hl.room
  have hcache : CacheRoom lay c := hl.suited.cache (by rw [hl.cfg]; decide)
  rw [List.mem_append]
  rcases hb with hb | rfl | rfl
  · left
    unfold holdings
    rw [List.mem_append, List.mem_append]
    match b, hb with
    | .work s, _ =>
      have hs : (s, 4 * floats ws.cfg s) ∈ scratch_sizes ws.cfg := by
        rw [scratch_sizes_eq hl.suited.checked]
        exact List.mem_map_of_mem (by cases s <;> decide)
      rw [hr.work s, hl.work s]
      exact .inl (.inl (List.mem_map_of_mem (f := fun e => (ws.off e.1, e.2)) hs))
    | .args k, _ =>
      rw [(hr.args k).1, (hr.args k).2]
      exact .inr (List.mem_map_of_mem (f := fun k => (ws.args k, 32)) (by cases k <;> decide))
  · rw [hr.keys, hcache.keys]
    exact .inr List.mem_cons_self
  · rw [hr.vals, hcache.vals]
    exact .inr (List.mem_cons_of_mem _ List.mem_cons_self)

/-- After the loops the code still follows the pool, with the same allocations live. -/
theorem Unmoved.follows {T : Nat} {s : context.State} (hl : Library env ws wl c lay s.ctx)
    (hu : Unmoved lay c s.ctx st) (hf : ∃ t, Follows T s t)
    (hheld : ∀ e ∈ holdings env.dev ws ++ buffers c.bytes c, e ∈ s.live) :
    ∃ t, Follows T ⟨st.ctx, s.live, s.returned⟩ t := by
  obtain ⟨t, hf⟩ := hf
  refine ⟨t, ?_, hf.calm, hf.live, hf.returned⟩
  show Carries T st.ctx t.1
  rw [hu.context]
  apply hf.carries.setMem
  intro y hy
  apply hu.mem
  intro b hb hin
  have hlive : (lay.off b, lay.size b) ∈ t.1.live := hf.live ▸ hheld _ (hl.mine_held hb)
  have hspan := hf.carries.good.le_span hlive
  refine hy _ hlive ?_
  unfold Layout.In at hin
  unfold InSpan
  rw [← hf.carries.mapped, hl.mapped]
  simp only at hspan ⊢
  omega

end

/-! ## The way out -/

section

variable {T : Nat} {s : context.State} {wl : WeightLoader} {c kv : KvCache} {ws : Workspace}
  {dev : Device} {held rest : List (Nat × Nat)}

/-- The regions of a loader. -/
def loaderHolds (wl : WeightLoader) : List (Nat × Nat) := regions wl.region_base (List.range NUM_REGIONS)

theorem taken_all (h : ∀ e ∈ held, e.1 ≠ NO_OFFSET) : taken held = held :=
  List.filter_eq_self.mpr fun e he => by simpa using h e he

/-- The entries of one owner go back, and the rest stays live. -/
theorem free_all_leaves (h : ∃ t, Follows T s t) (hall : ∀ e ∈ held, e.1 ≠ NO_OFFSET)
    (hlive : s.live.Perm (held ++ rest)) :
    ∃ s', free_all (held.map Prod.fst) s.ctx = some s'.ctx ∧ (∃ t, Follows T s' t) ∧
      s'.live.Perm rest := by
  rw [← taken_all hall] at hlive
  obtain ⟨s', hcode, -, hleads, hlive', -⟩ := free_all_spec (leads_refl h) hlive
  exact ⟨s', hcode, hleads.stands, hlive'⟩

theorem loader_leaves (h : ∃ t, Follows T s t) (hall : ∀ e ∈ loaderHolds wl, e.1 ≠ NO_OFFSET)
    (hlive : s.live.Perm (loaderHolds wl ++ rest)) :
    ∃ s', weight_loader_destroy s.ctx wl = some s'.ctx ∧ (∃ t, Follows T s' t) ∧ s'.live.Perm rest := by
  obtain ⟨s', hcode, hleft⟩ := free_all_leaves h hall hlive
  refine ⟨s', ?_, hleft⟩
  rw [← hcode]
  rfl

theorem cache_leaves {size : Nat} (h : ∃ t, Follows T s t) (hall : ∀ e ∈ buffers size c, e.1 ≠ NO_OFFSET)
    (hlive : s.live.Perm (buffers size c ++ rest)) :
    ∃ s', kv_cache_destroy s.ctx c = some s'.ctx ∧ (∃ t, Follows T s' t) ∧ s'.live.Perm rest := by
  obtain ⟨s', hcode, hleft⟩ := free_all_leaves h hall hlive
  exact ⟨s', (kv.destroy_eq hall s.ctx).trans hcode, hleft⟩

theorem workspace_leaves (h : ∃ t, Follows T s t) (hall : ∀ e ∈ holdings dev ws, e.1 ≠ NO_OFFSET)
    (hlive : s.live.Perm (holdings dev ws ++ rest)) :
    ∃ s', transformer_destroy s.ctx ws = some s'.ctx ∧ (∃ t, Follows T s' t) ∧ s'.live.Perm rest := by
  obtain ⟨s', hcode, hleft⟩ := free_all_leaves h hall hlive
  rw [holdings_fst dev ws] at hcode
  exact ⟨s', hcode, hleft⟩

/-- `cleanup` gives back what the three owners hold. The cache counts its tokens, but its
buffers are the ones that it was made with. -/
theorem cleanup_leaves {size : Nat} (h : ∃ t, Follows T s t) (hplace : kv.place = c.place)
    (hwl : ∀ e ∈ loaderHolds wl, e.1 ≠ NO_OFFSET) (hc : ∀ e ∈ buffers size c, e.1 ≠ NO_OFFSET)
    (hws : ∀ e ∈ holdings dev ws, e.1 ≠ NO_OFFSET)
    (hlive : s.live.Perm (holdings dev ws ++ (buffers size c ++ (loaderHolds wl ++ rest)))) :
    ∃ s', cleanup ws kv wl s.ctx = some s'.ctx ∧ (∃ t, Follows T s' t) ∧ s'.live.Perm rest := by
  have hK : kv.place.K_dev_off = c.place.K_dev_off := congrArg KvCache.K_dev_off hplace
  have hV : kv.place.V_dev_off = c.place.V_dev_off := congrArg KvCache.V_dev_off hplace
  have hsame : buffers size kv = buffers size c := by
    unfold buffers
    rw [show kv.K_dev_off = c.K_dev_off from hK, show kv.V_dev_off = c.V_dev_off from hV]
  rw [← hsame] at hc hlive
  obtain ⟨s1, hcode1, hf1, hlive1⟩ := workspace_leaves h hws hlive
  obtain ⟨s2, hcode2, hf2, hlive2⟩ := cache_leaves hf1 hc hlive1
  obtain ⟨s3, hcode3, hleft⟩ := loader_leaves hf2 hwl hlive2
  refine ⟨s3, ?_, hleft⟩
  rw [cleanup, hcode1, Option.bind_some, hcode2, Option.bind_some, hcode3]

/-- A constructor has failed, or it has taken what its result holds. -/
theorem settles_splits {α : Type} {aborts : Prop} {holds : α → List (Nat × Nat)}
    {made : Option (Option α × GpgpuCtx)} (h : Settles T s aborts holds made) (hno : ¬ aborts) :
    (∃ s', made = some (none, s'.ctx) ∧ (∃ t, Follows T s' t) ∧ s'.live.Perm s.live) ∨
    ∃ x s', made = some (some x, s'.ctx) ∧ (∀ e ∈ holds x, e.1 ≠ NO_OFFSET) ∧ (∃ t, Follows T s' t) ∧
      s'.live.Perm (holds x ++ s.live) := by
  match made with
  | none => exact absurd h hno
  | some (none, ctx) =>
    obtain ⟨s', rfl, hleads, hlive⟩ := h
    exact .inl ⟨s', rfl, hleads.stands, hlive⟩
  | some (some x, ctx) =>
    obtain ⟨hall, s', rfl, htook⟩ := h
    refine .inr ⟨x, s', rfl, hall, htook.leads.stands, ?_⟩
    have hlive := htook.live
    rwa [taken_all hall] at hlive

/-- Each cache has one page, and all others are on the free lists. -/
def GivenBack (size : Nat) (ctx : GpgpuCtx) : Prop :=
  (∀ i, (ctx.slabs i).pages.length = 1) ∧ freePages ctx.buddy + 6 = size / PAGE_SIZE

theorem given_back {size : Nat} (h : ∃ t, Follows (size / PAGE_SIZE * PAGE_SIZE) s t)
    (hlive : s.live.Perm []) : GivenBack size s.ctx := by
  obtain ⟨t, hf⟩ := h
  have hnil : t.1.live = [] := hf.live ▸ hlive.eq_nil
  refine ⟨fun i => ?_, ?_⟩
  · obtain ⟨p, hp⟩ := hf.carries.good.idle_pages hf.calm hnil i
    rw [hf.carries.pages_eq, slab.Cache.metas, hp]
    rfl
  · exact Nat.eq_of_mul_eq_mul_right (by decide : 0 < PAGE_SIZE)
      (hf.carries.idle_freePages hf.calm hnil)

end

/-! ## `main` -/

section

variable {dev : Device} {host : Libm} {files : WeightFile → Option FileData} {io : MainIo}
  {ok : Nat → Bool}

/-- What `main` returns, whatever fails in it: its calls are in order, and the context has
everything back. -/
structure Tidy (max_new : Nat) (out : Finished) (last : GpgpuCtx) : Prop
    extends Orderly max_new out where
  back : GivenBack VRAM_SIZE last

theorem quit_orderly (max_new : Nat) (ret : Int) : Orderly max_new (quit ret) :=
  ⟨by simp [quit], Nat.zero_le _⟩

/-- The part of `main` after its checks, whatever fails in it. -/
theorem set_up_and_infer_spec (heard : Nat → Int → Int) {prompt : List Int} {max_new : Nat}
    (eos_token : Int) {ctx : GpgpuCtx} (hm : Mapped io.vram_mmap VRAM_SIZE)
    (hgpu : gpuInit io.ctx io.fd io.vram_mmap io.slab_ok VRAM_SIZE = some (0, ctx))
    (hmax : 0 < max_new) (hlen : prompt.length + max_new ≤ 129) :
    ∃ out last, set_up_and_infer dev host files io ok heard prompt max_new eos_token ctx =
      some (out, last) ∧ Tidy max_new out last := by
  obtain ⟨t0, hrun⟩ := run_follows_pool hm hgpu
  obtain ⟨s0, hs0, hf0⟩ := hrun []
  obtain rfl : s0 = ⟨ctx, [], []⟩ := (Option.some.inj hs0).symm
  have hquit := quit_orderly max_new 1
  unfold set_up_and_infer
  simp only
  rcases settles_splits (load_settles ⟨_, hf0⟩ files io.load) id with
    ⟨s1, hload, hf1, hlive1⟩ | ⟨wl, s1, hload, hwl, hf1, hlive1⟩
  · simp only at hload
    rw [hload]
    exact ⟨_, _, rfl, hquit, given_back hf1 hlive1⟩
  simp only at hload
  rw [hload, Option.bind_some]
  simp only
  rcases settles_splits (create_settles hf1 24 2 128 64 io.host_ok io.K_ok io.V_ok) id with
    ⟨s2, hcreate, hf2, hlive2⟩ | ⟨c, s2, hcreate, hc, hf2, hlive2⟩
  · have hcreate' : kv_cache_create s1.ctx transformer_default_config.num_layers
      transformer_default_config.num_kv_heads transformer_default_config.max_seq
      transformer_default_config.head_dim io.host_ok io.K_ok io.V_ok = some (none, s2.ctx) := hcreate
    rw [hcreate']
    obtain ⟨s3, hdestroy, hf3, hlive3⟩ := loader_leaves hf2 hwl (hlive2.trans hlive1)
    simp only [Option.bind_some, hdestroy]
    exact ⟨_, _, rfl, hquit, given_back hf3 hlive3⟩
  have hcreate' : kv_cache_create s1.ctx transformer_default_config.num_layers
    transformer_default_config.num_kv_heads transformer_default_config.max_seq
    transformer_default_config.head_dim io.host_ok io.K_ok io.V_ok = some (some c, s2.ctx) := hcreate
  have hlive2' := hlive2.trans (hlive1.append_left _)
  rw [hcreate', Option.bind_some]
  simp only
  have hsincos : SincosHolds transformer_default_config := by
    refine ⟨?_, ?_, ?_, ?_⟩ <;> decide
  rcases settles_splits (init_settles hf2 dev host io.init c transformer_default_config)
    (not_not.mpr hsincos) with
    ⟨s3, hinit, hf3, hlive3⟩ | ⟨ws, s3, hinit, hws, hf3, hlive3⟩
  · rw [hinit, Option.bind_some]
    simp only
    obtain ⟨s4, hdestroy4, hf4, hlive4⟩ := cache_leaves hf3 hc (hlive3.trans hlive2')
    obtain ⟨s5, hdestroy5, hf5, hlive5⟩ := loader_leaves hf4 hwl hlive4
    rw [hdestroy4, Option.bind_some, hdestroy5]
    exact ⟨_, _, rfl, hquit, given_back hf5 hlive5⟩
  have hlive3' := hlive3.trans (hlive2'.append_left _)
  rw [hinit, Option.bind_some]
  simp only
  split
  · obtain ⟨s4, hclean, hf4, hlive4⟩ := cleanup_leaves hf3 rfl hwl hc hws hlive3'
    rw [hclean]
    exact ⟨_, _, rfl, hquit, given_back hf4 hlive4⟩
  have hnone : run context.step ⟨ctx, [], []⟩ [] = some ⟨ctx, [], []⟩ := rfl
  have hstarted : Provided files ctx none none := .start hm hgpu hnone
  have hloaded : Provided files s1.ctx (some wl) none := .load hstarted hload
  have hprep : Prepared files s2.ctx (some wl) (some c) := hloaded.prepared hcreate
  obtain ⟨lay, hl, hstart⟩ := library_of_init (show Env from ⟨dev, host, ok⟩) hprep hinit
  obtain ⟨out, s4, hcode, hu, horderly⟩ := infer_keeps heard hl io.write_ok eos_token hmax hlen hstart
  have hbytes : c.bytes = total_bytes 24 2 128 64 := by
    rw [hprep.fresh c rfl, default_bytes]
    decide
  have hheld : ∀ e ∈ holdings dev ws ++ buffers c.bytes c, e ∈ s3.live := by
    intro e he
    rw [hlive3'.mem_iff, ← List.append_assoc, List.mem_append]
    rw [hbytes] at he
    exact .inl he
  obtain ⟨s5, hclean, hf5, hlive5⟩ := cleanup_leaves (Unmoved.follows hl hu hf3 hheld) hu.place hwl hc
    hws hlive3'
  rw [hcode, Option.bind_some]
  simp only at hclean ⊢
  rw [hclean]
  exact ⟨out, s5.ctx, rfl, horderly, given_back hf5 hlive5⟩

/-- Where `main` ends, and what it leaves to `gpuDestroy`: it takes no step without coming to
`gpuDestroy`, and what comes there has nothing live. -/
def Closed (out : Finished) (last : Option GpgpuCtx) : Prop :=
  (last = none → out.calls = []) ∧ ∀ ctx ∈ last, GivenBack VRAM_SIZE ctx

theorem closed_early (ret : Int) : Closed (quit ret) none := ⟨fun _ => rfl, by simp⟩

theorem closed_with {out : Finished} {ctx : GpgpuCtx} (h : GivenBack VRAM_SIZE ctx) :
    Closed out (some ctx) := ⟨by simp, by simpa using h⟩

/-- `gpuInit` returns, also when `mmap` has failed, and it goes well only with a mapping. -/
theorem main_init (io : MainIo) (hm : io.vram_mmap ≠ MAP_FAILED → Mapped io.vram_mmap VRAM_SIZE) :
    ∃ ret ctx, gpuInit io.ctx io.fd io.vram_mmap io.slab_ok VRAM_SIZE = some (ret, ctx) ∧
      (ret < 0 ∨ ret = 0 ∧ Mapped io.vram_mmap VRAM_SIZE) := by
  by_cases hmap : io.vram_mmap = MAP_FAILED
  · unfold gpuInit
    rw [if_pos hmap]
    split
    · exact ⟨_, _, rfl, .inl (by decide)⟩
    · exact ⟨_, _, rfl, .inl (by decide)⟩
  · obtain ⟨ret, ctx, hgpu, hret⟩ := gpuInit_returns io.ctx io.fd io.slab_ok (hm hmap) (by decide)
    refine ⟨ret, ctx, hgpu, ?_⟩
    by_cases hneg : ret < 0
    · exact .inl hneg
    · exact .inr ⟨by omega, hm hmap⟩

theorem main_run_spec (dev : Device) (host : Libm) (files : WeightFile → Option FileData)
    (io : MainIo) (hm : io.vram_mmap ≠ MAP_FAILED → Mapped io.vram_mmap VRAM_SIZE)
    (ok : Nat → Bool) (heard : Nat → Int → Int) (values : Option (List Int64)) (max_new_long : Int64)
    (eos : Option Int64) :
    ∃ out last, main_run dev host files io ok heard values max_new_long eos = some (out, last) ∧
      Orderly max_new_long.toInt.toNat out ∧ Closed out last := by
  have hlong : max_new_long.toInt < 2 ^ 63 := Int64.toInt_lt ..
  have hquit := quit_orderly max_new_long.toInt.toNat
  unfold main_run
  simp only
  split
  · exact ⟨_, _, rfl, hquit _, closed_early _⟩
  split
  · exact ⟨_, _, rfl, hquit _, closed_early _⟩
  split
  · exact ⟨_, _, rfl, hquit _, closed_early _⟩
  next prompt hread =>
  split
  · exact ⟨_, _, rfl, hquit _, closed_early _⟩
  obtain ⟨ret, ctx, hgpu, hret⟩ := main_init io hm
  rw [hgpu, Option.bind_some]
  simp only
  split
  · exact ⟨_, _, rfl, hquit _, closed_early _⟩
  next hneg =>
  obtain ⟨rfl, hmapped⟩ := hret.resolve_left hneg
  -- Up to here nothing has been taken.
  obtain ⟨t0, hrun⟩ := run_follows_pool hmapped hgpu
  obtain ⟨s0, hs0, hf0⟩ := hrun []
  obtain rfl : s0 = ⟨ctx, [], []⟩ := (Option.some.inj hs0).symm
  have hfresh : GivenBack VRAM_SIZE ctx := given_back ⟨_, hf0⟩ (List.Perm.refl [])
  split
  · exact ⟨_, _, rfl, hquit _, closed_with hfresh⟩
  next hroom =>
  split
  · exact ⟨_, _, rfl, hquit _, closed_with hfresh⟩
  -- The sum is not cut to 64 bits, since the prompt alone is short.
  have hsum : prompt.length + max_new_long.toInt.toNat ≤ 129 := by
    have hmax_seq : transformer_default_config.max_seq = 128 := rfl
    unfold sub64 add64 at hroom
    omega
  obtain ⟨out, last, hcode, htidy⟩ := set_up_and_infer_spec heard
    ((eos.map Int64.toInt).getD (-1)) hmapped hgpu (by omega) hsum
  rw [hcode]
  exact ⟨out, some last, rfl, htidy.toOrderly, closed_with htidy.back⟩

/-- For every prompt, every number of new tokens and every end token, whatever the device
answers and whichever calls fail, `main` comes to its end without a failed assertion or a
write behind an array, and keeps the protocol of the cache. -/
theorem the_driver_keeps_the_protocol (dev : Device) (host : Libm)
    (files : WeightFile → Option FileData) (io : MainIo)
    (hm : io.vram_mmap ≠ MAP_FAILED → Mapped io.vram_mmap VRAM_SIZE)
    (ok : Nat → Bool) (heard : Nat → Int → Int) (values : Option (List Int64)) (max_new_long : Int64)
    (eos : Option Int64) :
    ∃ out, main dev host files io ok heard values max_new_long eos = some out ∧
      Orderly max_new_long.toInt.toNat out := by
  obtain ⟨out, last, hcode, horderly, -⟩ := main_run_spec dev host files io hm ok heard values
    max_new_long eos
  exact ⟨out, congrArg (Option.map Prod.fst) hcode, horderly⟩

/-- A host and a device with 4 GiB on which every call goes well. -/
def goodIo : MainIo where
  ctx := blankCtx
  calloc_ok := true
  fd := 3
  vram_mmap := 4096
  slab_ok := fun _ => true
  load := goodLoad
  host_ok := true
  K_ok := true
  V_ok := true
  init := goodInit
  generated_ok := true
  write_ok := true

/-- Two tokens of prompt and 127 new ones fill the cache. -/
theorem a_full_cache_keeps_the_protocol :
    ∃ out, main wordDevice wordHost zeroFiles goodIo (fun _ => true) (fun _ r => r) (some [7, 0]) 127
        none = some out ∧ Orderly (127 : Int64).toInt.toNat out :=
  the_driver_keeps_the_protocol wordDevice wordHost zeroFiles goodIo
    (fun _ => ⟨by decide, by decide⟩) (fun _ => true) (fun _ r => r) (some [7, 0]) 127 none

/-- For every prompt, every number of new tokens and every end token, whatever the device
answers and whichever calls fail, `main` gives back all that it has taken from the device. -/
theorem the_driver_gives_everything_back (dev : Device) (host : Libm)
    (files : WeightFile → Option FileData) (io : MainIo)
    (hm : io.vram_mmap ≠ MAP_FAILED → Mapped io.vram_mmap VRAM_SIZE)
    (ok : Nat → Bool) (heard : Nat → Int → Int) (values : Option (List Int64)) (max_new_long : Int64)
    (eos : Option Int64) :
    ∃ out last, main_run dev host files io ok heard values max_new_long eos = some (out, last) ∧
      main dev host files io ok heard values max_new_long eos = some out ∧ Closed out last := by
  obtain ⟨out, last, hcode, -, hclosed⟩ := main_run_spec dev host files io hm ok heard values
    max_new_long eos
  exact ⟨out, last, hcode, congrArg (Option.map Prod.fst) hcode, hclosed⟩

/-- One of the calls that the steps make is refused. -/
theorem a_failed_run_gives_everything_back :
    ∃ out last, main_run wordDevice wordHost zeroFiles goodIo (fun n => n ≠ 700) (fun _ r => r)
        (some [7, 0]) 5 none = some (out, last) ∧
      main wordDevice wordHost zeroFiles goodIo (fun n => n ≠ 700) (fun _ r => r) (some [7, 0]) 5 none =
        some out ∧ Closed out last :=
  the_driver_gives_everything_back wordDevice wordHost zeroFiles goodIo
    (fun _ => ⟨by decide, by decide⟩) (fun n => n ≠ 700) (fun _ r => r) (some [7, 0]) 5 none

end

end gpgpu.infer_tokens
