-- The device memory as a store of objects. A program that knows its buffers by names, and not
-- by their offsets, finds in each of them what it wrote there last, though the free lists of
-- the allocators lie in the same memory.
import Gpgpu.Lib.Objects
import Gpgpu.PoolLaws

open memory objects

namespace gpgpu.context

open buddy slab

/-! ## A program that names its buffers -/

section

variable {κ : Type} [DecidableEq κ]

/-- The context, and the offset and the size of each buffer. -/
structure Client (κ : Type) where
  ctx : GpgpuCtx
  table : κ → Option (Nat × Nat)

/-- One request, as calls of the library. The program frees only what it holds, and stays in
what it asked for; the flag says if the host has memory for a new record. -/
def Client.serve (c : Client κ) : Request κ UInt8 × Bool → Option (Answer UInt8 × Client κ)
  | (.make k n, malloc_ok) =>
    match c.table k with
    | some _ => some (.refused, c)
    | none => (gpuMalloc c.ctx n malloc_ok).map fun r =>
      if r.1 = NO_OFFSET then (.refused, { c with ctx := r.2 })
      else (.done, ⟨r.2, Function.update c.table k (some (r.1, n))⟩)
  | (.drop k, _) =>
    match c.table k with
    | none => some (.refused, c)
    | some e => (gpuFree c.ctx e.1).map fun r => (.done, ⟨r.2, Function.update c.table k none⟩)
  | (.put k i xs, _) =>
    match c.table k with
    | none => some (.refused, c)
    | some e =>
      if i + xs.length ≤ e.2 then
        let r := gpuMemcpy c.ctx (add64 e.1 i) (fun j => xs.getD j 0) xs.length GPU_MEMCPY_H2D
        some (.done, { c with ctx := r.2.1 })
      else some (.refused, c)
  | (.get k i n, _) =>
    match c.table k with
    | none => some (.refused, c)
    | some e =>
      if i + n ≤ e.2 then
        let r := gpuMemcpy c.ctx (add64 e.1 i) (fun _ => 0) n GPU_MEMCPY_D2H
        some (.data ((List.range n).map r.2.2), c)
      else some (.refused, c)

/-! ## What the memory shows of a store -/

variable {T : Nat} {ctx ctx' : GpgpuCtx} {pool pool' : Pool} {c : Client κ} {σ : Store κ UInt8}
  {e f : Nat × Nat} {k : κ} {o : Object UInt8}

/-- The bytes behind the entry are those that are known of the object. -/
structure ShowsObject (ctx : GpgpuCtx) (e : Nat × Nat) (o : Object UInt8) : Prop where
  size : o.size = e.2
  bytes : ∀ j < e.2, ∀ x, o.known j = some x → ctx.buddy.mem (ctx.vram_mmap + e.1 + j) = x

/-- The entries of the table are live, each under one name, and show the objects. -/
structure ShowsStore (pool : Pool) (c : Client κ) (σ : Store κ UInt8) : Prop where
  live : ∀ k e, c.table k = some e → e ∈ pool.live
  once : ∀ k k' e, c.table k = some e → c.table k' = some e → k = k'
  free : ∀ k, c.table k = none → σ k = none
  object : ∀ k e, c.table k = some e → ∃ o, σ k = some o ∧ ShowsObject c.ctx e o

/-- Bytes that stay as they are show the same object. -/
theorem ShowsObject.congr (h : ShowsObject ctx e o) (hbase : ctx'.vram_mmap = ctx.vram_mmap)
    (hsame : ∀ j < e.2, ctx'.buddy.mem (ctx.vram_mmap + e.1 + j) =
      ctx.buddy.mem (ctx.vram_mmap + e.1 + j)) : ShowsObject ctx' e o := by
  refine ⟨h.size, fun j hj x hx => ?_⟩
  rw [hbase, hsame j hj]
  exact h.bytes j hj x hx

/-- A byte of a live entry is in its span. -/
theorem Carries.inSpan {j : Nat} (h : Carries T ctx pool) (he : e ∈ pool.live) (hj : j < e.2) :
    InSpan ctx.buddy.vram_base e (ctx.vram_mmap + e.1 + j) := by
  have hspan := h.good.le_span he
  rw [h.mapped]
  exact ⟨by omega, by omega⟩

/-- The address of a byte of a live entry. -/
theorem Carries.addr {i : Nat} (h : Carries T ctx pool) (he : e ∈ pool.live) (hi : i ≤ e.2) :
    add64 ctx.vram_mmap (add64 e.1 i) = ctx.vram_mmap + e.1 + i := by
  have hspan := h.good.le_span he
  have hle := h.good.span_le he
  have hend := h.ends
  have hin : add64 e.1 i = e.1 + i := add64_eq (by omega)
  rw [h.mapped, hin, add64_eq (by omega), Nat.add_assoc]

/-! ## The four requests -/

/-- The memory shows the store, for some pool. -/
def Serves (T : Nat) (c : Client κ) (σ : Store κ UInt8) : Prop :=
  ∃ pool, Carries T c.ctx pool ∧ ShowsStore pool c σ

omit [DecidableEq κ] in
/-- Another context, in which the live bytes are as they were. -/
theorem ShowsStore.move (h : ShowsStore pool c σ) (hbase : ctx'.vram_mmap = c.ctx.vram_mmap)
    (hlive : ∀ k e, c.table k = some e → e ∈ pool'.live)
    (hsame : ∀ k e, c.table k = some e → ∀ j < e.2,
      ctx'.buddy.mem (c.ctx.vram_mmap + e.1 + j) = c.ctx.buddy.mem (c.ctx.vram_mmap + e.1 + j)) :
    ShowsStore pool' { c with ctx := ctx' } σ := by
  refine ⟨hlive, h.once, h.free, fun k e hk => ?_⟩
  obtain ⟨o, ho, hshows⟩ := h.object k e hk
  exact ⟨o, ho, hshows.congr hbase (hsame k e hk)⟩

/-- A name gets an entry that no other name has. -/
theorem ShowsStore.bind (h : ShowsStore pool c σ) (he : e ∈ pool.live)
    (hnew : ∀ k', c.table k' ≠ some e) (ho : ShowsObject c.ctx e o) :
    ShowsStore pool ⟨c.ctx, Function.update c.table k (some e)⟩ (Function.update σ k (some o)) := by
  refine ⟨fun k' f hf => ?_, fun k₁ k₂ f h1 h2 => ?_, fun k' hf => ?_, fun k' f hf => ?_⟩
  · rcases update_some hf with ⟨-, hv⟩ | ⟨-, hf⟩
    · cases hv
      exact he
    · exact h.live k' f hf
  · rcases update_some h1 with ⟨rfl, hv1⟩ | ⟨-, h1⟩
    · cases hv1
      rcases update_some h2 with ⟨rfl, -⟩ | ⟨-, h2⟩
      · rfl
      · exact absurd h2 (hnew k₂)
    · rcases update_some h2 with ⟨-, hv2⟩ | ⟨-, h2⟩
      · cases hv2
        exact absurd h1 (hnew k₁)
      · exact h.once k₁ k₂ f h1 h2
  · have hne : k' ≠ k := by
      rintro rfl
      simp at hf
    simp only [Function.update_of_ne hne] at hf ⊢
    exact h.free k' hf
  · rcases update_some hf with ⟨rfl, hv⟩ | ⟨hne, hf⟩
    · cases hv
      exact ⟨o, Function.update_self .., ho⟩
    · rw [Function.update_of_ne hne]
      exact h.object k' f hf

theorem ShowsStore.unbind (h : ShowsStore pool c σ) (k : κ) :
    ShowsStore pool ⟨c.ctx, Function.update c.table k none⟩ (Function.update σ k none) := by
  have hold : ∀ k' f, Function.update c.table k none k' = some f → k' ≠ k ∧ c.table k' = some f := by
    intro k' f hf
    rcases update_some hf with ⟨-, hv⟩ | hold
    · cases hv
    · exact hold
  refine ⟨fun k' f hf => h.live k' f (hold k' f hf).2,
    fun k₁ k₂ f h1 h2 => h.once k₁ k₂ f (hold k₁ f h1).2 (hold k₂ f h2).2, fun k' hf => ?_,
    fun k' f hf => ?_⟩
  · by_cases hne : k' = k
    · rw [hne, Function.update_self]
    · simp only [Function.update_of_ne hne] at hf ⊢
      exact h.free k' hf
  · obtain ⟨hne, hf⟩ := hold k' f hf
    rw [Function.update_of_ne hne]
    exact h.object k' f hf

/-- The contents behind one entry change, and those behind the others stay. -/
theorem ShowsStore.rewrite (h : ShowsStore pool c σ) (hk : c.table k = some e)
    (hbase : ctx'.vram_mmap = c.ctx.vram_mmap)
    (hsame : ∀ f ∈ pool.live, f ≠ e → ∀ j < f.2,
      ctx'.buddy.mem (c.ctx.vram_mmap + f.1 + j) = c.ctx.buddy.mem (c.ctx.vram_mmap + f.1 + j))
    (ho : ShowsObject ctx' e o) :
    ShowsStore pool { c with ctx := ctx' } (Function.update σ k (some o)) := by
  refine ⟨h.live, h.once, fun k' hf => ?_, fun k' f hf => ?_⟩
  · have hne : k' ≠ k := by
      rintro rfl
      simp [hk] at hf
    rw [Function.update_of_ne hne]
    exact h.free k' hf
  · by_cases hkk : k' = k
    · subst hkk
      obtain rfl : e = f := Option.some.inj (hk.symm.trans hf)
      exact ⟨o, Function.update_self .., ho⟩
    · have hne : f ≠ e := by
        rintro rfl
        exact hkk (h.once k' k f hf hk)
      obtain ⟨o', ho', hshows⟩ := h.object k' f hf
      exact ⟨o', by rw [Function.update_of_ne hkk, ho'], hshows.congr hbase (hsame f (h.live k' f hf) hne)⟩

theorem serve_make (h : Serves T c σ) (k : κ) (n : Nat) (malloc_ok : Bool) :
    ∃ a c' σ', c.serve (.make k n, malloc_ok) = some (a, c') ∧ Step σ (.make k n) a σ' ∧
      Serves T c' σ' := by
  obtain ⟨pool, hcar, hs⟩ := h
  cases hk : c.table k with
  | some e => exact ⟨.refused, c, σ, by simp [Client.serve, hk], .no_room σ k n, pool, hcar, hs⟩
  | none =>
    obtain ⟨ctx', hcode, -, -, -⟩ := gpuMalloc_spec hcar n malloc_ok
    obtain ⟨pool', hcar', hlive, hbase, hsame⟩ := hcar.grant hcode
    generalize (pool.malloc n malloc_ok).1 = x at hcode hlive
    have hmem : ∀ j e, e ∈ pool.live → j < e.2 → ctx'.buddy.mem (c.ctx.vram_mmap + e.1 + j) =
        c.ctx.buddy.mem (c.ctx.vram_mmap + e.1 + j) := by
      intro j e he hj
      refine hsame e he _ ?_
      rw [hcar.mapped]
      exact hcar.mapped ▸ hcar.inSpan he hj
    have hmoved : (∀ e ∈ pool.live, e ∈ pool'.live) → ShowsStore pool' { c with ctx := ctx' } σ := fun hsub =>
      hs.move hbase (fun k e hk => hsub e (hs.live k e hk)) fun k e hk j hj => hmem j e (hs.live k e hk) hj
    by_cases hx : x = NO_OFFSET
    · rw [if_pos hx] at hlive
      refine ⟨.refused, { c with ctx := ctx' }, σ, by simp [Client.serve, hk, hcode, hx],
        .no_room σ k n, pool', hcar', hmoved fun e he => hlive ▸ he⟩
    · rw [if_neg hx] at hlive
      have hnew : (x, n) ∈ pool'.live := by simp [hlive]
      -- The new offset is not that of an older entry.
      have hnodup := hcar'.good.nodup
      rw [hlive, List.map_cons, List.nodup_cons] at hnodup
      refine ⟨.done, ⟨ctx', Function.update c.table k (some (x, n))⟩, _,
        by simp [Client.serve, hk, hcode, hx], .made n (hs.free k hk), pool', hcar',
        (hmoved fun e he => by simp [hlive, he]).bind hnew ?_ ⟨rfl, by simp [blank]⟩⟩
      intro k' hk'
      exact hnodup.1 (List.mem_map_of_mem (f := Prod.fst) (hs.live k' _ hk'))

theorem serve_drop (h : Serves T c σ) (k : κ) (malloc_ok : Bool) :
    ∃ a c' σ', c.serve (.drop k, malloc_ok) = some (a, c') ∧ Step σ (.drop k) a σ' ∧
      Serves T c' σ' := by
  obtain ⟨pool, hcar, hs⟩ := h
  cases hk : c.table k with
  | none =>
    exact ⟨.refused, c, σ, by simp [Client.serve, hk], .no_drop (hs.free k hk), pool, hcar, hs⟩
  | some e =>
    obtain ⟨o, ho, -⟩ := hs.object k e hk
    have he := hs.live k e hk
    obtain ⟨ctx', hcode, hcar', hbase, hsame⟩ := gpuFree_spec hcar he
    have hmapped : ctx'.vram_mmap = c.ctx.vram_mmap := by rw [hcar'.mapped, hbase, hcar.mapped]
    refine ⟨.done, ⟨ctx', Function.update c.table k none⟩, _, by simp [Client.serve, hk, hcode],
      .dropped ho, pool.free e, hcar', ?_⟩
    -- The other entries stay live, and no byte of them changes.
    have hothers : ∀ k' f, Function.update c.table k none k' = some f → f ∈ pool.live ∧ f ≠ e := by
      intro k' f hf
      rcases update_some hf with ⟨-, hv⟩ | ⟨hne, hf⟩
      · cases hv
      · exact ⟨hs.live k' f hf, fun heq => hne (hs.once k' k f hf (heq ▸ hk))⟩
    refine (hs.unbind k).move hmapped (fun k' f hf => ?_) fun k' f hf j hj => ?_
    · obtain ⟨hlive, hne⟩ := hothers k' f hf
      rw [Pool.free_live]
      exact (List.mem_erase_of_ne hne).mpr hlive
    · obtain ⟨hlive, hne⟩ := hothers k' f hf
      exact hsame f hlive hne _ (hcar.inSpan hlive hj)

/-- A copy into a live entry, as the program sees it. -/
theorem Carries.put {i : Nat} {xs : List UInt8} (h : Carries T ctx pool) (he : e ∈ pool.live)
    (hin : i + xs.length ≤ e.2) : ∃ ctx',
    gpuMemcpy ctx (add64 e.1 i) (fun j => xs.getD j 0) xs.length GPU_MEMCPY_H2D =
      (0, ctx', fun j => xs.getD j 0) ∧ Carries T ctx' pool ∧ ctx'.vram_mmap = ctx.vram_mmap ∧
      ctx'.buddy.mem = copy ctx.buddy.mem (ctx.vram_mmap + e.1 + i) (fun j => xs.getD j 0) xs.length := by
  have hspan := h.good.le_span he
  have hle := h.good.span_le he
  have hsmall := h.small
  have hsum : add64 e.1 i = e.1 + i := add64_eq (by omega)
  have hall : allowed pool.live (add64 e.1 i) xs.length = true := by
    rw [hsum]
    exact List.any_eq_true.mpr ⟨e, he, by simp; omega⟩
  have hwritten : Carries T (gpuMemcpy ctx (add64 e.1 i) (fun j => xs.getD j 0) xs.length
    GPU_MEMCPY_H2D).2.1 pool := h.write hall
  have hcode : gpuMemcpy ctx (add64 e.1 i) (fun j => xs.getD j 0) xs.length GPU_MEMCPY_H2D =
      (0, ctx.setMem (copy ctx.buddy.mem (ctx.vram_mmap + e.1 + i) (fun j => xs.getD j 0) xs.length),
        fun j => xs.getD j 0) := by
    unfold gpuMemcpy
    rw [if_pos rfl, h.addr he (by omega)]
  rw [hcode] at hwritten
  exact ⟨_, hcode, hwritten, rfl, rfl⟩

/-- What is known of an object after a write, and what the memory has there. -/
theorem ShowsObject.write {i : Nat} {xs : List UInt8} (h : ShowsObject ctx e o)
    (hbase : ctx'.vram_mmap = ctx.vram_mmap) (hmem : ctx'.buddy.mem =
      copy ctx.buddy.mem (ctx.vram_mmap + e.1 + i) (fun j => xs.getD j 0) xs.length) :
    ShowsObject ctx' e (o.write i xs) := by
  refine ⟨h.size, fun j hj x hx => ?_⟩
  rw [hbase, hmem]
  simp only [Object.write] at hx
  split at hx
  next hin =>
    obtain ⟨n, rfl⟩ : ∃ n, j = i + n := ⟨j - i, by omega⟩
    rw [Nat.add_sub_cancel_left] at hx
    rw [← Nat.add_assoc, copy_inside (by omega), List.getD, hx]
    rfl
  next hout =>
    rw [copy_outside (by omega)]
    exact h.bytes j hj x hx

theorem serve_put (h : Serves T c σ) (k : κ) (i : Nat) (xs : List UInt8) (malloc_ok : Bool) :
    ∃ a c' σ', c.serve (.put k i xs, malloc_ok) = some (a, c') ∧ Step σ (.put k i xs) a σ' ∧
      Serves T c' σ' := by
  obtain ⟨pool, hcar, hs⟩ := h
  cases hk : c.table k with
  | none =>
    exact ⟨.refused, c, σ, by simp [Client.serve, hk], .no_put (by simp [hs.free k hk]), pool, hcar, hs⟩
  | some e =>
    obtain ⟨o, ho, hshows⟩ := hs.object k e hk
    by_cases hin : i + xs.length ≤ e.2
    · have he := hs.live k e hk
      obtain ⟨ctx', hcode, hcar', hbase, hmem⟩ := hcar.put he hin
      refine ⟨.done, { c with ctx := ctx' }, _, by simp only [Client.serve, hk, if_pos hin, hcode],
        .put ho (hshows.size.symm ▸ hin), pool, hcar', hs.rewrite hk hbase ?_ (hshows.write hbase hmem)⟩
      intro f hf hne j hj
      have happ := hcar.good.apart hf he hne
      have hspan := hcar.good.le_span hf
      have hspan' := hcar.good.le_span he
      rw [hmem, copy_outside (by omega)]
    · refine ⟨.refused, c, σ, by simp [Client.serve, hk, hin], .no_put ?_, pool, hcar, hs⟩
      intro o' ho'
      obtain rfl : o = o' := Option.some.inj (ho.symm.trans ho')
      rw [hshows.size]
      omega

theorem serve_get (h : Serves T c σ) (k : κ) (i n : Nat) (malloc_ok : Bool) :
    ∃ a c' σ', c.serve (.get k i n, malloc_ok) = some (a, c') ∧ Step σ (.get k i n) a σ' ∧
      Serves T c' σ' := by
  obtain ⟨pool, hcar, hs⟩ := h
  cases hk : c.table k with
  | none =>
    exact ⟨.refused, c, σ, by simp [Client.serve, hk], .no_get (by simp [hs.free k hk]), pool, hcar, hs⟩
  | some e =>
    obtain ⟨o, ho, hshows⟩ := hs.object k e hk
    by_cases hin : i + n ≤ e.2
    · have haddr := hcar.addr (hs.live k e hk) (show i ≤ e.2 by omega)
      let xs := (List.range n).map fun j => c.ctx.buddy.mem (c.ctx.vram_mmap + e.1 + i + j)
      have hlen : xs.length = n := by simp [xs]
      have hcode : c.serve (.get k i n, malloc_ok) = some (.data xs, c) := by
        have hread : ((List.range n).map fun j =>
            if j < n then c.ctx.buddy.mem (c.ctx.vram_mmap + e.1 + i + j) else 0) = xs :=
          List.map_congr_left fun j hj => if_pos (List.mem_range.mp hj)
        have hdir : ¬ GPU_MEMCPY_D2H = GPU_MEMCPY_H2D := by decide
        simp only [Client.serve, hk, if_pos hin, gpuMemcpy, if_neg hdir, if_true, haddr, hread]
      have hgot : Step σ (.get k i xs.length) (.data xs) σ := by
        refine .got ho (by rw [hlen, hshows.size]; exact hin) fun j hj x hx => ?_
        rw [hlen] at hj
        have hbyte := hshows.bytes (i + j) (by omega) x hx
        rw [← Nat.add_assoc] at hbyte
        simp [xs, hj, hbyte]
      exact ⟨.data xs, c, σ, hcode, hlen ▸ hgot, pool, hcar, hs⟩
    · refine ⟨.refused, c, σ, by simp [Client.serve, hk, hin], .no_get ?_, pool, hcar, hs⟩
      intro o' ho'
      obtain rfl : o = o' := Option.some.inj (ho.symm.trans ho')
      rw [hshows.size]
      omega

theorem Serves.step (h : Serves T c σ) (r : Request κ UInt8 × Bool) :
    ∃ a c' σ', c.serve r = some (a, c') ∧ Step σ r.1 a σ' ∧ Serves T c' σ' := by
  obtain ⟨r, malloc_ok⟩ := r
  cases r with
  | make k n => exact serve_make h k n malloc_ok
  | drop k => exact serve_drop h k malloc_ok
  | put k i xs => exact serve_put h k i xs malloc_ok
  | get k i n => exact serve_get h k i n malloc_ok

/-- Every program that names its buffers gets from the device, request by request, answers
that a store of objects gives, whatever it allocates, frees and writes in between. -/
theorem the_device_is_a_store_of_objects {ctx0 : GpgpuCtx} {fd : Int} {base size : Nat}
    {malloc_ok : Slab → Bool} (hm : Mapped base size)
    (hinit : gpuInit ctx0 fd base malloc_ok size = some (0, ctx))
    (requests : List (Request κ UInt8 × Bool)) :
    ∃ as, answers Client.serve (⟨ctx, fun _ => none⟩ : Client κ) requests = some as ∧
      Served (fun _ => none) (requests.map Prod.fst) as := by
  obtain ⟨pool, hcar, -, -⟩ := gpuInit_spec hm hinit
  refine answers_served (Serves (size / PAGE_SIZE * PAGE_SIZE)) (fun c σ r h => h.step r)
    ⟨pool, hcar, ?_⟩ requests
  exact ⟨by simp, by simp, fun _ _ => rfl, by simp⟩

/-- Between a write and its read, another buffer is freed and its page is used again. -/
theorem a_buffer_keeps_its_bytes :
    ∃ ctx, gpuInit blankCtx 3 4096 (fun _ => true) 65536 = some (0, ctx) ∧
      ∃ as, answers Client.serve (⟨ctx, fun _ => none⟩ : Client Nat)
          [(.make 0 100, true), (.make 1 5000, true), (.put 0 10 [1, 2, 3], true), (.drop 1, true),
            (.make 2 9000, true), (.put 2 0 [9, 9], true), (.get 0 11 2, true)] = some as ∧
        Served (fun _ => none) [.make 0 100, .make 1 5000, .put 0 10 [1, 2, 3], .drop 1, .make 2 9000,
          .put 2 0 [9, 9], .get 0 11 2] as := by
  obtain ⟨ctx, hinit⟩ := blankCtx_inits
  exact ⟨ctx, hinit, the_device_is_a_store_of_objects ⟨by decide, by decide⟩ hinit _⟩

example : (do
    let (_, ctx) ← gpuInit blankCtx 3 4096 (fun _ => true) 65536
    answers Client.serve (⟨ctx, fun _ => none⟩ : Client Nat) [(.make 0 100, true), (.make 1 5000, true),
      (.put 0 10 [1, 2, 3], true), (.drop 1, true), (.make 2 9000, true), (.put 2 0 [9, 9], true),
      (.get 0 11 2, true), (.get 1 0 1, true)]) =
    some [.done, .done, .done, .done, .done, .done, .data [2, 3], .refused] := by
  decide +kernel

end

end gpgpu.context
