-- What a failed step leaves for a retry. Up to the first append the cache counts nothing,
-- and the retry returns the token of an undisturbed step; from then on the layers of the
-- failed call stay pending, and the retry is refused.
import Gpgpu.Stage

open memory words buffers

namespace gpgpu.desk

open buddy context kernels device kv weights transformer reference

/-! ## The operations before the first append, and after it -/

section

variable {host : Libm} {ws : Workspace} {wl : WeightLoader} {c : KvCache} {tok : Word} {pos : Nat}

/-- The operations of a step before its first append. -/
def opening (host : Libm) (ws : Workspace) (wl : WeightLoader) (tok : Word) (pos : Nat) : List Op :=
  first_ops ws wl tok ++ qkv_ops host ws wl 0 pos

/-- The operations of a step after its first append, but for the commit. -/
def remainder (host : Libm) (ws : Workspace) (wl : WeightLoader) (c : KvCache) (pos n : Nat) :
    List Op :=
  (attention_ops host ws c 0 pos ++ ffn_ops host ws wl 0) ++
    (((List.range n).map Nat.succ).flatMap (layer_ops host ws wl c pos) ++
      (last_ops host ws wl).take 3)

theorem step_ops_split {n : Nat} (hn : ws.cfg.num_layers = n + 1) :
    step_ops host ws wl c tok pos = opening host ws wl tok pos ++
      .append 0 :: (remainder host ws wl c pos n ++ [.commit]) := by
  have hlast : last_ops host ws wl = (last_ops host ws wl).take 3 ++ [.commit] := rfl
  unfold step_ops opening remainder
  rw [hn, List.range_succ_eq_map, List.flatMap_cons, layer_ops_eq]
  nth_rewrite 1 [hlast]
  simp only [List.append_assoc, List.cons_append]

theorem opening_quiet : ∀ o ∈ opening host ws wl tok pos, o.Quiet := by
  intro o ho
  rcases List.mem_append.mp ho with ho | ho
  · exact first_quiet o ho
  · exact qkv_quiet o ho

theorem opening_cost : cost_all (opening host ws wl tok pos) = 10 := rfl

/-- A layer does not close the token. -/
theorem commit_notMem_layer (layer : Nat) : .commit ∉ layer_ops host ws wl c pos layer := by
  rw [layer_ops_eq, List.mem_append, List.mem_cons]
  rintro (h | h | h)
  · exact qkv_quiet _ h
  · cases h
  · exact rest_quiet _ h

theorem commit_notMem_remainder (n : Nat) : .commit ∉ remainder host ws wl c pos n := by
  intro hc
  unfold remainder at hc
  rcases List.mem_append.mp hc with h | h
  · exact rest_quiet _ h
  rcases List.mem_append.mp h with h | h
  · obtain ⟨layer, -, h⟩ := List.mem_flatMap.mp h
    exact commit_notMem_layer layer h
  · simp [last_ops, rmsnorm_op, gemm_op] at h

/-- Without a commit the layers that are pending stay pending. -/
theorem pending_le_count_all {ops : List Op} (h : .commit ∉ ops) (kv : KvCache) :
    kv.pending ≤ (count_all kv ops).pending := by
  induction ops generalizing kv with
  | nil => exact Nat.le_refl _
  | cons o ops ih =>
    rw [List.mem_cons, not_or] at h
    refine Nat.le_trans ?_ (ih h.2 (o.count kv))
    cases o with
    | append => exact Nat.le_succ _
    | commit => exact absurd rfl h.1
    | token => exact Nat.le_refl _
    | launch => exact Nat.le_refl _

/-- Where a step stops when a call is refused: before the first append has been made, with
the counters as they were, or after it, with a layer pending. -/
theorem step_stops {n : Nat} (hn : ws.cfg.num_layers = n + 1) {ok : Nat → Bool} (kv : KvCache)
    {calls : Nat} (hfails : ∃ i < cost_all (step_ops host ws wl c tok pos), ok (calls + i) = false) :
    ((∃ i < 12, ok (calls + i) = false) ∧
      (outcome ok (step_ops host ws wl c tok pos) calls kv).2.1 = kv) ∨
    ((∀ i < 12, ok (calls + i) = true) ∧
      0 < (outcome ok (step_ops host ws wl c tok pos) calls kv).2.1.pending) := by
  obtain ⟨i, hi, hno⟩ := hfails
  obtain ⟨ops₁, o, ops₂, hsplit, hbefore, hstop, hout⟩ := outcome_error kv hi hno
  rw [hout]
  -- The call that is refused is one of the operation at which the step stops.
  obtain ⟨j, hj, hjno⟩ : ∃ j < o.cost, ok (calls + cost_all ops₁ + j) = false := by
    unfold Op.goes at hstop
    rw [List.all_eq_false] at hstop
    obtain ⟨j, hj, hjno⟩ := hstop
    exact ⟨j, List.mem_range.mp hj, by simpa using hjno⟩
  rw [step_ops_split hn, List.append_eq_append_iff] at hsplit
  have hcost : cost_all (opening host ws wl tok pos) = 10 := opening_cost
  have hearly : cost_all ops₁ + j < 12 → (∀ o ∈ ops₁, o.Quiet) →
      (∃ i < 12, ok (calls + i) = false) ∧ count_all kv ops₁ = kv := by
    intro hlt hquiet
    exact ⟨⟨cost_all ops₁ + j, hlt, by rw [← Nat.add_assoc]; exact hjno⟩, count_all_quiet hquiet⟩
  rcases hsplit with ⟨t, rfl, ht⟩ | ⟨t, ht, hrest⟩
  · cases t with
    | nil =>
      simp only [List.nil_append, List.cons.injEq] at ht
      obtain ⟨rfl, -⟩ := ht
      have hj2 : j < 2 := hj
      rw [List.append_nil] at hearly ⊢
      exact .inl (hearly (by omega) opening_quiet)
    | cons a t =>
      simp only [List.cons_append, List.cons.injEq] at ht
      obtain ⟨rfl, ht⟩ := ht
      refine .inr ⟨fun i hi => hbefore i ?_, ?_⟩
      · rw [cost_all_append, hcost]
        have happ : cost_all (.append 0 :: t) = 2 + cost_all t := rfl
        omega
      · -- The operation that stops the step is not the commit, so the commit is behind it.
        have hmem : .commit ∉ t := by
          intro hc
          have hlen := congrArg List.length ht
          have hlast := congrArg (List.take t.length) ht
          rw [List.take_left, List.take_append_of_le_length] at hlast
          · rw [← hlast] at hc
            exact commit_notMem_remainder n (List.mem_of_mem_take hc)
          · simp only [List.length_append, List.length_cons, List.length_nil] at hlen
            omega
        simp only [count_all_append, count_all_quiet opening_quiet]
        exact Nat.lt_of_lt_of_le (Nat.succ_pos _) (pending_le_count_all hmem (Op.count kv (.append 0)))
  · have hsub : ∀ o ∈ ops₁, o.Quiet := fun o ho => opening_quiet o (ht ▸ List.mem_append_left _ ho)
    refine .inl (hearly ?_ hsub)
    rw [ht, cost_all_append] at hcost
    cases t with
    | nil =>
      simp only [List.nil_append, List.cons.injEq] at hrest
      obtain ⟨rfl, -⟩ := hrest
      have hj2 : j < 2 := hj
      omega
    | cons a t =>
      simp only [List.cons_append, List.cons.injEq] at hrest
      obtain ⟨rfl, -⟩ := hrest
      have happ : cost_all (o :: t) = o.cost + cost_all t := rfl
      omega

end

/-! ## What the failed step leaves in the memory -/

section

variable {dev : Device} {host : Libm} {ws : Workspace} {wl : WeightLoader} {c : KvCache}
  {lay : Layout Buf} {M : Model} {ctx : GpgpuCtx} {ok : Nat → Bool} {st st' : Run} {tok : Nat} {r : Int}

/-- The model with another table of the rotations. -/
def withTable (M : Model) (table : List Word) : Model := { M with sincos := table }

@[simp] theorem withTable_sincos (M : Model) (table : List Word) :
    (withTable M table).sincos = table := rfl

theorem Loaded.withTable {env : Env} {m0 : Mem} (hl : Loaded env ws wl lay M m0) (table : List Word) :
    Loaded env ws wl lay (withTable M table) m0 := by
  obtain ⟨hplaced, hbinary, htensor, hembed, hhead, hnorm, hinv, heps, hscale, hok⟩ := hl
  exact ⟨hplaced, hbinary, htensor, hembed, hhead, hnorm, hinv, heps, hscale, hok⟩

/-- The table of the rotations in the memory. -/
def tableAt (lay : Layout Buf) (m : Mem) : List Word :=
  lay.read m (.work .sincos) 0 (workBytes .sincos / 4)

theorem deskOf_sincos (lay : Layout Buf) (m : Mem) (n : Nat) :
    (deskOf lay m n).vec .sincos = tableAt lay m := by
  simp only [deskOf, tableAt]

theorem Stage.table (hs : Stage dev host ws wl c ctx lay M) (hb : Between dev ws wl c ctx st) :
    tableAt lay st.ctx.buddy.mem = tableAt lay ctx.buddy.mem := by
  have hsincos : ¬ Mine (.work .sincos) := by
    rintro (h | h | h)
    · exact h rfl
    · cases h
    · cases h
  apply (hs.same hb hsincos).read
  rw [(hs.loaded.work .sincos).2]
  omega

/-- On a healthy device a step returns the token of the rows in the memory. -/
theorem Stage.healthy (hs : Stage dev host ws wl c ctx lay M) (hb : Between dev ws wl c ctx st)
    (htok : tok < 151936) :
    ∃ st', transformer_step ⟨dev, host, fun _ => true⟩ ws wl tok st.kv.filled st =
      some (((stepToken dev.fpu (withTable M (tableAt lay ctx.buddy.mem))
        (rowsAt lay st.ctx.buddy.mem .keys st.kv.filled)
        (rowsAt lay st.ctx.buddy.mem .vals st.kv.filled) st.kv.filled tok).toNat : Int), st') := by
  have hrests : (deskOf lay st.ctx.buddy.mem st.kv.filled).Rests
      (withTable M (tableAt lay ctx.buddy.mem)) (rowsAt lay st.ctx.buddy.mem .keys st.kv.filled)
      (rowsAt lay st.ctx.buddy.mem .vals st.kv.filled) st.kv.filled := by
    refine ⟨?_, rfl, rfl, fun l _ => rfl, fun l _ => rfl⟩
    rw [withTable_sincos, deskOf_sincos, hs.table hb]
  obtain ⟨st', d', hcode, -, -⟩ := (hs.loaded.withTable (tableAt lay ctx.buddy.mem)).step_rests
    hb.filled htok (fun l _ => by simp [rowsAt]) (fun l _ => by simp [rowsAt]) (hs.shows hb) hrests
  exact ⟨st', hcode⟩

theorem Stage.fits (hs : Stage dev host ws wl c ctx lay M) (hb : Between dev ws wl c ctx st)
    (w : Word) : ∀ o ∈ step_ops host ws wl c w st.kv.filled, Fits lay dev.fpu c st.kv.filled o :=
  have hr : Room (⟨dev, host, fun _ => true⟩ : Env).dev ws c lay ctx.buddy.mem := hs.room
  hr.step_fits hs.suited hb.filled w

/-- A step leaves the rows of the tokens that the cache has. -/
theorem Stage.rows_kept (hs : Stage dev host ws wl c ctx lay M) (hb : Between dev ws wl c ctx st)
    (hst : Stepped ⟨dev, host, ok⟩ ws wl c lay ctx.buddy.mem tok st r st') {b : Buf}
    (hkv : b = .keys ∨ b = .vals) {l : Nat} (hl : l < 24) :
    rowsAt lay st'.ctx.buddy.mem b st.kv.filled l = rowsAt lay st.ctx.buddy.mem b st.kv.filled l := by
  have hfilled := hb.filled
  have hrow : ∀ h < 2, ∀ t < st.kv.filled,
      lay.read st'.ctx.buddy.mem b (((l * 2 + h) * 128 + t) * 256) 64 =
        lay.read st.ctx.buddy.mem b (((l * 2 + h) * 128 + t) * 256) 64 := by
    intro h hh t ht
    apply vec_congr
    intro k hk
    apply word_congr
    intro j hj
    apply hst.frame
    intro o ho
    have hlayers : l < c.num_layers := by
      rw [hs.fresh]
      exact hl
    have hheads : h < c.num_kv_heads := by
      rw [hs.fresh]
      exact hh
    have hmax : st.kv.filled < c.max_seq := by
      rw [hs.suited.max_seq]
      exact hfilled
    have hr : Room (⟨dev, host, ok⟩ : Env).dev ws c lay ctx.buddy.mem := hs.room
    refine hr.committed_untouched hs.cache (hs.fits hb _ o ho) hlayers hheads ht hmax ?_
    have hrow_eq : c.row l h t = ((l * 2 + h) * 128 + t) * 256 := by
      rw [hs.fresh]
      rfl
    have hwidth : c.width = 256 := by
      rw [hs.fresh]
      rfl
    unfold KvCache.InRows KvCache.InRow
    rw [hrow_eq, hwidth, ← hs.room.keys, ← hs.room.vals]
    rcases hkv with rfl | rfl
    · exact .inl ⟨by omega, by omega⟩
    · exact .inr ⟨by omega, by omega⟩
  apply List.map_congr_left
  intro t ht
  have ht' := List.mem_range.mp ht
  have h0 := hrow 0 (by decide) t ht'
  rw [Nat.add_zero] at h0
  rw [h0, hrow 1 (by decide) t ht']

/-- A step that left the counters as they were ends between two steps. -/
theorem Stage.between (hs : Stage dev host ws wl c ctx lay M) (hb : Between dev ws wl c ctx st)
    (hst : Stepped ⟨dev, host, ok⟩ ws wl c lay ctx.buddy.mem tok st r st') (hkv : st'.kv = st.kv) :
    Between dev ws wl c ctx st' := by
  obtain ⟨m, hm⟩ := hst.ctx
  refine ⟨?_, fun y hy => ?_, by rw [hkv]; exact hb.kv, by rw [hkv]; exact hb.filled⟩
  · rw [hm, hb.context]
    rfl
  · rw [hst.frame y fun o ho htouch => ?_, hb.mem y hy]
    have hr : Room (⟨dev, host, ok⟩ : Env).dev ws c lay ctx.buddy.mem := hs.room
    obtain ⟨b, hmine, hin⟩ := hr.touches_in (hs.fits hb _ o ho) htouch
    refine hy b hmine ?_
    rw [hs.mapped, ← (hs.bufs b).1, ← (hs.bufs b).2]
    exact hin

end

/-! ## Which failed steps can be retried -/

/-- The step that led from `st` to `st'` can be retried: the counters are as they were, and on
a healthy device a step for the same token at the same place returns a token, and returns the
one that it would have returned before. -/
def Retryable (dev : Device) (host : Libm) (ws : Workspace) (wl : WeightLoader) (tok : Nat)
    (st st' : Run) : Prop :=
  st'.kv.filled = st.kv.filled ∧ st'.kv.pending = st.kv.pending ∧
    ∃ next : Nat, ∃ s s',
      transformer_step ⟨dev, host, fun _ => true⟩ ws wl tok st.kv.filled st = some ((next : Int), s) ∧
      transformer_step ⟨dev, host, fun _ => true⟩ ws wl tok st.kv.filled st' = some ((next : Int), s')

section

variable {files : WeightFile → Option FileData} {dev : Device} {host : Libm} {io : InitIo}
  {ws : Workspace} {wl : WeightLoader} {c : KvCache} {ctx ctx' : GpgpuCtx} {lay : Layout Buf} {M : Model}
  {ok : Nat → Bool} {st st' : Run} {tok : Nat} {r : Int}

theorem Stage.retryable (hs : Stage dev host ws wl c ctx lay M) (hb : Between dev ws wl c ctx st)
    (hst : Stepped ⟨dev, host, ok⟩ ws wl c lay ctx.buddy.mem tok st r st') (htok : tok < 151936)
    (hkv : st'.kv = st.kv) : Retryable dev host ws wl tok st st' := by
  obtain ⟨s, hcode⟩ := hs.healthy hb htok
  obtain ⟨s', hcode'⟩ := hs.healthy (hs.between hb hst hkv) htok
  rw [hkv] at hcode'
  refine ⟨by rw [hkv], by rw [hkv], _, s, s', hcode, hcode'.trans ?_⟩
  have hsame : ∀ l < 24,
      rowsAt lay st'.ctx.buddy.mem .keys st.kv.filled l = rowsAt lay st.ctx.buddy.mem .keys st.kv.filled l ∧
      rowsAt lay st'.ctx.buddy.mem .vals st.kv.filled l = rowsAt lay st.ctx.buddy.mem .vals st.kv.filled l :=
    fun l hl => ⟨hs.rows_kept hb hst (.inl rfl) hl, hs.rows_kept hb hst (.inr rfl) hl⟩
  unfold stepToken comes
  rw [arriving_congr _ _ _ (fun l hl => (hsame l hl).1) fun l hl => (hsame l hl).2]

/-- A step in which a call is refused returns an error. The cache has its counters back if it
was one of the first twelve, and has layers pending otherwise. -/
theorem Stage.failed_step (hs : Stage dev host ws wl c ctx lay M) (hb : Between dev ws wl c ctx st)
    (tok : Int) (ok : Nat → Bool) (hfails : ∃ i < 1 + 23 * 24 + 3, ok (st.calls + i) = false) :
    ∃ r st', Stepped ⟨dev, host, ok⟩ ws wl c lay ctx.buddy.mem tok st r st' ∧
      (r = TRANSFORMER_ERR_ALLOC ∨ r = TRANSFORMER_ERR_LAUNCH) ∧
      (((∃ i < 12, ok (st.calls + i) = false) ∧ st'.kv = st.kv) ∨
        ((∀ i < 12, ok (st.calls + i) = true) ∧ 0 < st'.kv.pending)) := by
  have hr : Room (⟨dev, host, ok⟩ : Env).dev ws c lay ctx.buddy.mem := hs.room
  obtain ⟨r, st', hst⟩ := hr.step_spec hs.suited (hs.sound hb) (hs.opens hb) tok
  have hlayers : ws.cfg.num_layers = 23 + 1 := by
    rw [hs.loaded.cfg]
    rfl
  have hcost : cost_all (step_ops host ws wl c (UInt32.ofInt tok) st.kv.filled) = 1 + 23 * 24 + 3 := by
    rw [cost_step, hlayers]
  rw [← hcost] at hfails
  have hstops := step_stops hlayers st.kv hfails
  have hkv : st'.kv = (outcome ok (step_ops host ws wl c (UInt32.ofInt tok) st.kv.filled) st.calls
    st.kv).2.1 := congrArg Prod.fst hst.counters
  rw [← hkv] at hstops
  have hcode : (outcome ok (step_ops host ws wl c (UInt32.ofInt tok) st.kv.filled) st.calls
      st.kv).1 ≠ TRANSFORMER_OK := by
    obtain ⟨i, hi, hno⟩ := hfails
    obtain ⟨ops₁, o, ops₂, -, -, -, hout⟩ := outcome_error st.kv hi hno
    rw [hout]
    exact o.error_ne
  refine ⟨r, st', hst, ?_, hstops⟩
  rw [hst.error hcode]
  rcases outcome_cases ok (step_ops host ws wl c (UInt32.ofInt tok) st.kv.filled) st.calls
    st.kv with ⟨h, -⟩ | h
  · exact absurd h hcode
  · exact h

theorem not_retryable (hb : Between dev ws wl c ctx st) (hpending : 0 < st'.kv.pending) :
    ¬ Retryable dev host ws wl tok st st' := by
  intro h
  have h0 : st.kv.pending = 0 := by rw [hb.kv]
  have heq := h.2.1
  omega

/-- A failed step can be retried just when one of its first twelve calls was refused: the
launches up to the first append, and the two buffers on the host that this append asks for. -/
theorem a_failed_step_can_be_retried_iff_it_failed_early
    (hprep : Prepared files ctx (some wl) (some c))
    (hinit : transformer_init dev host io ctx c transformer_default_config = some (some ws, ctx'))
    (hb : Between dev ws wl c ctx' st) (htok : tok < 151936) (ok : Nat → Bool)
    (hfails : ∃ i < 1 + 23 * 24 + 3, ok (st.calls + i) = false) :
    ∃ r st', transformer_step ⟨dev, host, ok⟩ ws wl tok st.kv.filled st = some (r, st') ∧
      (r = TRANSFORMER_ERR_ALLOC ∨ r = TRANSFORMER_ERR_LAUNCH) ∧
      (Retryable dev host ws wl tok st st' ↔ ∃ i < 12, ok (st.calls + i) = false) := by
  obtain ⟨lay, hs⟩ := stage_of_init hprep hinit
  obtain ⟨r, st', hst, hcode, hstops⟩ := hs.failed_step hb tok ok hfails
  refine ⟨r, st', hst.code, hcode, ?_⟩
  rcases hstops with ⟨hearly, hsame⟩ | ⟨hlate, hpending⟩
  · exact iff_of_true (hs.retryable hb hst htok hsame) hearly
  · refine iff_of_false (not_retryable hb hpending) fun ⟨i, hi, hno⟩ => ?_
    rw [hlate i hi] at hno
    cases hno

end

/-- The state in which `transformer_init` leaves a fresh cache is between two steps. -/
theorem between_fresh {dev : Device} {ws : Workspace} {wl : WeightLoader} {c : KvCache} (ctx : GpgpuCtx)
    (hc : c = ⟨24, 2, 128, 64, c.K_dev_off, c.V_dev_off, 0, 0⟩) : Between dev ws wl c ctx ⟨ctx, c, 0⟩ := by
  refine ⟨rfl, fun y _ => rfl, ?_, ?_⟩
  · rw [hc]
  · rw [hc]
    exact (by decide : 0 < 128)

/-- After `transformer_init` the memory shows a desk that has taken in no token, whatever the
buffers hold that start with any content. -/
theorem stage_begins {files : WeightFile → Option FileData} {dev : Device} {host : Libm} {io : InitIo}
    {ws : Workspace} {wl : WeightLoader} {c : KvCache} {ctx ctx' : GpgpuCtx}
    (hprep : Prepared files ctx (some wl) (some c))
    (hinit : transformer_init dev host io ctx c transformer_default_config = some (some ws, ctx'))
    {m : Mem} (hm : AgreesBeside dev ws wl c ctx' m) :
    ∃ lay, Stage dev host ws wl c (ctx'.setMem m) lay (modelOf host files) ∧
      At lay m ⟨ctx'.setMem m, c, 0⟩ (deskOf lay m c.filled) ∧
      (deskOf lay m c.filled).After dev.fpu (modelOf host files) [] := by
  obtain ⟨lay, hs, hsincos⟩ := stage_beside hprep hinit hm
  have hfilled : c.filled = 0 := by rw [hs.fresh]
  have hwords : workBytes .sincos / 4 = 8192 := by decide
  refine ⟨lay, hs, hs.shows (between_fresh _ hs.fresh), ?_⟩
  rw [hfilled]
  refine ⟨by simp only [deskOf, hwords]; exact hsincos, rfl, rfl, fun l _ => ?_, fun l _ => ?_⟩
  · exact (List.length_eq_zero_iff.mp (keysFor_length ..)).symm
  · exact (List.length_eq_zero_iff.mp (valuesFor_length ..)).symm

/-- The launch of the fourth kernel is refused, on a device with 4 GiB. -/
theorem a_refused_fourth_launch : ∃ ctx wl c ws ctx', setup (2 ^ 32) = some (ctx, wl, c, ws, ctx') ∧
    ∃ r st', transformer_step ⟨wordDevice, wordHost, fun n => n != 3⟩ ws wl (7 : Nat) c.filled
        ⟨ctx', c, 0⟩ = some (r, st') ∧
      (r = TRANSFORMER_ERR_ALLOC ∨ r = TRANSFORMER_ERR_LAUNCH) ∧
      (Retryable wordDevice wordHost ws wl 7 ⟨ctx', c, 0⟩ st' ↔ ∃ i < 12, (0 + i != 3) = false) := by
  obtain ⟨⟨ctx, wl, c, ws, ctx'⟩, h⟩ := Option.isSome_iff_exists.mp setup_goes_well
  obtain ⟨hprep, hinit⟩ := setup_spec ⟨by decide, by decide⟩ h
  have hb : Between wordDevice ws wl c ctx' ⟨ctx', c, 0⟩ := between_fresh ctx' (hprep.fresh c rfl)
  have hkey := a_failed_step_can_be_retried_iff_it_failed_early hprep hinit hb
    (show 7 < 151936 by decide) (fun n => n != 3) ⟨3, by decide, rfl⟩
  exact ⟨ctx, wl, c, ws, ctx', h, hkey⟩

/-- The launch after the append of the first layer is refused, and the step cannot be
retried: the layer stays pending. -/
theorem a_refused_launch_leaves_a_layer_pending : ∃ ctx wl c ws ctx',
    setup (2 ^ 32) = some (ctx, wl, c, ws, ctx') ∧ c.pending = 0 ∧ c.filled < c.max_seq ∧
    ∃ r st', transformer_step ⟨wordDevice, wordHost, fun n => n != 12⟩ ws wl (7 : Nat) c.filled
        ⟨ctx', c, 0⟩ = some (r, st') ∧ 0 < st'.kv.pending ∧
      ¬ Retryable wordDevice wordHost ws wl 7 ⟨ctx', c, 0⟩ st' := by
  obtain ⟨⟨ctx, wl, c, ws, ctx'⟩, h⟩ := Option.isSome_iff_exists.mp setup_goes_well
  obtain ⟨hprep, hinit⟩ := setup_spec ⟨by decide, by decide⟩ h
  have hfresh := hprep.fresh c rfl
  have hb : Between wordDevice ws wl c ctx' ⟨ctx', c, 0⟩ := between_fresh ctx' hfresh
  obtain ⟨lay, hs⟩ := stage_of_init hprep hinit
  have hok : ∀ i < 12, (0 + i != 12) = true := by decide
  obtain ⟨r, st', hst, -, ⟨⟨i, hi, hno⟩, -⟩ | ⟨-, hpending⟩⟩ := hs.failed_step hb (7 : Nat)
    (fun n => n != 12) ⟨12, by decide, rfl⟩
  · rw [hok i hi] at hno
    cases hno
  · refine ⟨ctx, wl, c, ws, ctx', h, ?_, ?_, r, st', hst.code, hpending, not_retryable hb hpending⟩
    · rw [hfresh]
    · rw [hfresh]
      exact (by decide : 0 < 128)

end gpgpu.desk
