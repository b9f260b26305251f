-- What a late failure leaves for good. From the first append on, the layers of a failed call stay
-- pending, and no later call of `transformer_step` gets past its own first append.
import Gpgpu.RetryLaws

open memory words buffers

namespace gpgpu.desk

open buddy context kernels device kv weights transformer reference

/-! ## The calls -/

/-- Calls of `transformer_step` one after the other, each at the position of the cache, whatever
they return. -/
def keep_calling (env : Env) (ws : Workspace) (wl : WeightLoader) : List Int → Run → Option (List Int × Run)
  | [], st => some ([], st)
  | tok :: toks, st => do
    let (r, st) ← transformer_step env ws wl tok st.kv.filled st
    let (rs, st) ← keep_calling env ws wl toks st
    return (r :: rs, st)

/-- A token of the cache is open, and there is room for it. -/
def Stuck (kv : KvCache) : Prop := 0 < kv.pending ∧ kv.filled < kv.max_seq

/-! ## The counters of a failed call -/

/-- Launches leave the cache alone, also when one is refused. -/
theorem outcome_quiet {ops : List Op} (h : ∀ o ∈ ops, o.Quiet) (ok : Nat → Bool) (n : Nat) (kv : KvCache) :
    (outcome ok ops n kv).2.1 = kv := by
  induction ops generalizing n with
  | nil => rfl
  | cons o ops ih =>
    have hcount : o.count kv = kv := by
      cases o with
      | token => rfl
      | launch => rfl
      | append => exact (h _ List.mem_cons_self).elim
      | commit => exact (h _ List.mem_cons_self).elim
    rw [outcome]
    split
    · rw [hcount]
      exact ih (fun o' ho' => h o' (List.mem_cons_of_mem _ ho')) _
    · rfl

/-- The calls that the host can refuse are counted upwards. -/
theorem outcome_calls (ok : Nat → Bool) (ops : List Op) (n : Nat) (kv : KvCache) :
    n ≤ (outcome ok ops n kv).2.2 := by
  induction ops generalizing n kv with
  | nil => exact Nat.le_refl n
  | cons o ops ih =>
    rw [outcome]
    split
    · exact Nat.le_trans (Nat.le_add_right n o.cost) (ih _ _)
    · exact Nat.le_add_right n o.cost

/-- Without a commit no token is counted. -/
theorem filled_count_all {ops : List Op} (h : .commit ∉ ops) (kv : KvCache) :
    (count_all kv ops).filled = kv.filled := by
  induction ops generalizing kv with
  | nil => rfl
  | cons o ops ih =>
    rw [List.mem_cons, not_or] at h
    rw [count_all, List.foldl_cons, ← count_all, ih h.2]
    cases o with
    | append => rfl
    | commit => exact absurd rfl h.1
    | token => rfl
    | launch => rfl

section

variable {host : Libm} {ws : Workspace} {wl : WeightLoader} {c : KvCache} {tok : Word} {pos : Nat}

/-- A call that fails counts no token, since its commit is the last of its operations, and it has
made the call that was refused. -/
theorem late_stops {n : Nat} (hn : ws.cfg.num_layers = n + 1) {ok : Nat → Bool} (kv : KvCache)
    {calls : Nat} (hearly : ∀ i < 12, ok (calls + i) = true)
    (hfails : ∃ i < cost_all (step_ops host ws wl c tok pos), ok (calls + i) = false) :
    (outcome ok (step_ops host ws wl c tok pos) calls kv).2.1.filled = kv.filled ∧
      calls + 12 < (outcome ok (step_ops host ws wl c tok pos) calls kv).2.2 := by
  obtain ⟨i, hi, hno⟩ := hfails
  obtain ⟨ops₁, o, ops₂, hsplit, -, hstop, hout⟩ := outcome_error kv hi hno
  rw [hout]
  constructor
  · apply filled_count_all
    intro hmem
    have hbefore : .commit ∈ (step_ops host ws wl c tok pos).dropLast := by
      rw [hsplit, List.dropLast_append_of_ne_nil (List.cons_ne_nil _ _)]
      exact List.mem_append_left _ hmem
    rw [step_ops_split hn, ← List.cons_append, ← List.append_assoc, List.dropLast_concat, List.mem_append,
      List.mem_cons] at hbefore
    rcases hbefore with h | h | h
    · exact opening_quiet _ h
    · cases h
    · exact commit_notMem_remainder n h
  · obtain ⟨j, hj, hjno⟩ := List.all_eq_false.mp hstop
    have hj := List.mem_range.mp hj
    have hlate : ¬ cost_all ops₁ + j < 12 := fun hlt => hjno (by
      rw [Nat.add_assoc]
      exact hearly _ hlt)
    simp only
    omega

end

/-! ## A call on a stuck cache -/

/-- The code of an append that the cache refuses, from the `n`-th call on. -/
def append_code (ok : Nat → Bool) (n : Nat) : Int :=
  if ok n && ok (n + 1) then TRANSFORMER_ERR_CACHE else TRANSFORMER_ERR_ALLOC

theorem append_code_cases (ok : Nat → Bool) (n : Nat) :
    append_code ok n = TRANSFORMER_ERR_ALLOC ∨ append_code ok n = TRANSFORMER_ERR_CACHE := by
  unfold append_code
  split
  · exact .inr rfl
  · exact .inl rfl

theorem append_code_ne (ok : Nat → Bool) (n : Nat) : append_code ok n ≠ TRANSFORMER_OK := by
  rcases append_code_cases ok n with h | h
  · rw [h]
    decide
  · rw [h]
    decide

/-- The append of the first layer is refused while another layer is pending. -/
theorem append_refused {env : Env} {ws : Workspace} {st : Run} (h : Stuck st.kv) (K V : Nat) :
    kv_append_from_device env ws 0 st.kv.filled K V st =
      some (append_code env.ok st.calls, { st with calls := st.calls + 2 }) := by
  obtain ⟨hpending, hroom⟩ := h
  have happend : ∀ K V, kv_cache_append_layer st.ctx st.kv 0 K V = some (-2, st.ctx, st.kv) := by
    intro K V
    unfold kv_cache_append_layer
    rw [if_neg (by omega)]
    split
    · rfl
    · rw [if_pos (by omega)]
  unfold kv_append_from_device kv_cache_cur_pos append_code
  rw [if_pos hroom]
  simp only [Option.bind_eq_bind, Option.bind_some, ne_eq, not_true_eq_false, if_false]
  cases env.ok st.calls && env.ok (st.calls + 1) with
  | false => rfl
  | true =>
    simp only [Bool.true_eq_false, if_false, happend, Option.map_some]
    rfl

/-- A call that comes to its first append ends there. -/
theorem append_stops {env : Env} {ws : Workspace} (st : Run) (h : Stuck st.kv) (ops : List Op) :
    run_ops env ws st.kv.filled (.append 0 :: ops) st =
      some (append_code env.ok st.calls, { st with calls := st.calls + 2 }) := by
  rw [run_ops, List.map_cons, seq, Op.act, append_refused h]
  simp only [Option.bind_some]
  rw [if_pos (append_code_ne _ _)]

section

variable {files : WeightFile → Option FileData} {dev : Device} {host : Libm} {io : InitIo}
  {ws : Workspace} {wl : WeightLoader} {c : KvCache} {ctx ctx' : GpgpuCtx} {lay : Layout Buf} {M : Model}
  {ok : Nat → Bool} {st : Run}

/-- A call whose operations end with an error returns that error. -/
theorem step_of_error {env : Env} {st st' : Run} {tok r : Int} {pos : Nat} (hpos : pos < 128)
    (hseq : seq (step_actions env ws wl (UInt32.ofInt tok) pos) st = some (r, st'))
    (hne : r ≠ TRANSFORMER_OK) : transformer_step env ws wl tok pos st = some (r, st') := by
  have hplace : (UInt32.ofInt (pos : Int)).toNat = pos := by
    rw [word_of_int (by omega), UInt32.toNat_ofNat_of_lt' (by simp only [UInt32.size]; omega)]
  unfold transformer_step
  simp only [hplace, hseq, Option.bind_some]
  rw [if_pos hne]

/-- A call on a stuck cache returns the code of a refused call, or that of the cache if none is
refused, and leaves the counters as they were. -/
theorem Stage.stuck_step (hs : Stage dev host ws wl c ctx lay M) (h : Sound lay ctx.buddy.mem c st)
    (hstuck : Stuck st.kv) (tok : Int) (ok : Nat → Bool) :
    ∃ r st', transformer_step ⟨dev, host, ok⟩ ws wl tok st.kv.filled st = some (r, st') ∧
      (r = TRANSFORMER_ERR_ALLOC ∨ r = TRANSFORMER_ERR_LAUNCH ∨ r = TRANSFORMER_ERR_CACHE) ∧
      ((∀ n, st.calls ≤ n → ok n = true) → r = TRANSFORMER_ERR_CACHE) ∧
      st'.kv = st.kv ∧ st.calls ≤ st'.calls ∧ Sound lay ctx.buddy.mem c st' := by
  have hr : Room (⟨dev, host, ok⟩ : Env).dev ws c lay ctx.buddy.mem := hs.room
  have hmax : st.kv.max_seq = 128 := h.place.max_seq.trans hs.suited.max_seq
  have hlt : st.kv.filled < 128 := hmax ▸ hstuck.2
  have hlayers : ws.cfg.num_layers = 23 + 1 := by
    rw [hs.loaded.cfg]
    rfl
  generalize hword : UInt32.ofInt tok = w
  have hclean : ∀ o ∈ opening host ws wl w st.kv.filled, Clean lay dev.fpu c st.kv.filled o := by
    intro o ho
    refine hr.clean (hr.step_fits hs.suited hlt w o ?_)
    rw [step_ops_split hlayers]
    exact List.mem_append_left _ ho
  -- The operations before the first append run as in any call.
  obtain ⟨m, hrun, hm⟩ := hr.run_spec h hclean (readyAll_quiet opening_quiet)
  rw [outcome_quiet opening_quiet] at hrun
  have hsound : ∀ n, Sound lay ctx.buddy.mem c ⟨st.ctx.setMem m, st.kv, n⟩ := h.after_all hclean hm rfl
  have hcalls := outcome_calls ok (opening host ws wl w st.kv.filled) st.calls st.kv
  have hcases := outcome_cases ok (opening host ws wl w st.kv.filled) st.calls st.kv
  have hgoes : (∀ n, st.calls ≤ n → ok n = true) →
      outcome ok (opening host ws wl w st.kv.filled) st.calls st.kv = _ :=
    fun hok => outcome_ok st.kv fun i _ => hok _ (Nat.le_add_right _ _)
  have hseq : seq (step_actions ⟨dev, host, ok⟩ ws wl (UInt32.ofInt tok) st.kv.filled) st =
      (run_ops ⟨dev, host, ok⟩ ws st.kv.filled (opening host ws wl w st.kv.filled) st).bind fun r =>
        if r.1 ≠ TRANSFORMER_OK then some r
        else run_ops ⟨dev, host, ok⟩ ws st.kv.filled
          (.append 0 :: (remainder host ws wl c st.kv.filled 23 ++ [.commit])) r.2 := by
    rw [hword, step_eq hs.suited.layers hs.suited.cache_layers hs.suited.sized h.place,
      step_ops_split hlayers, run_ops_append]
  rw [hrun, Option.bind_some] at hseq
  simp only at hseq hcalls hcases
  generalize outcome ok (opening host ws wl w st.kv.filled) st.calls st.kv = out at *
  by_cases hcode : out.1 = TRANSFORMER_OK
  · -- They go well, and the append is refused.
    rw [if_neg (not_not.mpr hcode), append_stops ⟨st.ctx.setMem m, st.kv, out.2.2⟩ hstuck] at hseq
    refine ⟨_, _, step_of_error hlt hseq (append_code_ne _ _), ?_, fun hok => ?_, rfl,
      Nat.le_add_right_of_le hcalls, hsound _⟩
    · rcases append_code_cases ok out.2.2 with hbad | hbad
      · exact .inl hbad
      · exact .inr (.inr hbad)
    · have hboth : (ok out.2.2 && ok (out.2.2 + 1)) = true := by
        rw [hok _ hcalls, hok _ (Nat.le_add_right_of_le hcalls)]
        rfl
      exact if_pos hboth
  · rw [if_pos hcode] at hseq
    refine ⟨_, _, step_of_error hlt hseq hcode, ?_, fun hok => ?_, rfl, hcalls, hsound _⟩
    · rcases hcases with ⟨hgood, -⟩ | hbad | hbad
      · exact absurd hgood hcode
      · exact .inl hbad
      · exact .inr (.inl hbad)
    · exact absurd (congrArg Prod.fst (hgoes hok)) hcode

/-- The counters stay as they are over all later calls. -/
theorem Stage.stuck_run (hs : Stage dev host ws wl c ctx lay M) (ok : Nat → Bool) (toks : List Int)
    (h : Sound lay ctx.buddy.mem c st) (hstuck : Stuck st.kv) :
    ∃ rs st', keep_calling ⟨dev, host, ok⟩ ws wl toks st = some (rs, st') ∧
      rs.length = toks.length ∧ (∀ r ∈ rs, r = TRANSFORMER_ERR_ALLOC ∨ r = TRANSFORMER_ERR_LAUNCH ∨
        r = TRANSFORMER_ERR_CACHE) ∧
      ((∀ n, st.calls ≤ n → ok n = true) → ∀ r ∈ rs, r = TRANSFORMER_ERR_CACHE) ∧
      st'.kv = st.kv := by
  induction toks generalizing st with
  | nil => exact ⟨[], st, rfl, rfl, by simp, by simp, rfl⟩
  | cons tok toks ih =>
    obtain ⟨r, st1, hcode, hr, hok, hkv, hcalls, hsound⟩ := hs.stuck_step h hstuck tok ok
    obtain ⟨rs, st', hrun, hlen, hrs, hoks, hkv'⟩ := ih hsound (hkv ▸ hstuck)
    refine ⟨r :: rs, st', ?_, ?_, ?_, fun hall => ?_, hkv'.trans hkv⟩
    · rw [keep_calling, hcode]
      simp only [Option.bind_eq_bind, Option.bind_some, hrun]
      rfl
    · rw [List.length_cons, List.length_cons, hlen]
    · rw [List.forall_mem_cons]
      exact ⟨hr, hrs⟩
    · rw [List.forall_mem_cons]
      exact ⟨hok hall, hoks fun n hn => hall n (Nat.le_trans hcalls hn)⟩

/-- When the host refuses a call after the first append of a step, no later call of
`transformer_step` returns a token, whatever the tokens are and whichever calls go well; with a host
that refuses nothing more, every one of them returns the error of the cache. -/
theorem a_late_failure_ends_the_session (hprep : Prepared files ctx (some wl) (some c))
    (hinit : transformer_init dev host io ctx c transformer_default_config = some (some ws, ctx'))
    (hb : Between dev ws wl c ctx' st) (tok : Int) (ok : Nat → Bool)
    (hearly : ∀ i < 12, ok (st.calls + i) = true)
    (hfails : ∃ i < 1 + 23 * 24 + 3, ok (st.calls + i) = false) :
    ∃ r st', transformer_step ⟨dev, host, ok⟩ ws wl tok st.kv.filled st = some (r, st') ∧
      (r = TRANSFORMER_ERR_ALLOC ∨ r = TRANSFORMER_ERR_LAUNCH) ∧ st'.kv.filled = st.kv.filled ∧
      st.calls + 12 < st'.calls ∧
      ∀ toks, ∃ rs st'', keep_calling ⟨dev, host, ok⟩ ws wl toks st' = some (rs, st'') ∧
        rs.length = toks.length ∧ (∀ r ∈ rs, r = TRANSFORMER_ERR_ALLOC ∨ r = TRANSFORMER_ERR_LAUNCH ∨
          r = TRANSFORMER_ERR_CACHE) ∧
        ((∀ n, st'.calls ≤ n → ok n = true) → ∀ r ∈ rs, r = TRANSFORMER_ERR_CACHE) ∧
        st''.kv = st'.kv := by
  obtain ⟨lay, hs⟩ := stage_of_init hprep hinit
  obtain ⟨r, st', hst, hcode, ⟨⟨i, hi, hno⟩, -⟩ | ⟨-, hpending⟩⟩ := hs.failed_step hb tok ok hfails
  · rw [hearly i hi] at hno
    cases hno
  have hlayers : ws.cfg.num_layers = 23 + 1 := by
    rw [hs.loaded.cfg]
    rfl
  have hcost : cost_all (step_ops host ws wl c (UInt32.ofInt tok) st.kv.filled) = 1 + 23 * 24 + 3 := by
    rw [cost_step, hlayers]
  obtain ⟨hfilled, hcalls⟩ := late_stops hlayers st.kv hearly (hcost ▸ hfails)
  have hcounters : (st'.kv, st'.calls) = (outcome ok (step_ops host ws wl c (UInt32.ofInt tok)
    st.kv.filled) st.calls st.kv).2 := hst.counters
  rw [← hcounters] at hfilled hcalls
  have hstuck : Stuck st'.kv := by
    refine ⟨hpending, ?_⟩
    have hmax : st'.kv.max_seq = 128 := hst.sound.place.max_seq.trans hs.suited.max_seq
    have hroom := hb.filled
    simp only at hfilled
    omega
  exact ⟨r, st', hst.code, hcode, hfilled, hcalls, fun toks => hs.stuck_run ok toks hst.sound hstuck⟩

end

/-- The launch after the first append is refused, and then nothing more. All later calls return
the error of the cache. -/
theorem a_refused_launch_ends_the_session : ∃ ctx wl c ws ctx',
    setup (2 ^ 32) = some (ctx, wl, c, ws, ctx') ∧
    ∃ r st', transformer_step ⟨wordDevice, wordHost, fun n => n != 12⟩ ws wl (7 : Nat) c.filled
        ⟨ctx', c, 0⟩ = some (r, st') ∧
      ∀ toks, ∃ rs st'', keep_calling ⟨wordDevice, wordHost, fun n => n != 12⟩ ws wl toks st' =
        some (rs, st'') ∧ rs.length = toks.length ∧ ∀ r ∈ rs, r = TRANSFORMER_ERR_CACHE := by
  obtain ⟨⟨ctx, wl, c, ws, ctx'⟩, h⟩ := Option.isSome_iff_exists.mp setup_goes_well
  obtain ⟨hprep, hinit⟩ := setup_spec ⟨by decide, by decide⟩ h
  have hb : Between wordDevice ws wl c ctx' ⟨ctx', c, 0⟩ := between_fresh ctx' (hprep.fresh c rfl)
  have hearly : ∀ i < 12, (0 + i != 12) = true := by decide
  obtain ⟨r, st', hcode, -, -, hcalls, hlater⟩ := a_late_failure_ends_the_session hprep hinit hb (7 : Nat)
    (fun n => n != 12) hearly ⟨12, by decide, rfl⟩
  refine ⟨ctx, wl, c, ws, ctx', h, r, st', hcode, fun toks => ?_⟩
  obtain ⟨rs, st'', hrun, hlen, -, hall, -⟩ := hlater toks
  refine ⟨rs, st'', hrun, hlen, hall fun n hn => ?_⟩
  have hne : n ≠ 12 := by
    simp only at hcalls
    omega
  simpa using hne

end gpgpu.desk
