-- The two counters of the cache, for any sizes. An append or a commit that is refused
-- leaves both alone, and a token is counted just when all of its layers have come in
-- their order.
import Gpgpu.KvLaws

open memory runs

namespace gpgpu.kv

open context

/-! ## Calls and what they return -/

/-- The context, the cache, and the calls with their codes, the last one first. -/
structure Session where
  ctx : GpgpuCtx
  cache : KvCache
  calls : List (Call × Int)

/-- One call. It is `none` when an assertion fails. -/
def Session.call (s : Session) (c : Call) : Option Session :=
  match c with
  | .append layer K_new V_new =>
    (kv_cache_append_layer s.ctx s.cache layer K_new V_new).map fun (r, ctx, cache) =>
      ⟨ctx, cache, (c, r) :: s.calls⟩
  | .commit => (kv_cache_commit_token s.cache).map fun (r, cache) =>
      ⟨s.ctx, cache, (c, r) :: s.calls⟩

/-- The layers whose appends have returned 0 since the last commit that returned 0, in
the order of the calls. -/
def sinceCommit : List (Call × Int) → List Nat
  | [] => []
  | (.append layer _ _, r) :: rest =>
    if r = 0 then sinceCommit rest ++ [layer] else sinceCommit rest
  | (.commit, r) :: rest => if r = 0 then [] else sinceCommit rest

/-- The call commits a token of which each layer has come once, in order. -/
def Session.Closes (s : Session) (c : Call) : Prop :=
  c = .commit ∧ sinceCommit s.calls = List.range s.cache.num_layers

/-! ## One call -/

/-- The copies to the device are never refused. -/
theorem append_loop_code (c : KvCache) (K V stride row : Nat) (K_new V_new : Nat → UInt8)
    (n kh : Nat) (ctx : GpgpuCtx) :
    (append_loop c K V stride row K_new V_new n kh ctx).1 = 0 := by
  induction n generalizing kh ctx with
  | zero => rfl
  | succ n ih =>
    simp only [append_loop, gpuMemcpy, GPU_MEMCPY_H2D, if_true]
    rw [if_neg (by decide), if_neg (by decide)]
    exact ih _ _

/-- An append of the layer that is next, for buffers of any sizes. -/
theorem append_accepted (ctx : GpgpuCtx) {c : KvCache} (K_new V_new : Nat → UInt8)
    (hopen : c.filled < c.max_seq) (hl : c.pending < c.num_layers) :
    ∃ ctx', kv_cache_append_layer ctx c c.pending K_new V_new =
      some (0, ctx', { c with pending := c.pending + 1 }) := by
  unfold kv_cache_append_layer kv_cache_K_off kv_cache_V_off
  rw [if_neg (by omega), if_neg (by omega), if_neg (by simp), if_pos hl, if_pos hl]
  simp only [Option.bind_eq_bind, Option.bind_some, append_loop_code]
  exact ⟨_, rfl⟩

/-- The counters stay in their bounds, and `pending` counts the layers of the open
token. -/
structure Counted (c : KvCache) (s : Session) : Prop where
  place : s.cache.place = c.place
  filled_le : s.cache.filled ≤ s.cache.max_seq
  pending_le : s.cache.pending ≤ s.cache.num_layers
  pending_open : 0 < s.cache.pending → s.cache.filled < s.cache.max_seq
  since : sinceCommit s.calls = List.range s.cache.pending

/-- What a call does to the counters. -/
structure Answered (s : Session) (c : Call) (s' : Session) (r : Int) : Prop where
  logged : s'.calls = (c, r) :: s.calls
  refused : r ≠ 0 → s'.cache.filled = s.cache.filled ∧ s'.cache.pending = s.cache.pending
  closes : s.Closes c → s'.cache.filled = s.cache.filled + 1
  stays : ¬ s.Closes c → s'.cache.filled = s.cache.filled

variable {c : KvCache} {s : Session}

theorem Counted.append (h : Counted c s) (layer : Nat) (K_new V_new : Nat → UInt8) :
    ∃ s' r, s.call (.append layer K_new V_new) = some s' ∧
      Answered s (.append layer K_new V_new) s' r ∧ Counted c s' := by
  have hnever : ¬ s.Closes (.append layer K_new V_new) := fun hc => nomatch hc.1
  by_cases hok : s.cache.filled < s.cache.max_seq ∧ s.cache.pending < s.cache.num_layers ∧
      layer = s.cache.pending
  · obtain ⟨hopen, hl, rfl⟩ := hok
    obtain ⟨ctx', hcode⟩ := append_accepted s.ctx K_new V_new hopen hl
    refine ⟨_, 0, by simp only [Session.call, hcode]; rfl, ?_, ?_⟩
    · exact ⟨rfl, fun hr => absurd rfl hr, fun hc => absurd hc hnever, fun _ => rfl⟩
    · refine ⟨h.place, h.filled_le, hl, fun _ => hopen, ?_⟩
      simp only [sinceCommit, if_true]
      rw [h.since, List.range_succ]
  · obtain ⟨r, hcode, hr⟩ := append_refused s.ctx K_new V_new hok
    refine ⟨_, r, by simp only [Session.call, hcode]; rfl, ?_, ?_⟩
    · exact ⟨rfl, fun _ => ⟨rfl, rfl⟩, fun hc => absurd hc hnever, fun _ => rfl⟩
    · refine ⟨h.place, h.filled_le, h.pending_le, h.pending_open, ?_⟩
      simp only [sinceCommit, if_neg hr]
      exact h.since

/-- A commit closes a token just when `pending` has reached the number of layers. -/
theorem Counted.closes_iff (h : Counted c s) :
    s.Closes .commit ↔ s.cache.pending = s.cache.num_layers := by
  unfold Session.Closes
  rw [h.since]
  constructor
  · rintro ⟨-, hr⟩
    simpa using congrArg List.length hr
  · intro hp
    exact ⟨rfl, by rw [hp]⟩

/-- A commit that is refused finds no layer, or not all of them. -/
theorem commit_refused {c : KvCache} (hno : c.pending = 0 ∨ c.pending ≠ c.num_layers) :
    ∃ r, kv_cache_commit_token c = some (r, c) ∧ r ≠ 0 := by
  unfold kv_cache_commit_token
  split
  · exact ⟨-1, rfl, by decide⟩
  rw [if_pos (hno.resolve_left ‹_›)]
  exact ⟨-2, rfl, by decide⟩

theorem Counted.commit (h : Counted c s) (hlayers : 1 ≤ s.cache.num_layers) :
    ∃ s' r, s.call .commit = some s' ∧ Answered s .commit s' r ∧ Counted c s' := by
  by_cases hall : s.cache.pending = s.cache.num_layers
  · have hopen := h.pending_open (by omega)
    have hcode : kv_cache_commit_token s.cache =
        some (0, { s.cache with pending := 0, filled := s.cache.filled + 1 }) := by
      unfold kv_cache_commit_token
      rw [if_neg (by omega), if_neg (not_not.mpr hall), if_pos hopen]
    refine ⟨_, 0, by simp only [Session.call, hcode]; rfl, ?_, ?_⟩
    · refine ⟨rfl, fun hr => absurd rfl hr, fun _ => rfl, fun hc => ?_⟩
      exact absurd (h.closes_iff.mpr hall) hc
    · exact ⟨h.place, hopen, Nat.zero_le _, fun hp => absurd hp (Nat.lt_irrefl 0), rfl⟩
  · obtain ⟨r, hcode, hr⟩ := commit_refused (c := s.cache) (.inr hall)
    refine ⟨_, r, by simp only [Session.call, hcode]; rfl, ?_, ?_⟩
    · refine ⟨rfl, fun _ => ⟨rfl, rfl⟩, fun hc => ?_, fun _ => rfl⟩
      exact absurd (h.closes_iff.mp hc) hall
    · refine ⟨h.place, h.filled_le, h.pending_le, h.pending_open, ?_⟩
      simp only [sinceCommit, if_neg hr]
      exact h.since

theorem Counted.num_layers (h : Counted c s) : s.cache.num_layers = c.num_layers :=
  show s.cache.place.num_layers = c.place.num_layers by rw [h.place]

theorem Counted.call (h : Counted c s) (hlayers : 1 ≤ c.num_layers) (call : Call) :
    ∃ s' r, s.call call = some s' ∧ Answered s call s' r ∧ Counted c s' := by
  cases call with
  | append layer K_new V_new => exact h.append layer K_new V_new
  | commit => exact h.commit (by rw [h.num_layers]; exact hlayers)

/-! ## Every run -/

/-- From an empty cache of any sizes with a layer, after any calls in any order: the
counters are in their bounds, no assertion of a next call fails, a call that is refused
leaves the counters alone, and only a commit after each layer of the token in order counts
a token. -/
theorem a_token_is_counted_once_its_layers_are_in (ctx : GpgpuCtx) (hlayers : 1 ≤ c.num_layers)
    (hfilled : c.filled = 0) (hpending : c.pending = 0) (calls : List Call) :
    ∃ s, run Session.call ⟨ctx, c, []⟩ calls = some s ∧
      s.cache.place = c.place ∧
      s.cache.filled ≤ s.cache.max_seq ∧ s.cache.pending ≤ s.cache.num_layers ∧
      (0 < s.cache.pending → s.cache.filled < s.cache.max_seq) ∧
      ∀ call, ∃ s' r, s.call call = some s' ∧ Answered s call s' r := by
  have hstart : Counted c ⟨ctx, c, []⟩ := by
    refine ⟨rfl, ?_, ?_, ?_, ?_⟩
    · simp only
      omega
    · simp only
      omega
    · simp only
      omega
    · rw [hpending]
      rfl
  obtain ⟨s, hs, h⟩ := run_keeps (fun s call h => by
    obtain ⟨s', r, hcall, -, h'⟩ := Counted.call h hlayers call
    exact ⟨s', hcall, h'⟩) hstart calls
  refine ⟨s, hs, h.place, h.filled_le, h.pending_le, h.pending_open, fun call => ?_⟩
  obtain ⟨s', r, hcall, hans, -⟩ := h.call hlayers call
  exact ⟨s', r, hcall, hans⟩

/-- Two layers, one token, and calls out of order. -/
theorem two_layers_are_counted :
    ∃ s, run Session.call ⟨blankCtx, ⟨2, 1, 1, 1, 0, 64, 0, 0⟩, []⟩
        [.append 1 (fun _ => 0) (fun _ => 0), .append 0 (fun _ => 0) (fun _ => 0), .commit,
          .append 1 (fun _ => 0) (fun _ => 0)] = some s ∧
      s.cache.place = KvCache.place ⟨2, 1, 1, 1, 0, 64, 0, 0⟩ ∧
      s.cache.filled ≤ s.cache.max_seq ∧ s.cache.pending ≤ s.cache.num_layers ∧
      (0 < s.cache.pending → s.cache.filled < s.cache.max_seq) ∧
      ∀ call, ∃ s' r, s.call call = some s' ∧ Answered s call s' r :=
  a_token_is_counted_once_its_layers_are_in blankCtx (by decide) rfl rfl _

end gpgpu.kv
