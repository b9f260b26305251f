-- What the inference driver computes. It reads a prompt from a token file and writes the
-- tokens with which the reference decoder goes on, each one fed back, up to the end token.
import Gpgpu.CleanupLaws
import Gpgpu.RetryLaws
import Gpgpu.TokenLaws

open memory words buffers runs decimal

namespace gpgpu.infer_tokens

open buddy context kernels device kv weights transformer reference desk

/-! ## The greedy continuation -/

/-- The token is the end token. A negative one stands for none. -/
def Stops (eos_token : Int) (t : Nat) : Prop := 0 ≤ eos_token ∧ (t : Int) = eos_token

instance (eos_token : Int) (t : Nat) : Decidable (Stops eos_token t) := inferInstanceAs (Decidable (_ ∧ _))

/-- At most `n` tokens behind `toks`: each is the next one for what stands before it, and
behind the end token there is none. -/
def greedy (next : List Nat → Nat) (eos_token : Int) : Nat → List Nat → List Nat
  | 0, _ => []
  | n + 1, toks =>
    next toks :: if Stops eos_token (next toks) then [] else greedy next eos_token n (toks ++ [next toks])

/-- What follows the first of the tokens. -/
def follow (next : List Nat → Nat) (eos_token : Int) (n : Nat) (toks : List Nat) : List Nat :=
  if Stops eos_token (next toks) then [] else greedy next eos_token n (toks ++ [next toks])

theorem greedy_succ (next : List Nat → Nat) (eos_token : Int) (n : Nat) (toks : List Nat) :
    greedy next eos_token (n + 1) toks = next toks :: follow next eos_token n toks := rfl

theorem follow_zero (next : List Nat → Nat) (eos_token : Int) (toks : List Nat) :
    follow next eos_token 0 toks = [] := by
  unfold follow greedy
  split <;> rfl

theorem follow_succ {next : List Nat → Nat} {eos_token : Int} {toks : List Nat}
    (h : ¬ Stops eos_token (next toks)) (n : Nat) : follow next eos_token (n + 1) toks =
      next (toks ++ [next toks]) :: follow next eos_token n (toks ++ [next toks]) := by
  unfold follow
  rw [if_neg h, greedy_succ]
  rfl

/-! ## The loops -/

section

variable {env : Env} {ws : Workspace} {wl : WeightLoader} {lay : Layout Buf} {M : Model} {m0 : Mem}
  {toks : List Nat} {tok : Nat} {d : Desk} {s : Session}

/-- The token that the reference decoder finds for a list of tokens. -/
def nextToken (fpu : Fpu) (M : Model) (toks : List Nat) : Nat :=
  (reference_token fpu transformer_default_config M toks).toNat

/-- The library has taken in `toks`. -/
def TookIn (lay : Layout Buf) (m0 : Mem) (fpu : Fpu) (M : Model) (toks : List Nat) (s : Session) : Prop :=
  ∃ d, At lay m0 s.st d ∧ d.After fpu M toks

theorem step_follows (hl : desk.Loaded env ws wl lay M m0) (hpos : toks.length < 128) (htok : tok < 151936)
    (h : TookIn lay m0 env.dev.fpu M toks s) :
    ∃ s', step env ws wl (fun _ r => r) tok (int32 toks.length) s =
        some ((nextToken env.dev.fpu M (toks ++ [tok]) : Int), s') ∧
      TookIn lay m0 env.dev.fpu M (toks ++ [tok]) s' := by
  obtain ⟨d, hat, hafter⟩ := h
  obtain ⟨st', d', hcode, hat', hafter'⟩ := hl.step_spec hpos htok hat hafter
  refine ⟨⟨st', s.calls ++
    [⟨tok, toks.length, s.st.kv, nextToken env.dev.fpu M (toks ++ [tok])⟩]⟩, ?_, d', hat', hafter'⟩
  rw [step, int32_eq (by omega), hcode]
  simp only [Option.map_some, ite_self]
  rfl

theorem prefill_follows (hl : desk.Loaded env ws wl lay M m0) (more : List Nat) (hne : more ≠ [])
    (hlen : toks.length + more.length ≤ 128) (hids : ∀ x ∈ more, x < 151936) (next : Int)
    (h : TookIn lay m0 env.dev.fpu M toks s) :
    ∃ s', prefill env ws wl (fun _ r => r) toks.length (more.map Nat.cast) next s =
        some ((nextToken env.dev.fpu M (toks ++ more) : Int), s') ∧
      TookIn lay m0 env.dev.fpu M (toks ++ more) s' := by
  induction more generalizing toks s next with
  | nil => exact absurd rfl hne
  | cons x more ih =>
    rw [List.length_cons] at hlen
    obtain ⟨s1, hcode, h1⟩ := step_follows hl (by omega) (hids x (List.mem_cons_self ..)) h
    rw [List.map_cons, prefill, hcode, Option.bind_some]
    simp only
    rw [if_neg (by omega)]
    cases more with
    | nil => exact ⟨s1, rfl, h1⟩
    | cons y more =>
      obtain ⟨s2, hcode2, h2⟩ := ih (List.cons_ne_nil _ _) (by simp at hlen ⊢; omega)
        (fun z hz => hids z (List.mem_cons_of_mem _ hz)) (nextToken env.dev.fpu M (toks ++ [x])) h1
      rw [List.length_append, List.length_singleton] at hcode2
      rw [List.append_assoc] at hcode2 h2
      exact ⟨s2, hcode2, h2⟩

/-- The second loop has recorded the token behind `toks`, and goes on from there. -/
theorem generate_follows (hl : desk.Loaded env ws wl lay M m0) {max_new prompt_count : Nat}
    (eos_token : Int) {n i : Nat} {generated : List Int} (hi : 0 < i)
    (hlen : toks.length = prompt_count + i - 1) (hpos : toks.length + n ≤ 128)
    (hroom : generated.length + n ≤ max_new)
    (hids : ∀ t ∈ (nextToken env.dev.fpu M toks ::
      follow (nextToken env.dev.fpu M) eos_token n toks).dropLast, t < 151936)
    (h : TookIn lay m0 env.dev.fpu M toks s) :
    ∃ s', generate env ws wl (fun _ r => r) max_new prompt_count eos_token n i
        (nextToken env.dev.fpu M toks) generated s =
      some (true, generated ++ (follow (nextToken env.dev.fpu M) eos_token n toks).map Nat.cast, s') := by
  induction n generalizing i toks generated s with
  | zero =>
    rw [follow_zero]
    exact ⟨s, by rw [generate]; simp⟩
  | succ n ih =>
    rw [generate]
    by_cases hstop : Stops eos_token (nextToken env.dev.fpu M toks)
    · have hbreak : 0 ≤ eos_token ∧ (nextToken env.dev.fpu M toks : Int) = eos_token := hstop
      rw [if_pos hbreak, follow, if_pos hstop]
      exact ⟨s, by simp⟩
    · have hbreak : ¬ (0 ≤ eos_token ∧ (nextToken env.dev.fpu M toks : Int) = eos_token) := hstop
      have hsum : sub64 (add64 prompt_count i) 1 = toks.length := by
        unfold add64 sub64
        omega
      rw [follow_succ hstop] at hids ⊢
      rw [List.dropLast_cons_of_ne_nil (List.cons_ne_nil _ _)] at hids
      obtain ⟨s1, hcode, h1⟩ := step_follows hl (by omega) (hids _ (List.mem_cons_self ..)) h
      rw [if_neg hbreak, hsum, hcode, Option.bind_some]
      simp only
      rw [if_neg (by omega), record, if_pos (by omega), Option.bind_some]
      have hmore : (toks ++ [nextToken env.dev.fpu M toks]).length = toks.length + 1 := List.length_append
      have hrecorded : (generated ++ [(nextToken env.dev.fpu M
        (toks ++ [nextToken env.dev.fpu M toks]) : Int)]).length = generated.length + 1 := List.length_append
      obtain ⟨s2, hcode2⟩ := ih (i := i + 1) (by omega) (hmore.trans (by omega)) (by omega)
        (Nat.le_trans (by rw [hrecorded]) (show generated.length + 1 + n ≤ max_new by omega))
        (fun t ht => hids t (List.mem_cons_of_mem _ ht)) h1
      exact ⟨s2, hcode2.trans (by simp)⟩

theorem infer_follows (hl : desk.Loaded env ws wl lay M m0) (write_ok : Bool) {prompt : List Nat}
    {max_new : Nat} (eos_token : Int) (hne : prompt ≠ []) (hmax : 0 < max_new)
    (hlen : prompt.length + max_new ≤ 129) (hprompt : ∀ x ∈ prompt, x < 151936)
    (hids : ∀ t ∈ (greedy (nextToken env.dev.fpu M) eos_token max_new prompt).dropLast, t < 151936)
    (h : TookIn lay m0 env.dev.fpu M [] s) :
    ∃ calls s', infer env ws wl (fun _ r => r) write_ok (prompt.map Nat.cast) max_new eos_token s =
      some (⟨if write_ok then 0 else 1, calls,
        (greedy (nextToken env.dev.fpu M) eos_token max_new prompt).map Nat.cast⟩, s') := by
  obtain ⟨n, rfl⟩ : ∃ n, max_new = n + 1 := ⟨max_new - 1, by omega⟩
  obtain ⟨s1, hcode, h1⟩ := prefill_follows hl prompt hne (by simp; omega) hprompt (-1) h
  rw [List.nil_append] at hcode h1
  rw [greedy_succ] at hids
  have hroom : [(nextToken env.dev.fpu M prompt : Int)].length + n ≤ n + 1 := by simp; omega
  have hat : prompt.length = prompt.length + 1 - 1 := rfl
  obtain ⟨s2, hcode2⟩ := generate_follows hl eos_token Nat.one_pos hat (by omega) hroom hids h1
  refine ⟨s2.calls, s2, ?_⟩
  have hfirst : record (n + 1) [] (nextToken env.dev.fpu M prompt : Int) =
      some [(nextToken env.dev.fpu M prompt : Int)] := if_pos (Nat.succ_pos n)
  have hcode : prefill env ws wl (fun _ r => r) 0 (prompt.map Nat.cast) (-1) s = _ := hcode
  rw [infer, hcode, Option.bind_some]
  simp only
  rw [if_neg (by omega), hfirst, Option.bind_some, List.length_map, Nat.add_sub_cancel, hcode2, greedy_succ]
  simp

end

/-! ## `main` -/

section

variable {dev : Device} {host : Libm} {files : WeightFile → Option FileData} {io : MainIo}
  {prompt : List Nat}

/-- The calls of `main` before the first step go well. -/
def SetsUp (dev : Device) (host : Libm) (files : WeightFile → Option FileData) (io : MainIo) : Prop :=
  io.calloc_ok = true ∧ io.generated_ok = true ∧ ∃ ctx ctx1 ctx2 ctx3 wl c ws,
    gpuInit io.ctx io.fd io.vram_mmap io.slab_ok VRAM_SIZE = some (0, ctx) ∧
    weight_loader_load files io.load ctx = some (some wl, ctx1) ∧
    kv_cache_create ctx1 24 2 128 64 io.host_ok io.K_ok io.V_ok = some (some c, ctx2) ∧
    transformer_init dev host io.init ctx2 c transformer_default_config = some (some ws, ctx3)

/-- The tokens of the model that the files describe. -/
def fileToken (dev : Device) (host : Libm) (files : WeightFile → Option FileData) : List Nat → Nat :=
  nextToken dev.fpu (modelOf host files)

/-- The prompt of a file that `read_tokens` takes. -/
theorem prompt_of_file {clib : token_file.Host} {bytes : List UInt8}
    (hready : token_file.Ready clib (numbers bytes).length)
    (hread : token_file.read_tokens clib bytes = some (0, prompt.map Nat.cast)) :
    read_tokens (some ((numbers bytes).map clib.long)) = some (prompt.map Nat.cast) ∧ prompt ≠ [] := by
  have hvalues : read_tokens (some ((numbers bytes).map clib.long)) = some (prompt.map Nat.cast) := by
    rw [token_file.read_tokens_eq hready] at hread
    cases hids : read_tokens (some ((numbers bytes).map clib.long)) with
    | none => simp [hids] at hread
    | some ids => simpa [hids] using hread
  refine ⟨hvalues, ?_⟩
  rintro rfl
  rw [token_file.infer_read_tokens_eq] at hvalues
  split at hvalues
  next h => exact h.1 (by simpa using hvalues)
  next => cases hvalues

/-- What `main` does after its checks, when the library is set up. -/
theorem set_up_and_infer_follows (hup : SetsUp dev host files io) (hm : Mapped io.vram_mmap VRAM_SIZE)
    {max_new : Nat} (eos_token : Int) (hne : prompt ≠ []) (hmax : 0 < max_new)
    (hlen : prompt.length + max_new ≤ 129) (hprompt : ∀ x ∈ prompt, x < 151936)
    (hids : ∀ t ∈ (greedy (fileToken dev host files) eos_token max_new prompt).dropLast, t < 151936) :
    ∃ ctx calls last, gpuInit io.ctx io.fd io.vram_mmap io.slab_ok VRAM_SIZE = some (0, ctx) ∧
      set_up_and_infer dev host files io (fun _ => true) (fun _ r => r) (prompt.map Nat.cast) max_new
        eos_token ctx = some (⟨if io.write_ok then 0 else 1, calls,
          (greedy (fileToken dev host files) eos_token max_new prompt).map Nat.cast⟩, last) := by
  obtain ⟨-, hgenerated, ctx, ctx1, ctx2, ctx3, wl, c, ws, hgpu, hload, hcreate, hinit⟩ := hup
  have hnone : run context.step ⟨ctx, [], []⟩ [] = some ⟨ctx, [], []⟩ := rfl
  have hloaded : Provided files ctx1 (some wl) none := .load (.start hm hgpu hnone) hload
  have hprep : Prepared files ctx2 (some wl) (some c) := hloaded.prepared hcreate
  obtain ⟨lay, hs, hat, hafter⟩ := stage_begins hprep hinit fun _ _ => rfl
  have hbegin : TookIn lay ctx3.buddy.mem dev.fpu (modelOf host files) [] ⟨⟨ctx3, c, 0⟩, []⟩ :=
    ⟨_, hat, hafter⟩
  obtain ⟨calls, s, hinfer⟩ := infer_follows hs.loaded io.write_ok eos_token hne hmax hlen hprompt hids
    hbegin
  have hcreate' : kv_cache_create ctx1 transformer_default_config.num_layers
      transformer_default_config.num_kv_heads transformer_default_config.max_seq
      transformer_default_config.head_dim io.host_ok io.K_ok io.V_ok = some (some c, ctx2) := hcreate
  -- The calls behind the loops return too, whatever the loops have found.
  have hlen' : (prompt.map Nat.cast : List Int).length + max_new ≤ 129 := by rwa [List.length_map]
  obtain ⟨out, last, hcode, -⟩ := set_up_and_infer_spec (fun _ r => r) eos_token hm hgpu hmax hlen'
  refine ⟨ctx, calls, last, hgpu, hcode.trans ?_⟩
  unfold set_up_and_infer at hcode
  simp only [hload, Option.bind_some, hcreate', hinit, hgenerated, Bool.true_eq_false, if_false] at hcode
  rw [show infer _ _ _ _ _ _ _ _ _ = _ from hinfer, Option.bind_some] at hcode
  obtain ⟨ctx4, -, hlast⟩ := Option.map_eq_some_iff.mp hcode
  obtain ⟨rfl, rfl⟩ := Prod.mk.inj hlast
  rfl

/-- `main` from the ids that `read_tokens` has found. -/
theorem main_follows (hup : SetsUp dev host files io) (hm : Mapped io.vram_mmap VRAM_SIZE)
    {values : Option (List Int64)} (hvalues : read_tokens values = some (prompt.map Nat.cast))
    (hne : prompt ≠ []) (hprompt : ∀ x ∈ prompt, x < transformer_default_config.vocab_size)
    {max_new_long : Int64} (hmax : 0 < max_new_long.toInt)
    (hlen : prompt.length + max_new_long.toInt.toNat - 1 ≤ transformer_default_config.max_seq)
    {eos : Option Int64} (heos : ∀ e ∈ eos, 0 ≤ e.toInt ∧ e.toInt ≤ INT32_MAX)
    (hids : ∀ t ∈ (greedy (fileToken dev host files) ((eos.map Int64.toInt).getD (-1))
      max_new_long.toInt.toNat prompt).dropLast, t < transformer_default_config.vocab_size) :
    ∃ calls, main dev host files io (fun _ => true) (fun _ r => r) values max_new_long eos =
      some ⟨if io.write_ok then 0 else 1, calls, (greedy (fileToken dev host files)
        ((eos.map Int64.toInt).getD (-1)) max_new_long.toInt.toNat prompt).map Nat.cast⟩ := by
  have hmax_seq : transformer_default_config.max_seq = 128 := rfl
  obtain ⟨ctx, calls, last, hgpu, hcode⟩ := set_up_and_infer_follows hup hm
    ((eos.map Int64.toInt).getD (-1)) hne (by omega) (by omega) hprompt hids
  have heos' : ¬ (eos.any fun e => e.toInt < 0 || e.toInt > INT32_MAX) = true := by
    simp only [Option.any_eq_true, Bool.or_eq_true, decide_eq_true_eq, not_exists, not_and]
    intro e he
    have := heos e he
    omega
  have hroom : ¬ ((prompt.map Nat.cast : List Int).length > transformer_default_config.max_seq ∨
      sub64 (add64 (prompt.map Nat.cast : List Int).length max_new_long.toInt.toNat) 1 >
        transformer_default_config.max_seq) := by
    rw [List.length_map]
    unfold add64 sub64
    omega
  have hvocab : ¬ ((prompt.map Nat.cast : List Int).any fun id =>
      id < 0 || (UInt32.ofInt id).toNat ≥ transformer_default_config.vocab_size) = true := by
    simp only [List.any_eq_true, Bool.or_eq_true, decide_eq_true_eq, not_exists, not_and, List.mem_map]
    rintro _ ⟨x, hx, rfl⟩
    have hlt := hprompt x hx
    have hvocab_size : transformer_default_config.vocab_size = 151936 := rfl
    have hword : (UInt32.ofInt (x : Int)).toNat = x := by
      rw [word_of_int (by omega)]
      exact UInt32.toNat_ofNat_of_lt' (Nat.lt_trans hlt (by decide))
    omega
  refine ⟨calls, ?_⟩
  unfold main main_run
  simp only
  rw [if_neg (by omega), if_neg heos', hvalues]
  simp only
  rw [if_neg (by rw [hup.1]; decide), hgpu, Option.bind_some]
  simp only
  rw [if_neg (by decide), if_neg hroom, if_neg hvocab, hcode]
  rfl

end

/-! ## A device that always finds the token 0 -/

/-- A device on which every number is above minus infinity, and none above another. -/
def flatDevice : Device :=
  { wordDevice with fpu := { wordDevice.fpu with flt := fun a _ => decide (a = MINUS_INFINITY) } }

/-- `transformer_init` takes only the binaries of the device. -/
theorem init_congr {dev dev' : Device} (h : dev.binary = dev'.binary) (host : Libm) (io : InitIo)
    (ctx : GpgpuCtx) (c : KvCache) (cfg : Config) :
    transformer_init dev host io ctx c cfg = transformer_init dev' host io ctx c cfg := by
  have hload : ∀ ks ctx kbin, load_each dev io ks ctx kbin = load_each dev' io ks ctx kbin := by
    intro ks
    induction ks with
    | nil => exact fun _ _ => rfl
    | cons k ks ih =>
      intro ctx kbin
      simp only [load_each, h, ih]
  unfold transformer_init
  simp only [hload]

theorem flatDevice_sets_up : SetsUp flatDevice wordHost zeroFiles goodIo := by
  obtain ⟨⟨ctx2, wl, c, ws, ctx3⟩, h⟩ := Option.isSome_iff_exists.mp setup_goes_well
  obtain ⟨ctx, ctx1, hgpu, hload, hcreate, hinit⟩ := setup_cases h
  have hbinary : flatDevice.binary = wordDevice.binary := rfl
  exact ⟨rfl, rfl, ctx, ctx1, ctx2, ctx3, wl, c, ws, hgpu, hload, hcreate,
    (init_congr hbinary wordHost goodInit ctx2 c transformer_default_config).trans hinit⟩

/-- A product with zeros is zero. -/
theorem gemm_zeros {M K N : Nat} {A B : List Word} (hzero : ∀ i, B.getD i 0 = 0) (i : Nat) :
    (gemm flatDevice.fpu M K N A B).getD i 0 = 0 := by
  have hfold : ∀ (f : Nat → Word) (l : List Nat),
      l.foldl (fun acc k => flatDevice.fpu.fmadd (f k) 0 acc) 0 = 0 := by
    intro f l
    induction l with
    | nil => rfl
    | cons k l ih =>
      have hstep : flatDevice.fpu.fmadd (f k) 0 0 = 0 := by
        show f k * 0 + 0 = 0
        simp
      rw [List.foldl_cons, hstep, ih]
  unfold gemm
  simp only [hzero, hfold, List.getD_eq_getElem?_getD, List.getElem?_map]
  cases (List.range (M * N))[i]? <;> rfl

theorem zero_file_words (f : WeightFile) (n i : Nat) : (fileWords zeroFiles f 0 n).getD i 0 = 0 := by
  have hword : ∀ x, word (fileBytes zeroFiles f) x = 0 := fun x =>
    (word_congr (a := 0) (m := fun _ => 0) fun _ _ => rfl).trans rfl
  simp only [fileWords, vec, hword, List.getD_eq_getElem?_getD, List.getElem?_map]
  cases (List.range n)[i]? <;> rfl

/-- Of equal numbers the first one is the largest. -/
theorem flat_argmax {V : Nat} (hV : 32 ≤ V) {logits : List Word} (hzero : ∀ i, logits.getD i 0 = 0) :
    argmax flatDevice.fpu V logits = 0 := by
  have hturns : ∀ lane < 32, ∀ n, (List.range (n + 1)).foldl (fun best t =>
      let i := t * LANES + lane
      if i < V ∧ flatDevice.fpu.flt best.value (logits.getD i 0)
      then ⟨logits.getD i 0, UInt32.ofNat i⟩ else best)
      (⟨MINUS_INFINITY, 0x7F7FFFFF⟩ : Best) = ⟨0, UInt32.ofNat lane⟩ := by
    intro lane hlane n
    simp only [hzero]
    induction n with
    | zero =>
      rw [List.range_one, List.foldl_cons, List.foldl_nil, if_pos ⟨by omega, rfl⟩, Nat.zero_mul, Nat.zero_add]
    | succ n ih =>
      rw [List.range_succ, List.foldl_append, ih, List.foldl_cons, List.foldl_nil]
      exact if_neg fun h => absurd h.2 (show ¬ decide ((0 : Word) = MINUS_INFINITY) = true by decide)
  obtain ⟨n, hn⟩ : ∃ n, (V + 31) / LANES = n + 1 := ⟨(V + 31) / 32 - 1, by unfold LANES; omega⟩
  have hphase : ∀ lane < 32, phase_a flatDevice.fpu V logits lane = ⟨0, UInt32.ofNat lane⟩ := by
    intro lane hlane
    unfold phase_a phaseA_loop
    rw [hn]
    exact hturns lane hlane n
  unfold argmax after_shuffles
  simp (disch := decide) only [List.take, shuffle, hphase, Nat.reduceXor]
  decide

theorem flat_token : fileToken flatDevice wordHost zeroFiles = fun _ => 0 := by
  have hvocab : 32 ≤ transformer_default_config.vocab_size := by decide
  have hzero : ∀ i, (modelOf wordHost zeroFiles).lm_head.getD i 0 = 0 := by
    simp only [modelOf]
    exact zero_file_words .lm_head (WL_HIDDEN_SIZE * WL_VOCAB_SIZE)
  funext toks
  unfold fileToken nextToken reference_token reference.next times
  rw [flat_argmax hvocab (gemm_zeros hzero)]
  rfl

/-! ## The law -/

/-- For every file that `read_tokens` takes, with ids below the size of the vocabulary, the
tokens that `main` writes are the greedy continuation of the reference decoder, as long as the
tokens that are fed back are ids. -/
theorem the_driver_writes_the_greedy_continuation (dev : Device) (host : Libm)
    (files : WeightFile → Option FileData) (io : MainIo) (hm : Mapped io.vram_mmap VRAM_SIZE)
    (hup : SetsUp dev host files io) (clib : token_file.Host) (bytes : List UInt8) (prompt : List Nat)
    (hready : token_file.Ready clib (numbers bytes).length)
    (hread : token_file.read_tokens clib bytes = some (0, prompt.map Nat.cast))
    (hprompt : ∀ x ∈ prompt, x < transformer_default_config.vocab_size) (max_new_long : Int64)
    (hmax : 0 < max_new_long.toInt)
    (hlen : prompt.length + max_new_long.toInt.toNat - 1 ≤ transformer_default_config.max_seq)
    (eos : Option Int64) (heos : ∀ e ∈ eos, 0 ≤ e.toInt ∧ e.toInt ≤ INT32_MAX)
    (hids : ∀ t ∈ (greedy (fileToken dev host files) ((eos.map Int64.toInt).getD (-1))
      max_new_long.toInt.toNat prompt).dropLast, t < transformer_default_config.vocab_size) :
    ∃ calls, main dev host files io (fun _ => true) (fun _ r => r)
        (some ((numbers bytes).map clib.long)) max_new_long eos =
      some ⟨if io.write_ok then 0 else 1, calls, (greedy (fileToken dev host files)
        ((eos.map Int64.toInt).getD (-1)) max_new_long.toInt.toNat prompt).map Nat.cast⟩ := by
  obtain ⟨hvalues, hne⟩ := prompt_of_file hready hread
  exact main_follows hup hm hvalues hne hprompt hmax hlen heos hids

/-- The prompt of one token goes on with three tokens, of which two are fed back. -/
theorem a_prompt_goes_on_with_three_tokens : ∃ calls,
    main flatDevice wordHost zeroFiles goodIo (fun _ => true) (fun _ r => r)
      (some ((numbers [55, 10]).map token_file.smallHost.long)) 3 none = some ⟨0, calls, [0, 0, 0]⟩ := by
  have h := the_driver_writes_the_greedy_continuation flatDevice wordHost zeroFiles goodIo
    ⟨by decide, by decide⟩ flatDevice_sets_up token_file.smallHost [55, 10] [7]
    ⟨rfl, rfl, by decide, by decide +kernel⟩ (by decide +kernel) (by decide) 3 (by decide) (by decide) none
    (by simp) (by rw [flat_token]; decide)
  rw [flat_token] at h
  exact h

end gpgpu.infer_tokens
