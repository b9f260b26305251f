-- The laws of the token files. What a writer writes, `read_tokens` reads back, whatever the
-- length and however often the buffer doubles. But it also takes a file that only starts with
-- token ids, so it does not accept just its format.
import Gpgpu.TokenFile

namespace gpgpu.token_file

open decimal infer_tokens

variable {host : Host} {input bytes : List UInt8} {cap turns : Nat} {ids tokens : List Int}

/-! ## The loop -/

/-- A number that the loop takes. -/
def fits (host : Host) (v : Int) : Bool :=
  0 ≤ (host.long v).toInt && (host.long v).toInt ≤ INT32_MAX

theorem fits_iff {v : Int} :
    fits host v = true ↔ 0 ≤ (host.long v).toInt ∧ (host.long v).toInt ≤ INT32_MAX := by
  simp [fits]

/-- The host opens the file, reads it without an error, and has memory for a buffer of twice
`n` tokens. -/
structure Ready (host : Host) (n : Nat) : Prop where
  opens : host.fopen_ok = true
  reads : host.ferror = false
  first : 256 ≤ host.memory
  grows : 2 * n * SIZEOF_INT32 ≤ host.memory

theorem toInt32_of_fits {v : Int} (h : fits host v = true) :
    (host.long v).toInt32.toInt = (host.long v).toInt := by
  obtain ⟨h1, h2⟩ := fits_iff.mp h
  unfold INT32_MAX at h2
  rw [Int64.toInt_toInt32]
  exact Int.bmod_eq_of_le (by norm_num; omega) (by norm_num; omega)

/-- The loop takes the numbers that the input starts with, or stops at the first that does not
fit. The buffer has at most twice the room that it needs. -/
theorem read_loop_eq (hturns : input.length < turns) (hcap : cap = 64 ∨ cap < 2 * ids.length)
    (hlen : ids.length ≤ cap) (hmem : 2 * (ids.length + (numbers input).length) * SIZEOF_INT32 ≤ host.memory)
    (hfirst : 256 ≤ host.memory) :
    read_loop host turns input cap ids =
      some (if (numbers input).all (fits host) then
        some (ids ++ (numbers input).map fun v => (host.long v).toInt) else none) := by
  induction turns generalizing input cap ids with
  | zero => omega
  | succ turns ih =>
    rw [numbers_eq] at hmem ⊢
    rw [read_loop, fscanf_ld]
    cases hscan : scan input with
    | none => simp
    | some r =>
      obtain ⟨v, rest⟩ := r
      have hrest := scan_length hscan
      have hlt := host.memory_lt
      rw [hscan] at hmem
      simp only [List.length_cons, SIZEOF_INT32] at hmem
      simp only [Option.map_some, List.all_cons, List.map_cons]
      by_cases hfits : fits host v = true
      · have hrange := fits_iff.mp hfits
        rw [if_neg (by omega), hfits, Bool.true_and, toInt32_of_fits hfits]
        -- The block has room for one more token, whether it has just grown or not.
        have hgrown : ∃ cap', (if ids.length = cap then cap * 2 % 2 ^ 64 else cap) = cap' ∧
            (cap' = 64 ∨ cap' < 2 * (ids.length + 1)) ∧ ids.length + 1 ≤ cap' ∧
            buffer_bytes cap' = cap' * SIZEOF_INT32 ∧
            (ids.length = cap → cap' * SIZEOF_INT32 ≤ host.memory) := by
          unfold buffer_bytes SIZEOF_INT32
          by_cases hfull : ids.length = cap
          · exact ⟨cap * 2, by rw [if_pos hfull]; omega, by omega, by omega, by omega, by omega⟩
          · exact ⟨cap, if_neg hfull, by omega, by omega, by omega, fun h => absurd h hfull⟩
        obtain ⟨cap', hcap', hbound, hroom, hbytes, hgrant⟩ := hgrown
        rw [hcap', hbytes, if_neg fun h => absurd (hgrant h.1) (Nat.not_le.mpr h.2),
          if_pos (Nat.mul_le_mul_right _ hroom)]
        rw [ih (by omega) (by simpa using hbound) (by simpa using hroom) (by simp [SIZEOF_INT32]; omega)]
        simp [List.append_assoc]
      · have hrange := mt fits_iff.mpr hfits
        rw [if_pos (by omega)]
        simp [hfits]

/-- The numbers that the model of the driver takes, in the words of this one. -/
theorem infer_read_tokens_eq (vs : List Int) :
    infer_tokens.read_tokens (some (vs.map host.long)) =
      if vs ≠ [] ∧ vs.all (fits host) = true then some (vs.map fun v => (host.long v).toInt) else none := by
  have hany : ((vs.map host.long).any fun v => v.toInt < 0 || v.toInt > INT32_MAX) = !vs.all (fits host) := by
    rw [List.any_map, List.not_all_eq_any_not]
    congr 1
    funext v
    simp only [Function.comp_apply, fits, Bool.not_and]
    congr 1 <;> simp [← decide_not]
  unfold infer_tokens.read_tokens
  rw [Option.bind_some, hany]
  cases hall : vs.all (fits host) with
  | false => simp
  | true =>
    cases vs with
    | nil => simp
    | cons v vs => simp

/-- What `read_tokens` returns, from the numbers that the file starts with. -/
theorem read_tokens_eq (h : Ready host (numbers bytes).length) : read_tokens host bytes =
    some (match infer_tokens.read_tokens (some ((numbers bytes).map host.long)) with
      | some ids => (0, ids)
      | none => (-1, [])) := by
  have hfirst := h.first
  have hloop : read_loop host (bytes.length + 1) bytes 64 [] = _ :=
    read_loop_eq (Nat.lt_succ_self _) (.inl rfl) (Nat.zero_le _)
      (by rw [List.length_nil, Nat.zero_add]; exact h.grows) h.first
  unfold read_tokens
  rw [h.opens, if_neg (by decide), if_neg (by unfold buffer_bytes SIZEOF_INT32; omega), hloop, h.reads,
    infer_read_tokens_eq]
  cases hall : (numbers bytes).all (fits host) with
  | false => simp
  | true =>
    cases numbers bytes with
    | nil => simp
    | cons v vs => simp

/-- `read_tokens` returns 0 just when the file starts with a number, and all the numbers that it
starts with fit. -/
theorem read_tokens_zero_iff (h : Ready host (numbers bytes).length) :
    ((read_tokens host bytes).map Prod.fst = some 0 ↔
      numbers bytes ≠ [] ∧ ∀ v ∈ numbers bytes, fits host v = true) ∧
    ((read_tokens host bytes).map Prod.fst = some (-1) ↔
      ¬ (numbers bytes ≠ [] ∧ ∀ v ∈ numbers bytes, fits host v = true)) := by
  rw [read_tokens_eq h, infer_read_tokens_eq, ← List.all_eq_true]
  by_cases hok : numbers bytes ≠ [] ∧ (numbers bytes).all (fits host) = true
  · rw [if_pos hok]
    exact ⟨iff_of_true rfl hok, iff_of_false (by simp) (not_not.mpr hok)⟩
  · rw [if_neg hok]
    exact ⟨iff_of_false (by simp) hok, iff_of_true rfl hok⟩

/-! ## What is written is read back -/

theorem numeral_fprintf {t : Int} (h : 0 ≤ t) : Numeral (fprintf_d t) t := by
  have hprint := numeral_digits (print_ne_nil t.natAbs) (print_digits t.natAbs)
  rw [value_print, Int.natAbs_of_nonneg h] at hprint
  rwa [fprintf_d, if_neg (by omega)]

/-- Behind a token comes a blank. -/
theorem noDigit_write (i : Nat) (tokens : List Int) : NoDigit (write_loop (i + 1) tokens ++ [10]) := by
  intro c hc
  cases tokens with
  | nil =>
    obtain rfl : 10 = c := by simpa [write_loop] using hc
    rfl
  | cons t tokens =>
    obtain rfl : 32 = c := by simpa [write_loop] using hc
    rfl

theorem numbers_write_loop (i : Nat) (h : ∀ t ∈ tokens, 0 ≤ t) :
    numbers (write_loop i tokens ++ [10]) = tokens := by
  induction tokens generalizing i with
  | nil => rfl
  | cons t tokens ih =>
    have hscan : scan (write_loop i (t :: tokens) ++ [10]) = some (t, write_loop (i + 1) tokens ++ [10]) := by
      rw [write_loop, List.append_assoc, List.append_assoc]
      refine scan_numeral (fun c hc => ?_) (numeral_fprintf (h t (List.mem_cons_self ..)))
        (noDigit_write i tokens)
      split at hc
      · cases hc
      · obtain rfl := List.mem_singleton.mp hc
        rfl
    rw [numbers_eq, hscan]
    exact congrArg (t :: ·) (ih (i + 1) fun t' ht' => h t' (List.mem_cons_of_mem _ ht'))

/-- The two writers write the same bytes. -/
theorem tokenize_qwen_eq (tokens : List Int) : tokenize_qwen tokens = write_generated tokens := by
  have hrest : ∀ t : Int, ∀ tokens : List Int, ∀ i, [32].intercalate ((t :: tokens).map fprintf_d) =
      fprintf_d t ++ write_loop (i + 1) tokens := by
    intro t tokens
    induction tokens generalizing t with
    | nil => simp [List.intercalate, write_loop]
    | cons t' tokens ih =>
      intro i
      have ih := ih t' (i + 1)
      simp only [List.intercalate, List.map_cons, List.intersperse_cons_cons, List.flatten_cons] at ih ⊢
      rw [ih, write_loop, if_neg (Nat.succ_ne_zero i)]
      simp
  unfold tokenize_qwen write_generated
  cases tokens with
  | nil => rfl
  | cons t tokens => rw [hrest t tokens 0, write_loop, if_pos rfl, List.nil_append]

/-- A token file is read back as it was written, by either writer. -/
theorem a_token_file_reads_back (hready : Ready host tokens.length) (hne : tokens ≠ [])
    (hrange : ∀ t ∈ tokens, 0 ≤ t ∧ t ≤ INT32_MAX) :
    read_tokens host (write_generated tokens) = some (0, tokens) ∧
      read_tokens host (tokenize_qwen tokens) = some (0, tokens) := by
  have hnumbers : numbers (write_generated tokens) = tokens :=
    numbers_write_loop 0 fun t ht => (hrange t ht).1
  have hlong : ∀ t ∈ tokens, (host.long t).toInt = t := by
    intro t ht
    obtain ⟨h1, h2⟩ := hrange t ht
    unfold INT32_MAX at h2
    exact host.long_eq t (by omega) (by omega)
  have hall : tokens.all (fits host) = true := by
    rw [List.all_eq_true]
    intro t ht
    rw [fits_iff, hlong t ht]
    exact hrange t ht
  have hread : read_tokens host (write_generated tokens) = some (0, tokens) := by
    rw [read_tokens_eq (hnumbers.symm ▸ hready), hnumbers, infer_read_tokens_eq, if_pos ⟨hne, hall⟩,
      List.map_congr_left hlong, List.map_id']
  rw [tokenize_qwen_eq]
  exact ⟨hread, hread⟩

/-- A host with a megabyte, on which a number that is too large becomes 0. -/
def smallHost : Host where
  long v := if -2 ^ 63 ≤ v ∧ v < 2 ^ 63 then Int64.ofInt v else 0
  long_eq v h1 h2 := by
    rw [if_pos ⟨h1, h2⟩]
    exact Int64.toInt_ofInt_of_le (by omega) (by omega)
  memory := 2 ^ 20
  memory_lt := by decide
  fopen_ok := true
  ferror := false

/-- A prompt of 200 tokens, for which a buffer of 64 grows twice. -/
def longPrompt : List Int := (List.range 200).map fun i => 151444 + (i : Int)

theorem a_long_prompt_reads_back :
    64 < longPrompt.length ∧ read_tokens smallHost (write_generated longPrompt) = some (0, longPrompt) ∧
      read_tokens smallHost (tokenize_qwen longPrompt) = some (0, longPrompt) :=
  ⟨by decide +kernel, a_token_file_reads_back ⟨rfl, rfl, by decide +kernel, by decide +kernel⟩
    (by decide +kernel) (by decide +kernel)⟩

/-! ## What is accepted -/

/-- The format of a token file: numbers from 0 to `INT32_MAX`, with blanks between them, and
blanks before and behind them if you like. -/
inductive Tokens : List UInt8 → List Int → Prop
  | blank {s : List UInt8} (hs : ∀ c ∈ s, space c = true) : Tokens s []
  | token {s w rest : List UInt8} {v : Int} {vs : List Int} (hs : ∀ c ∈ s, space c = true)
      (hw : Numeral w v) (hv : 0 ≤ v ∧ v ≤ INT32_MAX) (hsep : ∀ c ∈ rest.head?, space c = true)
      (hrest : Tokens rest vs) : Tokens (s ++ (w ++ rest)) (v :: vs)

/-- The file has the format, with one token at least. -/
def WellFormed (bytes : List UInt8) : Prop := ∃ vs, Tokens bytes vs ∧ vs ≠ []

theorem Tokens.range {vs : List Int} (h : Tokens bytes vs) : ∀ v ∈ vs, 0 ≤ v ∧ v ≤ INT32_MAX := by
  induction h with
  | blank hs => simp
  | token hs hw hv hsep _ ih =>
    intro v hmem
    rcases List.mem_cons.mp hmem with rfl | hmem
    · exact hv
    · exact ih v hmem

theorem Tokens.numbers {vs : List Int} (h : Tokens bytes vs) : numbers bytes = vs := by
  induction h with
  | @blank s hs =>
    have hscan : scan s = none := by
      have hdrop : (s ++ []).dropWhile space = [] := dropWhile_blank hs (by simp)
      rw [List.append_nil] at hdrop
      unfold scan
      rw [hdrop]
      rfl
    rw [numbers_eq, hscan]
  | @token s w rest v vs hs hw hv hsep _ ih =>
    have hno : NoDigit rest := by
      intro c hc
      have hsp := space_iff.mp (hsep c hc)
      by_contra hdigit
      have hd := digit_iff.mp (by simpa using hdigit)
      omega
    rw [numbers_eq, scan_numeral hs hw hno]
    exact congrArg (v :: ·) ih

/-- The bytes of the format. -/
theorem Tokens.chars {vs : List Int} (h : Tokens bytes vs) :
    ∀ c ∈ bytes, space c = true ∨ digit c = true ∨ c = 43 ∨ c = 45 := by
  have hnumeral : ∀ {w : List UInt8} {v : Int}, Numeral w v → ∀ c ∈ w,
      digit c = true ∨ c = 43 ∨ c = 45 := by
    intro w v hw c hc
    by_cases h1 : c = 43 ∨ c = 45
    · exact .inr h1
    · obtain ⟨c0, w, rfl⟩ := List.exists_cons_of_ne_nil hw.ne_nil
      refine .inl (hw.digits c ?_)
      unfold sign
      split
      · rename_i he
        obtain ⟨rfl, rfl⟩ := List.cons.inj he
        simpa [show c ≠ 43 from fun h => h1 (.inl h)] using hc
      · rename_i he
        obtain ⟨rfl, rfl⟩ := List.cons.inj he
        simpa [show c ≠ 45 from fun h => h1 (.inr h)] using hc
      · exact hc
  induction h with
  | blank hs => exact fun c hc => .inl (hs c hc)
  | token hs hw hv hsep _ ih =>
    intro c hc
    rcases List.mem_append.mp hc with hc | hc
    · exact .inl (hs c hc)
    · rcases List.mem_append.mp hc with hc | hc
      · exact .inr (hnumeral hw c hc)
      · exact ih c hc

/-- A file of the format is accepted. -/
theorem WellFormed.accepted (h : WellFormed bytes) :
    numbers bytes ≠ [] ∧ ∀ v ∈ numbers bytes, fits host v = true := by
  obtain ⟨vs, htokens, hne⟩ := h
  rw [htokens.numbers]
  refine ⟨hne, fun v hv => ?_⟩
  obtain ⟨h1, h2⟩ := htokens.range v hv
  rw [fits_iff, host.long_eq v (by omega) (by unfold INT32_MAX at h2; omega)]
  exact ⟨h1, h2⟩

/-- `read_tokens` decides the format right, just when the file starts with no number, or one of
the numbers that it starts with does not fit, or the whole file has the format. -/
theorem the_format_is_decided_iff_nothing_follows_the_tokens
    (hready : Ready host (numbers bytes).length) :
    ((read_tokens host bytes).map Prod.fst = some 0 ↔ WellFormed bytes) ∧
      ((read_tokens host bytes).map Prod.fst = some (-1) ↔ ¬ WellFormed bytes) ↔
    numbers bytes = [] ∨ (∃ v ∈ numbers bytes,
      ¬ (0 ≤ (host.long v).toInt ∧ (host.long v).toInt ≤ INT32_MAX)) ∨ WellFormed bytes := by
  obtain ⟨hzero, hminus⟩ := read_tokens_zero_iff hready
  rw [hzero, hminus]
  constructor
  · rintro ⟨hiff, -⟩
    by_cases hnil : numbers bytes = []
    · exact .inl hnil
    · by_cases hall : ∀ v ∈ numbers bytes, fits host v = true
      · exact .inr (.inr (hiff.mp ⟨hnil, hall⟩))
      · obtain ⟨v, hv, hno⟩ := by simpa only [not_forall] using hall
        exact .inr (.inl ⟨v, hv, mt fits_iff.mpr hno⟩)
  · intro h
    have hiff : (numbers bytes ≠ [] ∧ ∀ v ∈ numbers bytes, fits host v = true) ↔ WellFormed bytes := by
      refine ⟨fun ⟨hne, hall⟩ => ?_, WellFormed.accepted⟩
      rcases h with hnil | ⟨v, hv, hno⟩ | hwell
      · exact absurd hnil hne
      · exact absurd (fits_iff.mp (hall v hv)) hno
      · exact hwell
    exact ⟨hiff, not_congr hiff⟩

/-- A token with a blank on each side is accepted. -/
theorem a_lone_token_is_decided :
    ((read_tokens smallHost [32, 55, 10]).map Prod.fst = some 0 ↔ WellFormed [32, 55, 10]) ∧
      ((read_tokens smallHost [32, 55, 10]).map Prod.fst = some (-1) ↔ ¬ WellFormed [32, 55, 10]) := by
  have htokens : Tokens ([32] ++ ([55] ++ [10])) [7] :=
    .token (by decide +kernel) ⟨by decide +kernel, by decide +kernel, by decide +kernel⟩ (by decide)
      (by decide +kernel) (.blank (by decide +kernel))
  exact (the_format_is_decided_iff_nothing_follows_the_tokens ⟨rfl, rfl, by decide, by decide⟩).mpr
    (.inr (.inr ⟨[7], htokens, by decide⟩))

/-- The file `7 ids` is taken for the prompt 7. -/
theorem text_behind_a_token_is_dropped :
    read_tokens smallHost [55, 32, 105, 100, 115] = some (0, [7]) ∧ ¬ WellFormed [55, 32, 105, 100, 115] := by
  refine ⟨by decide +kernel, fun ⟨vs, h, _⟩ => ?_⟩
  exact absurd (h.chars 105 (by decide)) (by decide +kernel)

end gpgpu.token_file
