-- The laws of the dump. The table of the tool and the table of the loader are one: what
-- the tool writes for a tensor is what the loader and the kernels read there.
import Gpgpu.Dump
import Gpgpu.TensorLaws

open memory words strided

namespace gpgpu.dump

open weights kernels desk

/-! ## One table -/

/-- The `K` and `N` that a layer hands to `gemm` for a matrix; `none` for a vector. -/
def matrix : Tensor → Option (Nat × Nat)
  | .q_proj_w => some (WL_HIDDEN_SIZE, WL_HIDDEN_SIZE)
  | .k_proj_w => some (WL_HIDDEN_SIZE, WL_KV_DIM)
  | .v_proj_w => some (WL_HIDDEN_SIZE, WL_KV_DIM)
  | .o_proj_w => some (WL_HIDDEN_SIZE, WL_HIDDEN_SIZE)
  | .gate_proj_w => some (WL_HIDDEN_SIZE, WL_INTERMEDIATE)
  | .up_proj_w => some (WL_HIDDEN_SIZE, WL_INTERMEDIATE)
  | .down_proj_w => some (WL_INTERMEDIATE, WL_HIDDEN_SIZE)
  | _ => none

/-- The shape of a tensor on the device. -/
def device_shape (t : Tensor) : List Nat :=
  match matrix t with
  | some (K, N) => [K, N]
  | none => [(TENSOR_TABLE t).n_floats]

/-- The shape of a tensor in a checkpoint. -/
def checkpoint_shape (t : Tensor) : List Nat :=
  match matrix t with
  | some (K, N) => [N, K]
  | none => [(TENSOR_TABLE t).n_floats]

def Slot.bytes (slot : Slot) : Nat := slot.expected_shape.foldl (· * ·) 4

/-- What the loader knows of a tensor, as an entry for the tool. -/
def slotFor (t : Tensor) : Slot := ⟨t, (TENSOR_TABLE t).offset, device_shape t⟩

theorem LAYER_OFFSETS_eq : LAYER_OFFSETS = layer_tensors.map slotFor := rfl

theorem slotFor_bytes (t : Tensor) : (slotFor t).bytes = (TENSOR_TABLE t).bytes := by
  cases t <;> rfl

theorem device_shape_prod (t : Tensor) : (device_shape t).prod = (TENSOR_TABLE t).n_floats := by
  cases t <;> rfl

theorem needs_transpose_iff (t : Tensor) : t ∈ NEEDS_TRANSPOSE ↔ (matrix t).isSome := by
  cases t <;> decide

/-- The slots follow one another from `start` to `stop`. -/
def Tiles : Nat → List Slot → Nat → Prop
  | start, [], stop => start = stop
  | start, slot :: slots, stop => slot.offset = start ∧ Tiles (start + slot.bytes) slots stop

theorem tiles_layer : Tiles 0 LAYER_OFFSETS WL_LAYER_BYTES := by
  unfold LAYER_OFFSETS
  repeat' constructor

theorem Tiles.le {start stop : Nat} {slots : List Slot} (h : Tiles start slots stop) :
    start ≤ stop ∧ ∀ slot ∈ slots, start ≤ slot.offset ∧ slot.offset + slot.bytes ≤ stop := by
  induction slots generalizing start with
  | nil => exact ⟨Nat.le_of_eq h, by simp⟩
  | cons slot slots ih =>
    obtain ⟨hoff, hrest⟩ := h
    obtain ⟨hle, hall⟩ := ih hrest
    refine ⟨by omega, fun other hother => ?_⟩
    rcases List.mem_cons.mp hother with rfl | hother
    · omega
    · have := hall other hother
      omega

theorem Tiles.apart {start stop : Nat} {slots : List Slot} (h : Tiles start slots stop) :
    slots.Pairwise fun a b => a.offset + a.bytes ≤ b.offset := by
  induction slots generalizing start with
  | nil => exact List.Pairwise.nil
  | cons slot slots ih =>
    obtain ⟨hoff, hrest⟩ := h
    refine List.pairwise_cons.mpr ⟨fun other hother => ?_, ih hrest⟩
    rw [hoff]
    exact (hrest.le.2 other hother).1

theorem Tiles.covers {start stop x : Nat} {slots : List Slot} (h : Tiles start slots stop)
    (hx : start ≤ x ∧ x < stop) : ∃ slot ∈ slots, slot.offset ≤ x ∧ x < slot.offset + slot.bytes := by
  induction slots generalizing start with
  | nil =>
    have : start = stop := h
    omega
  | cons slot slots ih =>
    obtain ⟨hoff, hrest⟩ := h
    by_cases hin : x < start + slot.bytes
    · exact ⟨slot, List.mem_cons_self, by omega, by omega⟩
    · obtain ⟨other, hother, hin⟩ := ih hrest ⟨by omega, hx.2⟩
      exact ⟨other, List.mem_cons_of_mem _ hother, hin⟩

/-! ## Bytes of words -/

/-- The bytes of a list of words. -/
def bytesList (ws : List Word) : List UInt8 := (List.range (4 * ws.length)).map (bytesOf ws)

@[simp] theorem bytesList_length (ws : List Word) : (bytesList ws).length = 4 * ws.length := by
  simp [bytesList]

theorem bytesList_getD (ws : List Word) {i : Nat} (h : i < 4 * ws.length) :
    (bytesList ws).getD i 0 = bytesOf ws i := by
  simp [bytesList, h]

/-! ## The tool functions -/

variable {α : Type} {cast : α → Word} {ckpt : Checkpoint α}

/-- The bytes of a tensor are those of its elements in row-major order. -/
theorem tensor_to_fp32_bytes_eq (t : View α) :
    tensor_to_fp32_bytes cast t = bytesList (t.toList.map cast) := by
  unfold tensor_to_fp32_bytes bytesList
  split <;> simp

section

variable {buf data : List UInt8} {start stop : Nat}

theorem assign_slice_length (hfit : start + data.length = stop) (hstop : stop ≤ buf.length) :
    (assign_slice buf start stop data).length = buf.length := by
  unfold assign_slice
  simp only [List.length_append, List.length_take, List.length_drop]
  omega

theorem assign_slice_inside (hfit : start + data.length = stop) (hstop : stop ≤ buf.length)
    {i : Nat} (hi : i < data.length) :
    (assign_slice buf start stop data).getD (start + i) 0 = data.getD i 0 := by
  unfold assign_slice
  have hlen : (buf.take start).length = start := by
    rw [List.length_take]
    omega
  rw [List.append_assoc, List.getD_append_right _ _ _ _ (by omega), hlen, Nat.add_sub_cancel_left,
    List.getD_append _ _ _ _ hi]

theorem assign_slice_outside (hfit : start + data.length = stop) (hstop : stop ≤ buf.length) {x : Nat}
    (hx : x < start ∨ stop ≤ x) : (assign_slice buf start stop data).getD x 0 = buf.getD x 0 := by
  unfold assign_slice
  have hlen : (buf.take start).length = start := by
    rw [List.length_take]
    omega
  rcases hx with hx | hx
  · rw [List.append_assoc, List.getD_append _ _ _ _ (by omega)]
    simp [List.getD_eq_getElem?_getD, hx]
  · rw [List.getD_append_right _ _ _ _ (by simp; omega)]
    simp only [List.getD_eq_getElem?_getD, List.getElem?_drop, List.length_append, hlen]
    congr 2
    omega

end

/-! ## One layer -/

/-- The words of a tensor as they go to a file. -/
def fileOrder (cast : α → Word) (t : Tensor) (W : View α) : List Word :=
  (if (matrix t).isSome then W.transpose.toList else W.toList).map cast

theorem fileOrder_length {t : Tensor} {W : View α} (hshape : W.shape = checkpoint_shape t) :
    (fileOrder cast t W).length = (TENSOR_TABLE t).n_floats := by
  rw [← device_shape_prod]
  unfold fileOrder device_shape
  unfold checkpoint_shape at hshape
  cases hm : matrix t with
  | none => simp [hm] at hshape ⊢; simp [hshape]
  | some KN =>
    obtain ⟨K, N⟩ := KN
    simp only [hm] at hshape
    simp [View.shape_transpose hshape]

theorem assert_shape_ok {name : Name} {W : View α} {expected : List Nat} (h : W.shape = expected) :
    assert_shape name W expected = .ok () := by
  unfold assert_shape
  rw [if_neg (not_not.mpr h)]

/-- What comes to a slot, after the check of its shape. -/
theorem check_and_turn_ok {t : Tensor} {W : View α} (name : Name)
    (hshape : W.shape = checkpoint_shape t) : check_and_turn name (slotFor t) W =
      .ok (if (matrix t).isSome then W.transpose.contiguous else W) := by
  unfold check_and_turn
  simp only [slotFor, needs_transpose_iff]
  unfold checkpoint_shape at hshape
  unfold device_shape
  cases hm : matrix t with
  | none =>
    simp only [hm] at hshape
    rw [assert_shape_ok hshape]
    rfl
  | some KN =>
    simp only [hm] at hshape
    simp only [List.getD_cons_succ, List.getD_cons_zero]
    rw [assert_shape_ok hshape]
    rfl

theorem fill_slot_ok {l : Nat} {t : Tensor} {W : View α} (buf : List UInt8)
    (hW : ckpt (.layer l t) = some W) (hshape : W.shape = checkpoint_shape t) :
    fill_slot cast ckpt l buf (slotFor t) =
      .ok (assign_slice buf (TENSOR_TABLE t).offset ((TENSOR_TABLE t).offset + (TENSOR_TABLE t).bytes)
        (bytesList (fileOrder cast t W))) := by
  have hlen : (bytesList (fileOrder cast t W)).length = (TENSOR_TABLE t).bytes := by
    rw [bytesList_length, fileOrder_length hshape]
    rfl
  have hbytes : (slotFor t).expected_shape.foldl (· * ·) 4 = (TENSOR_TABLE t).bytes := slotFor_bytes t
  have hload : load_tensor ckpt (.layer l t) = .ok W := by
    unfold load_tensor
    rw [hW]
  have hdata : tensor_to_fp32_bytes cast (if (matrix t).isSome then W.transpose.contiguous else W) =
      bytesList (fileOrder cast t W) := by
    rw [tensor_to_fp32_bytes_eq]
    unfold fileOrder
    split <;> simp
  have hname : (slotFor t).local_name = t := rfl
  unfold fill_slot
  simp only [hname, hload, check_and_turn_ok _ hshape, hdata, hbytes, hlen, bind, Except.bind, ne_eq,
    not_true_eq_false, if_false]
  rfl

/-- The checkpoint has the tensors of layer `l` in the shapes that the tool asks for. -/
def LayerShaped (ckpt : Checkpoint α) (l : Nat) : Prop :=
  ∀ t, ∃ W, ckpt (.layer l t) = some W ∧ W.shape = checkpoint_shape t

/-- The bytes of each tensor in `ts` lie where the loader looks for them. -/
def Packed (cast : α → Word) (ckpt : Checkpoint α) (l : Nat) (data : Nat → UInt8) (ts : List Tensor) :
    Prop :=
  ∀ t ∈ ts, ∀ W, ckpt (.layer l t) = some W → ∀ i < (TENSOR_TABLE t).bytes,
    data ((TENSOR_TABLE t).offset + i) = bytesOf (fileOrder cast t W) i

theorem fill_slots_ok (cast : α → Word) {l : Nat} {ts : List Tensor} (hnodup : ts.Nodup)
    (hW : LayerShaped ckpt l) {buf : List UInt8} (hbuf : buf.length = WL_LAYER_BYTES) :
    ∃ buf', fill_slots cast ckpt l (ts.map slotFor) buf = .ok buf' ∧ buf'.length = WL_LAYER_BYTES ∧
      Packed cast ckpt l (fun i => buf'.getD i 0) ts ∧
      ∀ x, (∀ t ∈ ts, x < (TENSOR_TABLE t).offset ∨
        (TENSOR_TABLE t).offset + (TENSOR_TABLE t).bytes ≤ x) → buf'.getD x 0 = buf.getD x 0 := by
  induction ts generalizing buf with
  | nil => exact ⟨buf, rfl, hbuf, by simp [Packed], fun _ _ => rfl⟩
  | cons t ts ih =>
    obtain ⟨ht, hnodup⟩ := List.nodup_cons.mp hnodup
    obtain ⟨W, hget, hshape⟩ := hW t
    have hdata : (TENSOR_TABLE t).offset + (bytesList (fileOrder cast t W)).length =
        (TENSOR_TABLE t).offset + (TENSOR_TABLE t).bytes := by
      rw [bytesList_length, fileOrder_length hshape]
      rfl
    have hfit : (TENSOR_TABLE t).offset + (TENSOR_TABLE t).bytes ≤ buf.length := by
      rw [hbuf]
      exact tensor_fits t
    obtain ⟨buf', hcode, hlen, hpacked, hout⟩ :=
      ih hnodup ((assign_slice_length hdata hfit).trans hbuf)
    refine ⟨buf', ?_, hlen, fun u hu V hV i hi => ?_, fun x hx => ?_⟩
    · rw [List.map_cons, fill_slots, fill_slot_ok buf hget hshape]
      exact hcode
    · rcases List.mem_cons.mp hu with rfl | hu
      · -- The slots that come later lie apart from this one.
        obtain rfl : W = V := Option.some.inj (hget.symm.trans hV)
        have hin : i < (bytesList (fileOrder cast u W)).length := by omega
        simp only
        rw [hout, assign_slice_inside hdata hfit hin, bytesList_getD]
        · rwa [bytesList_length] at hin
        · intro t ht'
          have hap := tensors_apart (t := t) (u := u) fun heq => ht (heq ▸ ht')
          omega
      · exact hpacked u hu V hV i hi
    · rw [hout x fun u hu => hx u (List.mem_cons_of_mem _ hu),
        assign_slice_outside hdata hfit (hx t List.mem_cons_self)]

/-! ## All layers -/

theorem dump_layers_ok (cast : α → Word) {ls : List Nat} (hnodup : ls.Nodup)
    (hls : ∀ l ∈ ls, LayerShaped ckpt l) (files : Files) :
    ∃ files', dump_layers cast ckpt false ls files = (none, files') ∧
      (∀ l ∈ ls, ∃ file, files' (.layer l) = some file ∧ file.size = WL_LAYER_BYTES ∧
        Packed cast ckpt l file.data layer_tensors) ∧
      ∀ f, (∀ l ∈ ls, f ≠ .layer l) → files' f = files f := by
  induction ls generalizing files with
  | nil => exact ⟨files, rfl, by simp, fun _ _ => rfl⟩
  | cons l ls ih =>
    obtain ⟨hl, hnodup⟩ := List.nodup_cons.mp hnodup
    have hnew : (List.replicate LAYER_BYTES (0 : UInt8)).length = WL_LAYER_BYTES :=
      List.length_replicate
    have htensors : layer_tensors.Nodup := by decide
    obtain ⟨buf, hcode, hlen, hpacked, -⟩ :=
      fill_slots_ok cast htensors (hls l List.mem_cons_self) hnew
    obtain ⟨files', hrest, hfiles, hother⟩ := ih hnodup
      (fun k hk => hls k (List.mem_cons_of_mem _ hk)) (write files (.layer l) buf)
    refine ⟨files', ?_, fun k hk => ?_, fun f hf => ?_⟩
    · rw [dump_layers, LAYER_OFFSETS_eq, hcode]
      exact hrest
    · rcases List.mem_cons.mp hk with rfl | hk
      · refine ⟨⟨buf.length, fun i => buf.getD i 0⟩, ?_, hlen, hpacked⟩
        have hapart : ∀ j ∈ ls, WeightFile.layer k ≠ .layer j := by
          rintro j hj heq
          cases heq
          exact hl hj
        rw [hother _ hapart]
        exact Function.update_self ..
      · exact hfiles k hk
    · rw [hother f fun k hk => hf k (List.mem_cons_of_mem _ hk)]
      exact Function.update_of_ne (hf l List.mem_cons_self) ..

/-! ## What a reader finds -/

/-- What the loader and the kernels read for a tensor is what the checkpoint has: a
vector element by element, and a matrix with element `n, k` at `k * N + n`, where `gemm`
looks for row `k` and column `n`. -/
def Reads (cast : α → Word) (data : Nat → UInt8) (t : Tensor) (W : View α) : Prop :=
  match matrix t with
  | some (K, N) =>
    (TENSOR_TABLE t).n_floats = K * N ∧
    (∀ k < K, ∀ n < N, word data ((TENSOR_TABLE t).offset + 4 * (k * N + n)) = cast (W.elem [n, k])) ∧
    ∀ fpu x, gemm fpu 1 K N x (vec (word data) (TENSOR_TABLE t).offset (K * N)) =
      (List.range N).map fun n => (List.range K).foldl
        (fun acc k => fpu.fmadd (x.getD k 0) (cast (W.elem [n, k])) acc) 0
  | none => ∀ i < (TENSOR_TABLE t).n_floats,
    word data ((TENSOR_TABLE t).offset + 4 * i) = cast (W.elem [i])

section

variable {W : View α} {a : Nat} {data : Nat → UInt8}

/-- Where the bytes of a tensor lie, its elements are read. -/
theorem word_of_elem {n j : Nat} {x : α} (hn : W.toList.length = n)
    (hdata : ∀ i < 4 * n, data (a + i) = bytesOf (W.toList.map cast) i)
    (hget : W.toList[j]? = some x) : word data (a + 4 * j) = cast x := by
  obtain ⟨hj, -⟩ := List.getElem?_eq_some_iff.mp hget
  have hread : word data (a + 4 * j) = word (bytesOf (W.toList.map cast)) (4 * j) := by
    apply word_congr
    intro k hk
    rw [Nat.add_assoc]
    exact hdata _ (by omega)
  rw [hread, word_bytesOf, List.getD_eq_getElem?_getD, List.getElem?_map, hget]
  rfl

/-- The words of a vector. -/
theorem word_of_vector {n i : Nat} (hshape : W.shape = [n])
    (hdata : ∀ i < 4 * n, data (a + i) = bytesOf (W.toList.map cast) i) (hi : i < n) :
    word data (a + 4 * i) = cast (W.elem [i]) :=
  word_of_elem (by simp [hshape]) hdata (View.getElem?_vector hshape hi)

/-- The words of a matrix that is not turned round. -/
theorem word_of_rows {M N r c : Nat} (hshape : W.shape = [M, N])
    (hdata : ∀ i < 4 * (M * N), data (a + i) = bytesOf (W.toList.map cast) i) (hr : r < M)
    (hc : c < N) : word data (a + 4 * (r * N + c)) = cast (W.elem [r, c]) :=
  word_of_elem (by simp [hshape]) hdata (View.getElem?_matrix hshape hr hc)

/-- The words of a matrix that is turned round. -/
theorem word_of_matrix {K N k n : Nat} (hshape : W.shape = [N, K])
    (hdata : ∀ i < 4 * (K * N), data (a + i) = bytesOf (W.transpose.toList.map cast) i)
    (hk : k < K) (hn : n < N) : word data (a + 4 * (k * N + n)) = cast (W.elem [n, k]) := by
  rw [← View.elem_transpose hshape]
  exact word_of_rows (View.shape_transpose hshape) hdata hk hn

end

/-- A product with a matrix that lies turned round is a product with its rows. -/
theorem gemm_of_words {K N a : Nat} {data : Nat → UInt8} {f : Nat → Nat → Word}
    (hword : ∀ k < K, ∀ n < N, word data (a + 4 * (k * N + n)) = f n k) (fpu : Fpu) (x : List Word) :
    gemm fpu 1 K N x (vec (word data) a (K * N)) = (List.range N).map fun n =>
      (List.range K).foldl (fun acc k => fpu.fmadd (x.getD k 0) (f n k) acc) 0 := by
  unfold gemm
  rw [Nat.one_mul]
  apply List.map_congr_left
  intro n hn
  rw [List.mem_range] at hn
  apply List.foldl_ext
  intro acc k hk
  rw [List.mem_range] at hk
  have hlt : k * N + n < K * N := by nlinarith
  rw [Nat.div_eq_of_lt hn, Nat.mod_eq_of_lt hn, Nat.zero_mul, Nat.zero_add, vec_getD _ hlt,
    hword k hk n hn]

theorem Packed.reads {l : Nat} {data : Nat → UInt8} (h : Packed cast ckpt l data layer_tensors)
    {t : Tensor} {W : View α} (hW : ckpt (.layer l t) = some W)
    (hshape : W.shape = checkpoint_shape t) : Reads cast data t W := by
  have hbytes := h t (mem_layer_tensors t) W hW
  have hprod := device_shape_prod t
  unfold Reads
  unfold fileOrder TensorInfo.bytes at hbytes
  unfold checkpoint_shape at hshape
  unfold device_shape at hprod
  cases hm : matrix t with
  | none =>
    simp only [hm, Option.isSome_none, Bool.false_eq_true, if_false] at hshape hbytes ⊢
    exact fun i hi => word_of_vector hshape hbytes hi
  | some KN =>
    obtain ⟨K, N⟩ := KN
    simp only [hm, Option.isSome_some, if_true] at hshape hbytes hprod ⊢
    have hfloats : (TENSOR_TABLE t).n_floats = K * N := by rw [← hprod]; simp
    rw [hfloats] at hbytes
    have hword : ∀ k < K, ∀ n < N,
        word data ((TENSOR_TABLE t).offset + 4 * (k * N + n)) = cast (W.elem [n, k]) :=
      fun k hk n hn => word_of_matrix hshape hbytes hk hn
    exact ⟨hfloats, hword, gemm_of_words hword⟩

/-! ## The whole dump -/

/-- The checkpoint has the shapes that the tool asks for, and no head of its own. -/
structure Shaped (ckpt : Checkpoint α) : Prop where
  embed_tokens : ∃ E, ckpt .embed_tokens = some E ∧ E.shape = [VOCAB_SIZE, HIDDEN_SIZE]
  tied : ckpt .lm_head = none
  layer : ∀ l < NUM_LAYERS, LayerShaped ckpt l
  norm : ∃ W, ckpt .norm = some W ∧ W.shape = [HIDDEN_SIZE]

theorem load_checked_ok {name : Name} {W : View α} {expected : List Nat} (hW : ckpt name = some W)
    (hshape : W.shape = expected) : load_checked ckpt name expected = .ok W := by
  unfold load_checked load_tensor
  rw [hW]
  simp only [bind, Except.bind, assert_shape_ok hshape]
  rfl

/-- The file that is written for a list of words. -/
def fileOf (ws : List Word) : FileData := ⟨4 * ws.length, fun i => (bytesList ws).getD i 0⟩

theorem write_self (files : Files) (f : WeightFile) (ws : List Word) :
    write files f (bytesList ws) f = some (fileOf ws) := by
  unfold write fileOf
  rw [Function.update_self, bytesList_length]

theorem write_ne {f g : WeightFile} (files : Files) (bytes : List UInt8) (hne : g ≠ f) :
    write files f bytes g = files g :=
  Function.update_of_ne hne ..

theorem dump_tables_ok {E : View α} (htied : ckpt .lm_head = none) (files : Files) :
    dump_tables cast ckpt false E files =
      (none, write (write files .embedding (bytesList (E.toList.map cast))) .lm_head
        (bytesList (E.transpose.toList.map cast))) := by
  unfold dump_tables
  simp only [htied, TIE_WORD_EMB, tensor_to_fp32_bytes_eq]
  rfl

/-- The files after the whole dump. -/
theorem main_ok (cast : α → Word) {E G : View α} (h : Shaped ckpt) (hE : ckpt .embed_tokens = some E)
    (hEshape : E.shape = [VOCAB_SIZE, HIDDEN_SIZE]) (hG : ckpt .norm = some G)
    (hGshape : G.shape = [HIDDEN_SIZE]) (files : Files) :
    ∃ files', main cast ckpt false files = (none, files') ∧
      (∀ l < NUM_LAYERS, ∃ file, files' (.layer l) = some file ∧ file.size = WL_LAYER_BYTES ∧
        Packed cast ckpt l file.data layer_tensors) ∧
      files' .embedding = some (fileOf (E.toList.map cast)) ∧
      files' .lm_head = some (fileOf (E.transpose.toList.map cast)) ∧
      files' .final_norm = some (fileOf (G.toList.map cast)) := by
  obtain ⟨layers, hcode, hlayers, hother⟩ := dump_layers_ok cast (List.nodup_range (n := NUM_LAYERS))
    (fun l hl => h.layer l (List.mem_range.mp hl))
    (write (write files .embedding (bytesList (E.toList.map cast))) .lm_head
      (bytesList (E.transpose.toList.map cast)))
  refine ⟨write layers .final_norm (bytesList (G.toList.map cast)), ?_, fun l hl => ?_, ?_, ?_, ?_⟩
  · unfold main
    rw [load_checked_ok hE hEshape]
    simp only [dump_tables_ok h.tied]
    rw [hcode]
    simp only [load_checked_ok hG hGshape, tensor_to_fp32_bytes_eq]
    rfl
  · rw [write_ne _ _ (by simp)]
    exact hlayers l (List.mem_range.mpr hl)
  · rw [write_ne _ _ (by simp), hother _ (by simp), write_ne _ _ (by simp)]
    exact write_self ..
  · rw [write_ne _ _ (by simp), hother _ (by simp)]
    exact write_self ..
  · exact write_self ..

/-- A file that was written in one piece holds the bytes of its words. -/
theorem fileOf_data {ws : List Word} {n i : Nat} (hlen : ws.length = n) (hi : i < 4 * n) :
    (fileOf ws).data (0 + i) = bytesOf ws i := by
  rw [Nat.zero_add]
  exact bytesList_getD ws (by omega)

/-- The tool writes each layer in full: its slots lie apart and fill the file. And what it
writes is what the loader and the kernels read: the tensors of the layers, the
embedding, its transpose as the head, and the last norm. -/
theorem the_dump_and_the_layout_are_one_format (cast : α → Word) {ckpt : Checkpoint α}
    (h : Shaped ckpt) (files : Files) :
    (LAYER_OFFSETS.Pairwise fun a b => a.offset + a.bytes ≤ b.offset) ∧
    (∀ x < WL_LAYER_BYTES, ∃ slot ∈ LAYER_OFFSETS, slot.offset ≤ x ∧ x < slot.offset + slot.bytes) ∧
    ∃ files', main cast ckpt false files = (none, files') ∧
      (∀ l < WL_NUM_LAYERS, ∃ file, files' (.layer l) = some file ∧ file.size = WL_LAYER_BYTES ∧
        ∀ t W, ckpt (.layer l t) = some W → Reads cast file.data t W) ∧
      (∀ E, ckpt .embed_tokens = some E →
        (∃ file, files' .embedding = some file ∧ file.size = WL_EMBEDDING_BYTES ∧
          ∀ v < 151936, ∀ d < 896, word file.data (4 * (v * 896 + d)) = cast (E.elem [v, d])) ∧
        ∃ file, files' .lm_head = some file ∧ file.size = WL_LM_HEAD_BYTES ∧
          ∀ v < 151936, ∀ d < 896, word file.data (4 * (d * 151936 + v)) = cast (E.elem [v, d])) ∧
      ∀ W, ckpt .norm = some W → ∃ file, files' .final_norm = some file ∧
        file.size = WL_FINAL_NORM_BYTES ∧ ∀ i < 896, word file.data (4 * i) = cast (W.elem [i]) := by
  obtain ⟨E, hE, hEshape⟩ := h.embed_tokens
  obtain ⟨G, hG, hGshape⟩ := h.norm
  obtain ⟨files', hcode, hlayers, hemb, hhead, hnorm⟩ := main_ok cast h hE hEshape hG hGshape files
  have hElen : (E.toList.map cast).length = 151936 * 896 := by
    rw [List.length_map, View.toList_length, hEshape]
    rfl
  have hTlen : (E.transpose.toList.map cast).length = 896 * 151936 := by
    rw [List.length_map, View.toList_length, View.shape_transpose hEshape]
    rfl
  have hGlen : (G.toList.map cast).length = 896 := by
    rw [List.length_map, View.toList_length, hGshape]
    rfl
  refine ⟨tiles_layer.apart, fun x hx => tiles_layer.covers ⟨Nat.zero_le x, hx⟩, files', hcode,
    fun l hl => ?_, fun E' hE' => ?_, fun G' hG' => ?_⟩
  · obtain ⟨file, hfile, hsize, hpacked⟩ := hlayers l hl
    refine ⟨file, hfile, hsize, fun t W hW => ?_⟩
    obtain ⟨W', hW', hshape⟩ := h.layer l hl t
    obtain rfl : W' = W := Option.some.inj (hW'.symm.trans hW)
    exact hpacked.reads hW hshape
  · obtain rfl : E = E' := Option.some.inj (hE.symm.trans hE')
    refine ⟨⟨_, hemb, by rw [fileOf, hElen]; rfl, fun v hv d hd => ?_⟩,
      _, hhead, by rw [fileOf, hTlen]; rfl, fun v hv d hd => ?_⟩
    · rw [← Nat.zero_add (4 * _)]
      exact word_of_rows hEshape (fun i hi => fileOf_data hElen hi) hv hd
    · rw [← Nat.zero_add (4 * _)]
      exact word_of_matrix hEshape (fun i hi => fileOf_data hTlen hi) hd hv
  · obtain rfl : G = G' := Option.some.inj (hG.symm.trans hG')
    refine ⟨_, hnorm, by rw [fileOf, hGlen]; rfl, fun i hi => ?_⟩
    rw [← Nat.zero_add (4 * _)]
    exact word_of_vector hGshape (fun i hi => fileOf_data hGlen hi) hi

/-- A checkpoint of zeros. -/
def zeroCheckpoint : Checkpoint Word := fun name =>
  let zeros := fun shape : List Nat =>
    some (⟨shape, rowMajor shape, fun _ => 0, rowMajor_length shape⟩ : View Word)
  match name with
  | .embed_tokens => zeros [VOCAB_SIZE, HIDDEN_SIZE]
  | .lm_head => none
  | .norm => zeros [HIDDEN_SIZE]
  | .layer _ t => zeros (checkpoint_shape t)

theorem zeros_are_dumped_in_full : ∃ files', main id zeroCheckpoint false (fun _ => none) =
    (none, files') ∧ ∀ l < WL_NUM_LAYERS, ∃ file, files' (.layer l) = some file ∧
      file.size = WL_LAYER_BYTES := by
  have hshaped : Shaped zeroCheckpoint :=
    ⟨⟨_, rfl, rfl⟩, rfl, fun _ _ _ => ⟨_, rfl, rfl⟩, ⟨_, rfl, rfl⟩⟩
  obtain ⟨-, -, files', hcode, hlayers, -⟩ :=
    the_dump_and_the_layout_are_one_format id hshaped fun _ => none
  refine ⟨files', hcode, fun l hl => ?_⟩
  obtain ⟨file, hfile, hsize, -⟩ := hlayers l hl
  exact ⟨file, hfile, hsize⟩

end gpgpu.dump
