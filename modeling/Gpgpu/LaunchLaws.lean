-- A launch from its lanes. If the lanes of all blocks write in places of their own, the blocks
-- may run in any order: each place gets the value that its lane has for it, once, and the rest
-- of the memory stays.
import Gpgpu.Straight

open memory words cells

namespace gpgpu.core

variable {V C : Type} {fm : Format V C} {code : List (Instr Nat)} {regs : Nat → Fin 32 → Regs V}
  {args : Word} {m m1 : Nat → C} {order todo : List Nat} {P : Nat → Fin 32 → List (Nat × V)}
  {R : Nat → Fin 32 → Nat → Prop} {b : Nat}

/-! ## The end of a launch -/

theorem cycle_ended {w : Warp V C} (h : w.Ended) : cycle fm code w = some w := by
  unfold cycle
  cases hpc : w.min_pc with
  | none => rfl
  | some pc =>
    obtain ⟨⟨i, hi⟩, -⟩ := min_pc_some hpc
    have hactive := (current_mask_iff.mp hi).1
    rw [h i] at hactive
    cases hactive

theorem exec_warp_ended {w : Warp V C} (h : w.Ended) (n : Nat) : exec_warp fm code n w = some w := by
  induction n with
  | zero => rfl
  | succ n ih => rw [exec_warp, cycle_ended h, Option.bind_some, ih]

/-- A warp that ends does so in one way. -/
theorem exec_warp_unique {w w1 w2 : Warp V C} {n k : Nat} (h1 : exec_warp fm code n w = some w1)
    (hend1 : w1.Ended) (h2 : exec_warp fm code k w = some w2) (hend2 : w2.Ended) : w1 = w2 := by
  have hn : exec_warp fm code (n + k) w = some w1 := by
    rw [exec_warp_add, h1, Option.bind_some, exec_warp_ended hend1]
  have hk : exec_warp fm code (n + k) w = some w2 := by
    rw [Nat.add_comm, exec_warp_add, h2, Option.bind_some, exec_warp_ended hend2]
  exact Option.some.inj (hn.symm.trans hk)

theorem Launch.unique {m' m'' : Nat → C} {logs logs' : List (List (Access V))}
    (h : Launch fm code regs args order m m' logs) (h' : Launch fm code regs args order m m'' logs') :
    m' = m'' ∧ logs = logs' := by
  induction h generalizing m'' logs' with
  | nil m => cases h'; exact ⟨rfl, rfl⟩
  | cons hrun hend _ ih =>
    cases h' with
    | cons hrun' hend' hrest' =>
      obtain rfl := exec_warp_unique hrun hend hrun' hend'
      obtain ⟨rfl, rfl⟩ := ih hrest'
      exact ⟨rfl, rfl⟩

/-- The launch comes to its end, and then `Q` holds of the memory and the logs of the lanes. -/
def Ends (fm : Format V C) (code : List (Instr Nat)) (regs : Nat → Fin 32 → Regs V) (args : Word)
    (order : List Nat) (m : Nat → C) (Q : (Nat → C) → List (List (Access V)) → Prop) : Prop :=
  (∃ m' logs, Launch fm code regs args order m m' logs) ∧
    ∀ m' logs, Launch fm code regs args order m m' logs → Q m' logs

theorem Launch.ends {m' : Nat → C} {logs : List (List (Access V))}
    {Q : (Nat → C) → List (List (Access V)) → Prop} (h : Launch fm code regs args order m m' logs)
    (hQ : Q m' logs) : Ends fm code regs args order m Q := by
  refine ⟨⟨m', logs, h⟩, fun m'' logs' h' => ?_⟩
  obtain ⟨rfl, rfl⟩ := h.unique h'
  exact hQ

theorem Ends.mono {Q Q' : (Nat → C) → List (List (Access V)) → Prop}
    (h : Ends fm code regs args order m Q) (hQ : ∀ m' logs, Q m' logs → Q' m' logs) :
    Ends fm code regs args order m Q' :=
  ⟨h.1, fun m' logs hlaunch => hQ m' logs (h.2 m' logs hlaunch)⟩

/-! ## What a lane leaves -/

/-- The log has its reads in `R` and has written the places `ps`, the last one first, with what
they hold now. -/
structure Trace (fm : Format V C) (m1 : Nat → C) (R : Nat → Prop) (ps : List (Nat × V))
    (log : List (Access V)) : Prop where
  reads : ∀ a, .load a ∈ log → R a
  places : written log = ps.map Prod.fst
  values : ∀ p ∈ ps, fm.get (replay fm.toCells m1 log) p.1 = p.2

section

variable {R : Nat → Prop} {ps : List (Nat × V)} {log : List (Access V)} {a a' x : Nat} {v v' : V}

theorem trace_nil (h : Within R (fun _ => False) log) : Trace fm m1 R [] log :=
  ⟨h.1, List.eq_nil_iff_forall_not_mem.mpr h.2, by simp⟩

@[simp] theorem trace_load : Trace fm m1 R ps (.load a :: log) ↔ R a ∧ Trace fm m1 R ps log := by
  constructor
  · intro h
    exact ⟨h.reads a (List.mem_cons_self ..),
      ⟨fun x hx => h.reads x (List.mem_cons_of_mem _ hx), h.places, h.values⟩⟩
  · rintro ⟨ha, h⟩
    refine ⟨fun x hx => ?_, h.places, h.values⟩
    rcases List.mem_cons.mp hx with hx | hx
    · cases hx
      exact ha
    · exact h.reads x hx

/-- A write. The places keep what they hold, but for those that are written over. -/
theorem Trace.over {ps' : List (Nat × V)} (h : Trace fm m1 R ps log) (ha : a' = a) (hv : v' = v)
    (hfst : ps'.map Prod.fst = ps.map Prod.fst)
    (hps : ∀ p ∈ ps', p = (a, v) ∨ p ∈ ps ∧ (p.1 + 4 ≤ a ∨ a + 4 ≤ p.1)) :
    Trace fm m1 R ((a, v) :: ps') (.store a' v' :: log) := by
  subst ha hv
  refine ⟨fun x hx => h.reads x (by simpa using hx), ?_, fun p hp => ?_⟩
  · rw [written, h.places, ← hfst]
    rfl
  · have hp : p = (a', v') ∨ p ∈ ps ∧ (p.1 + 4 ≤ a' ∨ a' + 4 ≤ p.1) := by
      rcases List.mem_cons.mp hp with hp | hp
      · exact .inl hp
      · exact hps p hp
    rw [replay]
    rcases hp with rfl | ⟨hp, hapart⟩
    · exact get_set fm.toCells
    · rw [get_set_apart fm.toCells hapart.symm]
      exact h.values p hp

/-- A write to a new place. -/
theorem Trace.store (h : Trace fm m1 R ps log) (ha : a' = a) (hv : v' = v)
    (hnew : ∀ p ∈ ps, p.1 + 4 ≤ a ∨ a + 4 ≤ p.1) :
    Trace fm m1 R ((a, v) :: ps) (.store a' v' :: log) :=
  h.over ha hv rfl fun p hp => .inr ⟨hp, hnew p hp⟩

/-- What lies apart from the places reads as before. -/
theorem Trace.get (h : Trace fm m1 R ps log) (hx : ∀ p ∈ ps, p.1 + 4 ≤ x ∨ x + 4 ≤ p.1) :
    fm.get (replay fm.toCells m1 log) x = fm.get m1 x := by
  apply get_replay
  intro b hb
  rw [h.places] at hb
  obtain ⟨p, hp, rfl⟩ := List.mem_map.mp hb
  exact hx p hp

end

/-- The places of the first `n` turns of a loop, the last one first. -/
def rounds (f : Nat → List (Nat × V)) (n : Nat) : List (Nat × V) := (List.range n).reverse.flatMap f

theorem rounds_succ (f : Nat → List (Nat × V)) (n : Nat) : rounds f (n + 1) = f n ++ rounds f n := by
  unfold rounds
  rw [List.range_succ, List.reverse_append]
  rfl

@[simp] theorem mem_rounds {f : Nat → List (Nat × V)} {n : Nat} {p : Nat × V} :
    p ∈ rounds f n ↔ ∃ t < n, p ∈ f t := by
  simp [rounds]

theorem rounds_congr {f g : Nat → List (Nat × V)} {n : Nat} (h : ∀ t < n, f t = g t) :
    rounds f n = rounds g n :=
  List.flatMap_congr fun t ht => h t (by simpa using ht)

/-- A lane that has ended, read in `R` and written its places. -/
structure LaneDone (fm : Format V C) (m1 : Nat → C) (R : Nat → Prop) (ps : List (Nat × V)) (l : Lane V) :
    Prop where
  ended : l.active = false
  log : Trace fm m1 R ps l.log

/-- A lane that only reads. -/
theorem laneDone_nil {R : Nat → Prop} {l : Lane V} (hended : l.active = false)
    (hlog : Within R (fun _ => False) l.log) : LaneDone fm m1 R [] l :=
  ⟨hended, trace_nil hlog⟩

/-- A lane that ends with its one write. -/
theorem laneDone_one {R : Nat → Prop} {l : Lane V} {a : Nat} {v : V} {log : List (Access V)}
    (hended : l.active = false) (hl : l.log = .store a v :: log) (hlog : Within R (fun _ => False) log) :
    LaneDone fm m1 R [(a, v)] l :=
  ⟨hended, hl ▸ (trace_nil hlog).store rfl rfl (by simp)⟩

/-! ## The places of the lanes -/

/-- The places `P b i` that lane `i` of block `b` writes, with what it writes there: the byte
`y` is in one of block `b`. -/
def InPlaces (P : Nat → Fin 32 → List (Nat × V)) (b y : Nat) : Prop :=
  ∃ i, ∃ p ∈ P b i, p.1 ≤ y ∧ y < p.1 + 4

/-- From the memory `m1` block `b` ends, and each lane has read and written in its places. -/
def BlockEnds (fm : Format V C) (code : List (Instr Nat)) (regs : Fin 32 → Regs V) (args : Word)
    (R : Nat → Fin 32 → Nat → Prop) (P : Nat → Fin 32 → List (Nat × V)) (b : Nat) (m1 : Nat → C) :
    Prop :=
  ∃ lanes, Gets fm code m1 (fun i => begin_lane (regs i) b args i) lanes ∧
    ∀ i, LaneDone fm m1 (R b i) (P b i) (lanes i)

/-- The places of all lanes lie apart. -/
def PlacesApart (order : List Nat) (P : Nat → Fin 32 → List (Nat × V)) : Prop :=
  ∀ b ∈ order, ∀ b' ∈ order, ∀ i i', (b, i) ≠ (b', i') → ∀ p ∈ P b i, ∀ p' ∈ P b' i',
    p.1 + 4 ≤ p'.1 ∨ p'.1 + 4 ≤ p.1

/-- What the blocks `order` leave: their lanes have read in `R`, each place has been written and
has its value, and the rest stays. -/
structure Effect (fm : Format V C) (R : Nat → Fin 32 → Nat → Prop) (P : Nat → Fin 32 → List (Nat × V))
    (order : List Nat) (m m' : Nat → C) (logs : List (List (Access V))) : Prop where
  writes : logs.map written =
    order.flatMap fun b => (List.finRange 32).map fun i => (P b i).map Prod.fst
  reads : ∀ log ∈ logs, ∀ a, .load a ∈ log → ∃ b ∈ order, ∃ i, R b i a
  values : ∀ b ∈ order, ∀ i, ∀ p ∈ P b i, fm.get m' p.1 = p.2
  frame : ∀ y, (∀ b ∈ order, ¬ InPlaces P b y) → m' y = m y

/-- What a block leaves. -/
theorem BlockEnds.run (h : BlockEnds fm code (regs b) args R P b m1) (hb : b ∈ order)
    (happ : PlacesApart order P) : ∃ n w,
      exec_warp fm code n (begin_warp (regs b) b args m1) = some w ∧ w.Ended ∧
      (∀ i, Trace fm m1 (R b i) (P b i) (w.lanes i).log) ∧
      (∀ i, ∀ p ∈ P b i, fm.get w.mem p.1 = p.2) ∧ ∀ y, ¬ InPlaces P b y → w.mem y = m1 y := by
  obtain ⟨lanes, hgets, hdone⟩ := h
  obtain ⟨n, m', hrun, hcoh⟩ := hgets m1 (coherent_start fun i => rfl)
  refine ⟨n, _, hrun, fun i => (hdone i).ended, fun i => (hdone i).log, fun i p hp => ?_,
    fun y hy => ?_⟩
  · rw [← (hdone i).log.values p hp]
    apply hcoh.get_eq
    intro j hj a' ha'
    have ha'' : a' ∈ (P b j).map Prod.fst := (hdone j).log.places ▸ ha'
    obtain ⟨p', hp', rfl⟩ := List.mem_map.mp ha''
    exact happ b hb b hb j i (fun he => hj (Prod.mk.inj he).2) p' hp' p hp
  · have hout : ∀ i, ¬ Stored (lanes i).log y := by
      intro i hs
      obtain ⟨a, ha, hin⟩ := stored_iff.mp hs
      rw [(hdone i).log.places] at ha
      obtain ⟨p, hp, rfl⟩ := List.mem_map.mp ha
      exact hy ⟨i, p, hp, hin⟩
    exact (hcoh 0 y fun j _ => hout j).trans (replay_outside (hout 0))

/-- The places of a block that has run keep their values. -/
theorem get_of_frame (happ : PlacesApart order P) (hb : b ∈ order)
    (htodo : ∀ b' ∈ todo, b' ∈ order ∧ b' ≠ b)
    (hframe : ∀ y, (∀ b' ∈ todo, ¬ InPlaces P b' y) → m1 y = m y) {i : Fin 32} {p : Nat × V}
    (hp : p ∈ P b i) : fm.get m1 p.1 = fm.get m p.1 := by
  apply get_congr
  intro y h1 h2
  apply hframe
  rintro b' hb' ⟨i', p', hp', hin⟩
  obtain ⟨hmem, hne⟩ := htodo b' hb'
  have := happ b hb b' hmem i i' (fun he => hne (Prod.mk.inj he).1.symm) p hp p' hp'
  omega

/-- What a launch leaves, whatever the order of its blocks. -/
theorem launch_spec (hnodup : order.Nodup) (happ : PlacesApart order P)
    (hblock : ∀ b ∈ order, ∀ m1 : Nat → C,
      (∀ y, (∀ b' ∈ order, b' ≠ b → ¬ InPlaces P b' y) → m1 y = m y) →
      BlockEnds fm code (regs b) args R P b m1) :
    Ends fm code regs args order m (Effect fm R P order m) := by
  -- The blocks before `todo` have run; the memory differs from `m` only in their places.
  have hgo : ∀ todo : List Nat, todo.Nodup → (∀ b ∈ todo, b ∈ order) → ∀ m1 : Nat → C,
      (∀ y, (∀ b ∈ order, b ∉ todo → ¬ InPlaces P b y) → m1 y = m y) →
      ∃ m' logs, Launch fm code regs args todo m1 m' logs ∧ Effect fm R P todo m1 m' logs := by
    intro todo
    induction todo with
    | nil => exact fun _ _ m1 _ => ⟨m1, [], .nil m1, rfl, by simp, by simp, fun y _ => rfl⟩
    | cons b todo ih =>
      intro hnodup hsub m1 hm1
      obtain ⟨hb, hnodup⟩ := List.nodup_cons.mp hnodup
      have hbo : b ∈ order := hsub b (List.mem_cons_self ..)
      have hends := hblock b hbo m1 fun y hy => hm1 y fun b' hb' hnot =>
        hy b' hb' fun he => hnot (he ▸ List.mem_cons_self ..)
      obtain ⟨n, w, hrun, hend, htrace, hval, hframe⟩ := hends.run hbo happ
      obtain ⟨m', logs, hlaunch, heff⟩ := ih hnodup
        (fun b' hb' => hsub b' (List.mem_cons_of_mem _ hb')) w.mem fun y hy => by
          rw [hframe y (hy b hbo hb)]
          exact hm1 y fun b' hb' hnot => hy b' hb' fun hmem => hnot (List.mem_cons_of_mem _ hmem)
      refine ⟨m', _, .cons hrun hend hlaunch, ?_, fun log hlog a ha => ?_, fun b' hb' i p hp => ?_,
        fun y hy => ?_⟩
      · rw [List.map_append, List.map_map, heff.writes, List.flatMap_cons]
        congr 1
        exact List.map_congr_left fun i _ => (htrace i).places
      · rcases List.mem_append.mp hlog with hlog | hlog
        · obtain ⟨i, -, rfl⟩ := List.mem_map.mp hlog
          exact ⟨b, List.mem_cons_self .., i, (htrace i).reads a ha⟩
        · obtain ⟨b', hb', i, hR⟩ := heff.reads log hlog a ha
          exact ⟨b', List.mem_cons_of_mem _ hb', i, hR⟩
      · rcases List.mem_cons.mp hb' with rfl | hb'
        · rw [← hval i p hp]
          exact get_of_frame happ hbo (fun b'' hb'' => ⟨hsub b'' (List.mem_cons_of_mem _ hb''),
            fun he => hb (he ▸ hb'')⟩) heff.frame hp
        · exact heff.values b' hb' i p hp
      · rw [heff.frame y fun b' hb' => hy b' (List.mem_cons_of_mem _ hb'),
          hframe y (hy b (List.mem_cons_self ..))]
  obtain ⟨m', logs, hlaunch, heff⟩ := hgo order hnodup (fun b hb => hb) m fun y _ => rfl
  exact hlaunch.ends heff

/-- The places that a launch has written. -/
theorem Effect.mem_written {m' : Nat → C} {logs : List (List (Access V))}
    (h : Effect fm R P order m m' logs) {log : List (Access V)} (hlog : log ∈ logs) {a : Nat}
    (ha : a ∈ written log) : ∃ b ∈ order, ∃ i, ∃ p ∈ P b i, p.1 = a := by
  have hmem : written log ∈ logs.map written := List.mem_map_of_mem hlog
  rw [h.writes] at hmem
  obtain ⟨b, hb, hmem⟩ := List.mem_flatMap.mp hmem
  obtain ⟨i, -, hi⟩ := List.mem_map.mp hmem
  rw [← hi] at ha
  obtain ⟨p, hp, rfl⟩ := List.mem_map.mp ha
  exact ⟨b, hb, i, p, hp, rfl⟩

/-! ## Lanes that go on alone -/

/-- Lanes do not touch the places of each other if the places and reads of each lie apart from
the places of the others. -/
theorem apart_of_traces {lanes : Fin 32 → Lane V} {R : Fin 32 → Nat → Prop}
    {P : Fin 32 → List (Nat × V)} (htrace : ∀ i, Trace fm m1 (R i) (P i) (lanes i).log)
    (hplaces : ∀ i j, i ≠ j → ∀ p ∈ P i, ∀ p' ∈ P j, p.1 + 4 ≤ p'.1 ∨ p'.1 + 4 ≤ p.1)
    (hreads : ∀ i j, i ≠ j → ∀ p ∈ P i, ∀ a, R j a → p.1 + 4 ≤ a ∨ a + 4 ≤ p.1) :
    Apart (logs lanes) := by
  intro i j hij a ha e he
  have ha' : a ∈ written (lanes i).log := ha
  rw [(htrace i).places] at ha'
  obtain ⟨p, hp, rfl⟩ := List.mem_map.mp ha'
  cases e with
  | load a' => exact hreads i j hij p hp a' ((htrace j).reads a' he)
  | store a' v =>
    have hmem : a' ∈ written (lanes j).log := cells.mem_written.mpr ⟨v, he⟩
    rw [(htrace j).places] at hmem
    obtain ⟨p', hp', rfl⟩ := List.mem_map.mp hmem
    exact hplaces i j hij p hp p' hp'

/-- The lanes of a warp come each on its own to states with `Q`. -/
theorem gets_leads {lanes : Fin 32 → Lane V} {Q : Fin 32 → Lane V → Prop} {hi : Nat}
    (hlane : ∀ i, Leads fm code m1 hi (lanes i) (Q i))
    (hrest : ∀ i l, Q i l → l.active = true → hi ≤ l.pc)
    (happ : ∀ lanes' : Fin 32 → Lane V, (∀ i, Q i (lanes' i)) → Apart (logs lanes')) :
    ∃ lanes', Gets fm code m1 lanes lanes' ∧ ∀ i, Q i (lanes' i) := by
  choose lanes' hgoes hdone using hlane
  exact ⟨lanes', gets_of_goes hgoes (fun i => hrest i _ (hdone i)) (happ lanes' hdone), hdone⟩

/-- A block whose lanes each come to their ends alone, with places that no other lane reads. -/
theorem blockEnds_of_lanes {regs : Fin 32 → Regs V} {hi : Nat}
    (hlane : ∀ i, Leads fm code m1 hi (begin_lane (regs i) b args i) (LaneDone fm m1 (R b i) (P b i)))
    (happ : PlacesApart order P) (hb : b ∈ order)
    (hreads : ∀ i j, i ≠ j → ∀ p ∈ P b i, ∀ a, R b j a → p.1 + 4 ≤ a ∨ a + 4 ≤ p.1) :
    BlockEnds fm code regs args R P b m1 := by
  refine gets_leads hlane (fun i l hl hactive => ?_) fun lanes hdone => ?_
  · rw [hl.ended] at hactive
    cases hactive
  · exact apart_of_traces (fun i => (hdone i).log)
      (fun i j hij => happ b hb b hb i j fun h => hij (Prod.mk.inj h).2) hreads

/-- A launch whose lanes each come to their ends alone: it is enough to look at one lane, in
a memory where the words that it reads are as they were. -/
theorem launch_of_lanes (hi : Nat) (regs : Nat → Fin 32 → Regs V) (P : Nat → Fin 32 → List (Nat × V))
    (R : Nat → Fin 32 → Nat → Prop) (hnodup : order.Nodup)
    (happ : PlacesApart order P)
    (hreads : ∀ b ∈ order, ∀ b' ∈ order, ∀ i i', (b, i) ≠ (b', i') → ∀ p ∈ P b i, ∀ a, R b' i' a →
      p.1 + 4 ≤ a ∨ a + 4 ≤ p.1)
    (hlane : ∀ b ∈ order, ∀ i, ∀ m1 : Nat → C, (∀ a, R b i a → fm.get m1 a = fm.get m a) →
      Leads fm code m1 hi (begin_lane (regs b i) b args i) (LaneDone fm m1 (R b i) (P b i))) :
    Ends fm code regs args order m (Effect fm R P order m) := by
  apply launch_spec hnodup happ
  intro b hb m1 hm1
  refine blockEnds_of_lanes (fun i => hlane b hb i m1 fun a ha => ?_) happ hb
    fun i j hij => hreads b hb b hb i j fun h => hij (Prod.mk.inj h).2
  apply get_congr
  intro y h1 h2
  apply hm1
  rintro b' hb' hne ⟨i', p, hp, hin⟩
  have := hreads b' hb' b hb i' i (fun h => hne (Prod.mk.inj h).1) p hp a ha
  omega

/-! ## Vectors that are written once -/

/-- Each of the `n` words at `out` has been written once and has its value, and nothing else
has been written. The lanes have read in `R`. -/
structure Fills (fm : Format V C) (R : Nat → Prop) (out n : Nat) (val : Nat → V) (m m' : Nat → C)
    (logs : List (List (Access V))) : Prop where
  once : (logs.flatMap written).Perm ((List.range n).map fun id => out + 4 * id)
  reads : ∀ log ∈ logs, ∀ a, .load a ∈ log → R a
  values : ∀ id < n, fm.get m' (out + 4 * id) = val id
  frame : ∀ y, y < out ∨ out + 4 * n ≤ y → m' y = m y

/-! ## One thread for each element -/

/-- The number of a thread: 32 to each block. -/
def thread (b : Nat) (i : Fin 32) : Nat := b * 32 + i

theorem thread_inj {b b' : Nat} {i i' : Fin 32} (h : thread b i = thread b' i') : (b, i) = (b', i') := by
  unfold thread at h
  have hb : b = b' := by omega
  subst hb
  exact congrArg _ (Fin.ext (by omega))

/-- The line that computes the number of a thread. -/
def thread_line : List (Instr Nat) :=
  [.csrr_mhartid .t6, .opi .and .t1 .t6 0x1F, .opi .srl .t6 .t6 13, .opi .sll .t6 .t6 5, .op .add .t0 .t6 .t1]

/-- The lane holds its arguments and its number, and has only read the arguments. -/
structure Numbered (args n : Nat) (vs : List Nat) (rs : List (X × Nat)) (block : Nat) (i : Fin 32)
    (l : Lane V) : Prop where
  pc : l.pc = rs.length + 5
  active : l.active = true
  regs : ∀ p ∈ rs, l.x p.1 = num (vs.getD p.2 0)
  t0 : l.x .t0 = num (thread block i)
  log : Within (InBuf args n) (fun _ => False) l.log

/-- A lane that begins with the load of its arguments and the line of its number. -/
theorem leads_thread {args n hi : Nat} {vs : List Nat} {regs : Regs V} {i : Fin 32}
    (rs : List (X × Nat)) (hargs : Args fm m args vs) (hend : args + 4 * vs.length ≤ 2 ^ 32)
    (hn : 4 * vs.length ≤ n) (hrs : Loadable vs rs)
    (hfree : ∀ p ∈ rs, p.1 ≠ .t0 ∧ p.1 ≠ .t1 ∧ p.1 ≠ .t6) (hb : b < 2 ^ 19)
    (hloads : code.take rs.length = loads rs) (hline : (code.drop rs.length).take 5 = thread_line)
    (hhi : rs.length + 5 ≤ hi) :
    Leads fm code m hi (begin_lane regs b (num args) i) (Numbered args n vs rs b i) := by
  refine (leads_loads rs hargs hend hn hrs hloads (by omega)).trans fun l hl => ?_
  refine leads_straight thread_line rs.length rfl hline hl.pc hl.active hhi fun hpc hactive =>
    leads_refl ⟨hpc, hactive, fun p hp => ?_, ?_, hl.log⟩
  · obtain ⟨h0, h1, h6⟩ := hfree p hp
    obtain ⟨-, hzero, -⟩ := hrs.regs p hp
    rw [← hl.regs p hp]
    simp [thread_line, straight, act, Act.lane, h0, h1, h6, hzero]
  · simp (disch := omega) [thread_line, straight, act, Act.lane, hl.mhartid, thread]

/-- The threads below `n`, block by block. -/
theorem threads_perm {α : Type} {n grid : Nat} (horder : order.Perm (List.range grid))
    (hn : n ≤ grid * 32) (f : Nat → α) :
    (order.flatMap fun b => (List.finRange 32).flatMap fun i =>
      if thread b i < n then [f (thread b i)] else []).Perm ((List.range n).map f) := by
  refine (horder.flatMap_right _).trans (.of_eq ?_)
  have hsome : ∀ g, ((List.range g).flatMap fun b => (List.finRange 32).flatMap fun i =>
      if thread b i < n then [f (thread b i)] else []) =
        (List.range (g * 32)).flatMap fun id => if id < n then [f id] else [] := by
    intro g
    induction g with
    | zero => rfl
    | succ g ih =>
      have h32 : List.range 32 = (List.finRange 32).map fun i => i.val :=
        List.map_coe_finRange_eq_range.symm
      rw [List.range_succ, List.flatMap_append, ih, Nat.succ_mul, List.range_add,
        List.flatMap_append, List.flatMap_singleton, h32, List.map_map, List.flatMap_map]
      rfl
  have hall : ∀ k, (List.range (n + k)).flatMap (fun id => if id < n then [f id] else []) =
      (List.range n).map f := by
    intro k
    rw [List.range_add, List.flatMap_append]
    have htail : ((List.range k).map (n + ·)).flatMap (fun id => if id < n then [f id] else []) = [] := by
      simp [List.flatMap_eq_nil_iff]
    rw [htail, List.append_nil, List.map_eq_flatMap]
    apply List.flatMap_congr
    intro id hid
    rw [if_pos (List.mem_range.mp hid)]
  obtain ⟨k, hk⟩ := Nat.exists_eq_add_of_le hn
  rw [hsome, hk, hall]

/-- A launch in which thread `id` writes `val id` to element `id` of the `n` at `out`. -/
theorem launch_of_threads {n grid : Nat} (hi : Nat) (regs : Nat → Fin 32 → Regs V) (out : Nat) (val : Nat → V)
    (R : Nat → Nat → Prop) (horder : order.Perm (List.range grid)) (hn : n ≤ grid * 32)
    (hreads : ∀ id < n, ∀ id', id ≠ id' → ∀ a, R id' a → out + 4 * id + 4 ≤ a ∨ a + 4 ≤ out + 4 * id)
    (hlane : ∀ b < grid, ∀ i, ∀ m1 : Nat → C, (∀ a, R (thread b i) a → fm.get m1 a = fm.get m a) →
      Leads fm code m1 hi (begin_lane (regs b i) b args i) (LaneDone fm m1 (R (thread b i))
        (if thread b i < n then [(out + 4 * thread b i, val (thread b i))] else []))) :
    Ends fm code regs args order m (Fills fm (fun a => ∃ id, R id a) out n val m) := by
  have hmem : ∀ b, b ∈ order ↔ b < grid := fun b => horder.mem_iff.trans List.mem_range
  let P := fun b i => if thread b i < n then [(out + 4 * thread b i, val (thread b i))] else []
  have hP : ∀ b i, ∀ p ∈ P b i, thread b i < n ∧ p = (out + 4 * thread b i, val (thread b i)) := by
    intro b i p hp
    by_cases hlt : thread b i < n
    · simp only [P, if_pos hlt, List.mem_singleton] at hp
      exact ⟨hlt, hp⟩
    · simp only [P, if_neg hlt, List.not_mem_nil] at hp
  have hother : ∀ {b b' : Nat} {i i' : Fin 32}, (b, i) ≠ (b', i') → thread b i ≠ thread b' i' :=
    fun hne he => hne (thread_inj he)
  have hends : Ends fm code regs args order m _ := launch_of_lanes hi regs P
    (fun b i => R (thread b i)) (horder.nodup_iff.mpr List.nodup_range)
    (fun b hb b' hb' i i' hne p hp p' hp' => by
      obtain ⟨-, rfl⟩ := hP b i p hp
      obtain ⟨-, rfl⟩ := hP b' i' p' hp'
      have := hother hne
      dsimp only
      omega)
    (fun b hb b' hb' i i' hne p hp a ha => by
      obtain ⟨hlt, rfl⟩ := hP b i p hp
      exact hreads _ hlt _ (hother hne) a ha)
    fun b hb i m1 hm1 => hlane b ((hmem b).mp hb) i m1 hm1
  refine hends.mono fun m' logs ⟨hlogs, hloads, hval, hframe⟩ => ⟨?_, fun log hlog a ha => ?_,
    fun id hid => ?_, fun y hy => hframe y ?_⟩
  · have hflat : logs.flatMap written = order.flatMap fun b => (List.finRange 32).flatMap fun i =>
        if thread b i < n then [out + 4 * thread b i] else [] := by
      rw [List.flatMap_def, hlogs, List.flatMap_def, List.flatten_flatten, List.map_map, ← List.flatMap_def]
      apply List.flatMap_congr
      intro b _
      simp only [Function.comp_apply, ← List.flatMap_def]
      apply List.flatMap_congr
      intro i _
      by_cases hlt : thread b i < n
      · simp only [P, if_pos hlt, List.map_cons, List.map_nil]
      · simp only [P, if_neg hlt, List.map_nil]
    rw [hflat]
    exact threads_perm horder hn fun id => out + 4 * id
  · obtain ⟨b, -, i, hR⟩ := hloads log hlog a ha
    exact ⟨_, hR⟩
  · have hb : id / 32 < grid := by omega
    have hid' : thread (id / 32) (Fin.ofNat 32 id) = id := by
      unfold thread
      rw [Fin.val_ofNat]
      omega
    have h := hval (id / 32) ((hmem _).mpr hb) (Fin.ofNat 32 id) (out + 4 * id, val id) (by
      simp only [P, hid', if_pos hid, List.mem_singleton])
    exact h
  · rintro b hb ⟨i, p, hp, hin⟩
    obtain ⟨hlt, rfl⟩ := hP b i p hp
    dsimp only at hin
    omega

/-! ## One warp that goes over a vector -/

/-- What lane `i` writes in turn `t`: the element `t * 32 + i`. -/
def share (out : Nat) (val : Nat → V) (i : Fin 32) (t : Nat) : List (Nat × V) :=
  [(out + 4 * (t * 32 + i), val (t * 32 + i))]

theorem mem_shares {out n : Nat} {val : Nat → V} {i : Fin 32} {p : Nat × V}
    (hp : p ∈ rounds (share out val i) n) :
    ∃ t < n, p = (out + 4 * (t * 32 + i), val (t * 32 + i)) := by
  obtain ⟨t, ht, hp⟩ := mem_rounds.mp hp
  exact ⟨t, ht, List.mem_singleton.mp hp⟩

/-- The elements of `n` turns, lane by lane. -/
theorem turns_perm (n : Nat) :
    ((List.finRange 32).flatMap fun i => (List.range n).reverse.map fun t => t * 32 + i.val).Perm
      (List.range (n * 32)) := by
  refine (List.perm_ext_iff_of_nodup (List.nodup_flatMap.mpr ⟨fun i _ => ?_, ?_⟩) List.nodup_range).mpr
    fun id => ?_
  · refine (List.nodup_reverse.mpr List.nodup_range).map fun t t' ht => ?_
    omega
  · refine (List.nodup_finRange 32).imp fun {i i'} hne => ?_
    intro id hid hid'
    obtain ⟨t, -, rfl⟩ := List.mem_map.mp hid
    obtain ⟨t', -, ht'⟩ := List.mem_map.mp hid'
    exact hne (Fin.ext (by omega))
  · simp only [List.mem_flatMap, List.mem_map, List.mem_reverse, List.mem_range, List.mem_finRange,
      true_and]
    constructor
    · rintro ⟨i, t, ht, rfl⟩
      omega
    · intro hid
      refine ⟨Fin.ofNat 32 id, id / 32, by omega, ?_⟩
      rw [Fin.val_ofNat]
      omega

/-- A launch of one warp in which each lane writes its share of the vector at `out`. -/
theorem launch_of_turns {n : Nat} (hi : Nat) (regs : Nat → Fin 32 → Regs V) (out : Nat) (val : Nat → V)
    (R : Fin 32 → Nat → Prop)
    (hreads : ∀ i i', i ≠ i' → ∀ t < n, ∀ a, R i' a →
      out + 4 * (t * 32 + i.val) + 4 ≤ a ∨ a + 4 ≤ out + 4 * (t * 32 + i.val))
    (hlane : ∀ i, ∀ m1 : Nat → C, (∀ a, R i a → fm.get m1 a = fm.get m a) →
      Leads fm code m1 hi (begin_lane (regs 0 i) 0 args i)
        (LaneDone fm m1 (R i) (rounds (share out val i) n))) :
    Ends fm code regs args [0] m (Fills fm (fun a => ∃ i, R i a) out (n * 32) val m) := by
  have hends : Ends fm code regs args [0] m _ := launch_of_lanes hi regs
    (fun _ i => rounds (share out val i) n) (fun _ i => R i) (List.nodup_singleton 0)
    (fun b hb b' hb' i i' hne p hp p' hp' => by
      obtain rfl := List.mem_singleton.mp hb
      obtain rfl := List.mem_singleton.mp hb'
      obtain ⟨t, -, rfl⟩ := mem_shares hp
      obtain ⟨t', -, rfl⟩ := mem_shares hp'
      have hi : i.val ≠ i'.val := fun he => hne (congrArg _ (Fin.ext he))
      dsimp only
      omega)
    (fun b hb b' hb' i i' hne p hp a ha => by
      obtain rfl := List.mem_singleton.mp hb
      obtain rfl := List.mem_singleton.mp hb'
      obtain ⟨t, ht, rfl⟩ := mem_shares hp
      exact hreads i i' (fun he => hne (congrArg _ he)) t ht a ha)
    fun b hb i m1 hm1 => by
      obtain rfl := List.mem_singleton.mp hb
      exact hlane i m1 hm1
  refine hends.mono fun m' logs heff => ⟨?_, fun log hlog a ha => ?_, fun id hid => ?_,
    fun y hy => heff.frame y ?_⟩
  · have hflat : logs.flatMap written = ((List.finRange 32).flatMap fun i =>
        (List.range n).reverse.map fun t => t * 32 + i.val).map fun id => out + 4 * id := by
      rw [List.flatMap_def, heff.writes, List.flatMap_singleton, List.map_flatMap, List.flatMap_def]
      congr 1
      refine List.map_congr_left fun i _ => ?_
      unfold rounds share
      rw [List.map_flatMap, List.map_map, List.map_eq_flatMap]
      rfl
    rw [hflat]
    exact (turns_perm n).map _
  · obtain ⟨_, _, i, hR⟩ := heff.reads log hlog a ha
    exact ⟨i, hR⟩
  · have hid' : id / 32 * 32 + (Fin.ofNat 32 id).val = id := by
      rw [Fin.val_ofNat]
      omega
    have hval := heff.values 0 (List.mem_singleton.mpr rfl) (Fin.ofNat 32 id) _
      (mem_rounds.mpr ⟨id / 32, by omega, List.mem_singleton.mpr rfl⟩)
    rwa [hid'] at hval
  · rintro b - ⟨i, p, hp, hin⟩
    obtain ⟨t, ht, rfl⟩ := mem_shares hp
    dsimp only at hin
    omega

end gpgpu.core
