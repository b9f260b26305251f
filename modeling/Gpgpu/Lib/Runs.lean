-- Runs of a machine that may fault. A rule about one step gives the same rule
-- about every run: for an invariant, and for a machine that follows another.
import Mathlib

namespace runs

variable {σ τ ε : Type*}

/-- The state after the events, or `none` when a step faults. -/
def run (step : σ → ε → Option σ) : σ → List ε → Option σ
  | s, [] => some s
  | s, e :: es => (step s e).bind fun s' => run step s' es

theorem run_append (step : σ → ε → Option σ) (s : σ) (es fs : List ε) :
    run step s (es ++ fs) = (run step s es).bind fun s' => run step s' fs := by
  induction es generalizing s with
  | nil => rfl
  | cons e es ih =>
    rw [List.cons_append, run, run, Option.bind_assoc]
    congr 1
    funext s'
    exact ih s'

/-- When each step follows a step of another machine, a whole run does. -/
theorem run_follows {step : σ → ε → Option σ} (next : τ → ε → τ) (R : σ → τ → Prop)
    (hstep : ∀ s t e, R s t → ∃ s', step s e = some s' ∧ R s' (next t e)) {s : σ} {t : τ}
    (h : R s t) (es : List ε) : ∃ s', run step s es = some s' ∧ R s' (es.foldl next t) := by
  induction es generalizing s t with
  | nil => exact ⟨s, rfl, h⟩
  | cons e es ih =>
    obtain ⟨s1, h1, hR⟩ := hstep s t e h
    obtain ⟨s2, h2, hR2⟩ := ih hR
    exact ⟨s2, by rw [run, h1]; exact h2, hR2⟩

/-- When no step faults or leaves an invariant, no run does. -/
theorem run_keeps {step : σ → ε → Option σ} {I : σ → Prop}
    (hstep : ∀ s e, I s → ∃ s', step s e = some s' ∧ I s') {s : σ} (h : I s) (es : List ε) :
    ∃ s', run step s es = some s' ∧ I s' :=
  run_follows (fun (_ : Unit) _ => ()) (fun s _ => I s) (t := ())
    (fun s _ e hs => hstep s e hs) h es

/-- Every event of the run meets a condition in the state that it finds. -/
def Meets (step : σ → ε → Option σ) (P : σ → ε → Prop) : σ → List ε → Prop
  | _, [] => True
  | s, e :: es => P s e ∧ ((step s e).elim True fun s' => Meets step P s' es)

instance Meets.decidable (step : σ → ε → Option σ) (P : σ → ε → Prop)
    [∀ s e, Decidable (P s e)] : ∀ s es, Decidable (Meets step P s es)
  | _, [] => .isTrue trivial
  | s, e :: es =>
    match h : step s e with
    | none => decidable_of_iff (P s e) (by simp [Meets, h])
    | some s' =>
      have := Meets.decidable step P s' es
      decidable_of_iff (P s e ∧ Meets step P s' es) (by simp [Meets, h])

/-- An invariant that the steps keep under a condition holds after every run whose events
meet it. -/
theorem run_keeps_of_meets {step : σ → ε → Option σ} {P : σ → ε → Prop} {I : σ → Prop}
    (hstep : ∀ s e s', I s → P s e → step s e = some s' → I s') {s s' : σ} {es : List ε} (h : I s)
    (hmeets : Meets step P s es) (hrun : run step s es = some s') : I s' := by
  induction es generalizing s with
  | nil =>
    cases hrun
    exact h
  | cons e es ih =>
    obtain ⟨s1, hs1, hrest⟩ := Option.bind_eq_some_iff.mp hrun
    obtain ⟨hP, hmeets⟩ := hmeets
    rw [hs1] at hmeets
    exact ih (hstep s e s1 h hP hs1) hmeets hrest

/-- Events that change nothing may be left out. -/
theorem foldl_filter_of_stutter {next : τ → ε → τ} {keep : ε → Bool}
    (h : ∀ t e, keep e = false → next t e = t) (t : τ) (es : List ε) :
    (es.filter keep).foldl next t = es.foldl next t := by
  induction es generalizing t with
  | nil => rfl
  | cons e es ih =>
    cases he : keep e with
    | true => rw [List.filter_cons_of_pos he, List.foldl_cons, List.foldl_cons, ih]
    | false =>
      rw [List.filter_cons_of_neg (by simp [he]), List.foldl_cons, h t e he, ih]

end runs
