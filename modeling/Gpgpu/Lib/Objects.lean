-- A store of named objects, and machines that serve it. A new object holds unknown data, a read
-- returns what was written last, and what is done under one name shows under no other.
import Mathlib

namespace objects

variable {κ β : Type*} [DecidableEq κ]

/-- An object: how much it holds, and what is known of it. -/
structure Object (β : Type*) where
  size : Nat
  known : Nat → Option β

/-- The objects by their names. -/
abbrev Store (κ β : Type*) := κ → Option (Object β)

/-- A new object. -/
def blank (n : Nat) : Object β := ⟨n, fun _ => none⟩

/-- The object after `xs` have been written from `i` on. -/
def Object.write (o : Object β) (i : Nat) (xs : List β) : Object β :=
  { o with known := fun j => if i ≤ j ∧ j < i + xs.length then xs[j - i]? else o.known j }

inductive Request (κ β : Type*)
  | make (k : κ) (n : Nat)
  | drop (k : κ)
  | put (k : κ) (i : Nat) (xs : List β)
  | get (k : κ) (i n : Nat)

inductive Answer (β : Type*)
  | refused
  | done
  | data (xs : List β)
deriving DecidableEq

/-- What the store may answer, and what it is afterwards. There may be no room for a new
object, a name that is taken cannot be made again, and what is not there is refused. -/
inductive Step : Store κ β → Request κ β → Answer β → Store κ β → Prop
  | made {σ : Store κ β} {k : κ} (n : Nat) (h : σ k = none) :
    Step σ (.make k n) .done (Function.update σ k (some (blank n)))
  | no_room (σ : Store κ β) (k : κ) (n : Nat) : Step σ (.make k n) .refused σ
  | dropped {σ : Store κ β} {k : κ} {o : Object β} (h : σ k = some o) :
    Step σ (.drop k) .done (Function.update σ k none)
  | put {σ : Store κ β} {k : κ} {o : Object β} {i : Nat} {xs : List β} (h : σ k = some o)
    (hin : i + xs.length ≤ o.size) :
    Step σ (.put k i xs) .done (Function.update σ k (some (o.write i xs)))
  | got {σ : Store κ β} {k : κ} {o : Object β} {i : Nat} {xs : List β} (h : σ k = some o)
    (hin : i + xs.length ≤ o.size)
    (hknown : ∀ j < xs.length, ∀ x, o.known (i + j) = some x → xs[j]? = some x) :
    Step σ (.get k i xs.length) (.data xs) σ
  | no_drop {σ : Store κ β} {k : κ} (h : σ k = none) : Step σ (.drop k) .refused σ
  | no_put {σ : Store κ β} {k : κ} {i : Nat} {xs : List β} (h : ∀ o ∈ σ k, o.size < i + xs.length) :
    Step σ (.put k i xs) .refused σ
  | no_get {σ : Store κ β} {k : κ} {i n : Nat} (h : ∀ o ∈ σ k, o.size < i + n) :
    Step σ (.get k i n) .refused σ

/-- The requests, one after the other, with their answers. -/
inductive Served : Store κ β → List (Request κ β) → List (Answer β) → Prop
  | nil (σ : Store κ β) : Served σ [] []
  | cons {σ σ' : Store κ β} {r : Request κ β} {a : Answer β} {rs : List (Request κ β)}
    {as : List (Answer β)} (h : Step σ r a σ') (hrest : Served σ' rs as) : Served σ (r :: rs) (a :: as)

/-- Where a changed table has an entry. -/
theorem update_some {α : Type*} {t : κ → Option α} {k k' : κ} {v : Option α} {x : α}
    (h : Function.update t k v k' = some x) : (k' = k ∧ v = some x) ∨ (k' ≠ k ∧ t k' = some x) := by
  by_cases hk : k' = k
  · subst hk
    rw [Function.update_self] at h
    exact .inl ⟨rfl, h⟩
  · rw [Function.update_of_ne hk] at h
    exact .inr ⟨hk, h⟩

section

variable {S ε α : Type*}

/-- The answers of a machine, or `none` when a step faults. -/
def answers (step : S → ε → Option (α × S)) : S → List ε → Option (List α)
  | _, [] => some []
  | s, e :: es => (step s e).bind fun r => (answers step r.2 es).map (r.1 :: ·)

/-- When each step of a machine is one of the store, all its answers are. -/
theorem answers_served {step : S → ε → Option (Answer β × S)} {req : ε → Request κ β}
    (R : S → Store κ β → Prop)
    (hstep : ∀ s σ e, R s σ → ∃ a s' σ', step s e = some (a, s') ∧ Step σ (req e) a σ' ∧ R s' σ')
    {s : S} {σ : Store κ β} (h : R s σ) (es : List ε) :
    ∃ as, answers step s es = some as ∧ Served σ (es.map req) as := by
  induction es generalizing s σ with
  | nil => exact ⟨[], rfl, .nil σ⟩
  | cons e es ih =>
    obtain ⟨a, s', σ', hcode, hone, hR⟩ := hstep s σ e h
    obtain ⟨as, hrest, hserved⟩ := ih hR
    exact ⟨a :: as, by rw [answers, hcode, Option.bind_some, hrest]; rfl, .cons hone hserved⟩

end

end objects
