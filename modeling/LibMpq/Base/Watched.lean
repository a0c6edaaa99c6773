import LibMpq.Base.Checked

set_option autoImplicit false

-- A call written once without and once with the watched steps of `Checked`. On the states of
-- an invariant the watched call does what the plain one does, so no undefined step is taken
-- and nothing else changes.

namespace Effect

variable {ε σ τ α β : Type}

def plainly (x : Op ε σ α) : Op (Stop ε) σ α := fun s =>
  match x s with
  | .ok a s' => .ok a s'
  | .error e s' => .error (.error e) s'

def Undefined : EStateM.Result (Stop ε) σ α → Prop
  | .error .undefined _ => True
  | _ => False

def outcome (x : Op (Stop ε) σ α) : Op (Stop ε) σ (Except ε α) := fun s =>
  match x s with
  | .ok a s' => .ok (.ok a) s'
  | .error (.error e) s' => .ok (.error e) s'
  | .error stop s' => .error stop s'

theorem plainly_ok {x : Op ε σ α} {s s' : σ} {a : α} (run : x s = .ok a s') : plainly x s = .ok a s' := by
  rw [plainly, run]

theorem plainly_error {x : Op ε σ α} {s s' : σ} {e : ε} (run : x s = .error e s') :
    plainly x s = .error (.error e) s' := by
  rw [plainly, run]

theorem plainly_defined (x : Op ε σ α) (s : σ) : ¬ Undefined (plainly x s) := by
  rw [plainly]
  cases x s <;> exact id

theorem plainly_value (a : α) : plainly (fromExcept (.ok a) : Op ε σ α) = pure a := rfl

theorem plainly_failIf (c : Prop) [Decidable c] (e : ε) :
    plainly (failIf c e : Op ε σ Unit) = stopIf c e := by
  by_cases h : c <;> simp only [failIf, stopIf, h, if_true, if_false] <;> rfl

theorem require_true {c : Prop} [Decidable c] (h : c) : (require c : Op (Stop ε) σ Unit) = pure () :=
  funext (require_of h)

def Tracks (inv : σ → Prop) (w : Op (Stop ε) σ α) (x : Op ε σ α) : Prop :=
  ∀ s, inv s → w s = plainly x s ∧ inv (final (x s))

namespace Tracks

variable {inv : σ → Prop}

theorem defined {w : Op (Stop ε) σ α} {x : Op ε σ α} (tracks : Tracks inv w x) {s : σ} (holds : inv s) :
    ¬ Undefined (w s) := by
  rw [(tracks s holds).1]
  exact plainly_defined x s

theorem plain {x : Op ε σ α} (keeps : ∀ s, inv s → inv (final (x s))) : Tracks inv (plainly x) x :=
  fun s holds => ⟨rfl, keeps s holds⟩

theorem pure (a : α) : Tracks inv (pure a : Op (Stop ε) σ α) (pure a) := fun _ holds => ⟨rfl, holds⟩

theorem throw (e : ε) : Tracks inv (throw (.error e) : Op (Stop ε) σ α) (throw e) := fun _ holds => ⟨rfl, holds⟩

theorem bind {w : Op (Stop ε) σ α} {x : Op ε σ α} {fw : α → Op (Stop ε) σ β} {fx : α → Op ε σ β}
    (first : Tracks inv w x) (then_ : ∀ a, Tracks inv (fw a) (fx a)) : Tracks inv (w >>= fw) (x >>= fx) := by
  intro s holds
  obtain ⟨same, kept⟩ := first s holds
  rw [bind_run, same, plainly, plainly, bind_run]
  cases run : x s with
  | ok a s' =>
    rw [run] at kept
    exact then_ a s' kept
  | error e s' =>
    rw [run] at kept
    exact ⟨rfl, kept⟩

theorem get {fw : σ → Op (Stop ε) σ β} {fx : σ → Op ε σ β} (then_ : ∀ s, inv s → Tracks inv (fw s) (fx s)) :
    Tracks inv (get >>= fw) (get >>= fx) := fun s holds => then_ s holds s holds

theorem stopIf {c : Prop} [Decidable c] {e : ε} {fw : Unit → Op (Stop ε) σ β} {fx : Unit → Op ε σ β}
    (then_ : ¬ c → Tracks inv (fw ()) (fx ())) : Tracks inv (stopIf c e >>= fw) (failIf c e >>= fx) := by
  intro s holds
  by_cases h : c
  next =>
    rw [bind_of_error (stopIf_true h e s), plainly, bind_of_error (failIf_true h e s)]
    exact ⟨rfl, holds⟩
  next =>
    rw [bind_of_ok (stopIf_false h e s), plainly, bind_of_ok (failIf_false h e s)]
    exact then_ h s holds

theorem ite {c : Prop} [Decidable c] {w w' : Op (Stop ε) σ α} {x x' : Op ε σ α}
    (holds : c → Tracks inv w x) (fails : ¬ c → Tracks inv w' x') :
    Tracks inv (if c then w else w') (if c then x else x') := by
  by_cases h : c
  next =>
    rw [if_pos h, if_pos h]
    exact holds h
  next =>
    rw [if_neg h, if_neg h]
    exact fails h

theorem fromExcept (r : Except ε α) : Tracks inv (plainly (fromExcept r)) (fromExcept r : Op ε σ α) := by
  refine plain fun s holds => ?_
  cases r <;> exact holds

theorem recover {w : Op (Stop ε) σ α} {x : Op ε σ α} (tracks : Tracks inv w x) :
    Tracks inv (recover w) (attempt x) := by
  intro s holds
  obtain ⟨same, kept⟩ := tracks s holds
  rw [Effect.recover, same, plainly, plainly, attempt]
  cases run : x s <;> rw [run] at kept <;> exact ⟨rfl, kept⟩

theorem foldlM {step : β → α → Op ε σ β} {watched : β → α → Op (Stop ε) σ β}
    (each : ∀ b a, Tracks inv (watched b a) (step b a)) (items : List α) (b : β) :
    Tracks inv (items.foldlM watched b) (items.foldlM step b) := by
  induction items generalizing b with
  | nil => exact pure b
  | cons a rest ih => exact bind (each b a) ih

theorem zoom {inner : τ → Prop} {view : σ → τ} {store : τ → σ → σ} {w : Op (Stop ε) τ α} {x : Op ε τ α}
    (tracks : Tracks inner w x) (sees : ∀ s, inv s → inner (view s))
    (stores : ∀ s, inv s → ∀ t, inner t → inv (store t s)) :
    Tracks inv (zoom view store w) (zoom view store x) := by
  intro s holds
  obtain ⟨same, kept⟩ := tracks (view s) (sees s holds)
  rw [Effect.zoom, same, plainly, plainly, Effect.zoom]
  cases run : x (view s) with
  | ok a t =>
    rw [run] at kept
    exact ⟨rfl, stores s holds t kept⟩
  | error e t =>
    rw [run] at kept
    exact ⟨rfl, stores s holds t kept⟩

end Tracks

end Effect
