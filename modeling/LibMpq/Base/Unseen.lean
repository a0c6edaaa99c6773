import LibMpq.Base.Checked

set_option autoImplicit false

namespace Effect

variable {ε σ α β : Type}

def through (f : σ → σ) : EStateM.Result ε σ α → EStateM.Result ε σ α
  | .ok a s => .ok a (f s)
  | .error e s => .error e (f s)

def Unseen (f : σ → σ) (x : Op ε σ α) : Prop := ∀ s, x (f s) = through f (x s)

namespace Unseen

variable {f : σ → σ}

theorem ok {x : Op ε σ α} (unseen : Unseen f x) {s s' : σ} {a : α} (run : x s = .ok a s') : x (f s) = .ok a (f s') := by
  rw [unseen s, run]
  rfl

theorem pure (a : α) : Unseen f (pure a : Op ε σ α) := fun _ => rfl

theorem throw (e : ε) : Unseen f (throw e : Op ε σ α) := fun _ => rfl

theorem bind {x : Op ε σ α} {k : α → Op ε σ β} (first : Unseen f x) (then_ : ∀ a, Unseen f (k a)) :
    Unseen f (x >>= k) := by
  intro s
  rw [bind_run, first s, bind_run]
  cases run : x s with
  | ok a s' => exact then_ a s'
  | error e s' => rfl

theorem get {k : σ → Op ε σ β} (same : ∀ s, k (f s) = k s) (then_ : ∀ s, Unseen f (k s)) : Unseen f (get >>= k) := by
  intro s
  show k (f s) (f s) = through f (k s s)
  rw [same, then_ s s]

theorem modify {g : σ → σ} (apart : ∀ s, g (f s) = f (g s)) : Unseen f (modify g : Op ε σ PUnit) := by
  intro s
  show EStateM.Result.ok PUnit.unit (g (f s)) = _
  rw [apart]
  rfl

theorem ite {c : Prop} [Decidable c] {x y : Op ε σ α} (holds : Unseen f x) (fails : Unseen f y) :
    Unseen f (if c then x else y) := by
  split
  · exact holds
  · exact fails

theorem require (c : Prop) [Decidable c] : Unseen f (require c : Op (Stop ε) σ Unit) := ite (throw _) (pure _)

theorem rounds {body : α → Op (Stop ε) σ (α ⊕ β)} (each : ∀ a, Unseen f (body a)) (fuel : Nat) (a : α) :
    Unseen f (rounds body fuel a) := by
  induction fuel generalizing a with
  | zero => exact throw _
  | succ fuel ih =>
    refine bind (each a) fun next => ?_
    cases next with
    | inl a' => exact ih a'
    | inr b => exact pure b

end Unseen

end Effect
