import Mathlib.Tactic.Common
import Mathlib.Order.Defs.Unbundled

set_option autoImplicit false

-- A call of a C function over explicit state: a failing call leaves the state where it
-- stopped, as early returns in C do. The host may refuse any request for memory or I/O; the
-- refusals are listed in advance by a fault plan.

namespace Effect

variable {ε σ τ α β γ : Type}

abbrev Op (ε σ α : Type) := EStateM ε σ α

/-- The state a call leaves behind, whatever it returned. -/
def final : EStateM.Result ε σ α → σ
  | .ok _ s => s
  | .error _ s => s

@[simp] theorem final_ok (a : α) (s : σ) : final (.ok a s : EStateM.Result ε σ α) = s := rfl

@[simp] theorem final_error (e : ε) (s : σ) : final (.error e s : EStateM.Result ε σ α) = s := rfl

def succeeded : EStateM.Result ε σ α → Bool
  | .ok _ _ => true
  | .error _ _ => false

def failIf (c : Prop) [Decidable c] (e : ε) : Op ε σ Unit :=
  if c then throw e else pure ()

/-- Run a call on one part of a larger state. -/
def zoom (view : σ → τ) (store : τ → σ → σ) (x : Op ε τ α) : Op ε σ α := fun s =>
  match x (view s) with
  | .ok a t => .ok a (store t s)
  | .error e t => .error e (store t s)

def fromExcept : Except ε α → Op ε σ α
  | .ok a => pure a
  | .error e => throw e

/-- Run a call whose failure the caller only remembers. -/
def attempt (x : Op ε σ α) : Op ε σ (Option α) := fun s =>
  match x s with
  | .ok a s' => .ok (some a) s'
  | .error _ s' => .ok none s'

@[simp] theorem pure_run (a : α) (s : σ) : (pure a : Op ε σ α) s = .ok a s := rfl

theorem pure_ok {a b : α} {s s' : σ} : (pure a : Op ε σ α) s = .ok b s' ↔ b = a ∧ s' = s := by
  simp [eq_comm]

@[simp] theorem throw_run (e : ε) (s : σ) : (throw e : Op ε σ α) s = .error e s := rfl

@[simp] theorem get_run (s : σ) : (get : Op ε σ σ) s = .ok s s := rfl

@[simp] theorem set_run (t s : σ) : (set t : Op ε σ PUnit) s = .ok ⟨⟩ t := rfl

@[simp] theorem modify_run (f : σ → σ) (s : σ) :
    (modify f : Op ε σ PUnit) s = .ok ⟨⟩ (f s) := rfl

theorem bind_run (x : Op ε σ α) (f : α → Op ε σ β) (s : σ) :
    (x >>= f) s = match x s with
      | .ok a s' => f a s'
      | .error e s' => .error e s' := rfl

@[simp] theorem bind_of_ok {x : Op ε σ α} {s s' : σ} {a : α} (run : x s = .ok a s')
    (f : α → Op ε σ β) : (x >>= f) s = f a s' := by
  rw [bind_run, run]

@[simp] theorem bind_of_error {x : Op ε σ α} {s s' : σ} {e : ε} (run : x s = .error e s')
    (f : α → Op ε σ β) : (x >>= f) s = .error e s' := by
  rw [bind_run, run]

theorem bind_ok {x : Op ε σ α} {f : α → Op ε σ β} {s s'' : σ} {b : β} :
    (x >>= f) s = .ok b s'' ↔ ∃ a s', x s = .ok a s' ∧ f a s' = .ok b s'' := by
  rw [bind_run]
  cases run : x s <;> simp

@[simp] theorem failIf_true {c : Prop} [Decidable c] (h : c) (e : ε) (s : σ) :
    failIf c e s = .error e s := by
  simp [failIf, h]

@[simp] theorem failIf_false {c : Prop} [Decidable c] (h : ¬ c) (e : ε) (s : σ) :
    failIf c e s = .ok () s := by
  simp [failIf, h]

theorem failIf_ok {c : Prop} [Decidable c] {e : ε} {s s' : σ} {u : Unit} :
    failIf c e s = .ok u s' ↔ ¬ c ∧ s' = s := by
  by_cases h : c <;> simp [h, eq_comm]

theorem failIf_bind_ok {c : Prop} [Decidable c] {e : ε} {f : Unit → Op ε σ β} {s s' : σ} {b : β} :
    (failIf c e >>= f) s = .ok b s' ↔ ¬ c ∧ f () s = .ok b s' := by
  by_cases h : c <;> simp [bind_run, h]

theorem zoom_ok {view : σ → τ} {store : τ → σ → σ} {x : Op ε τ α} {s s' : σ} {a : α} :
    zoom view store x s = .ok a s' ↔ ∃ t, x (view s) = .ok a t ∧ s' = store t s := by
  unfold zoom
  cases run : x (view s) <;> simp [eq_comm]

theorem fromExcept_ok {r : Except ε α} {s s' : σ} {a : α} :
    fromExcept r s = .ok a s' ↔ r = .ok a ∧ s' = s := by
  cases r <;> simp [fromExcept, eq_comm]

theorem attempt_ok {x : Op ε σ α} {s s' : σ} {r : Option α} :
    attempt x s = .ok r s' ↔
      (∃ a, r = some a ∧ x s = .ok a s') ∨ (r = none ∧ ∃ e, x s = .error e s') := by
  unfold attempt
  cases run : x s <;> simp [eq_comm]

theorem foldlM_range_succ {step : β → Nat → Op ε σ β} {b b' b'' : β} {s s' s'' : σ} {k : Nat}
    (run : (List.range k).foldlM step b s = .ok b' s') (next : step b' k s' = .ok b'' s'') :
    (List.range (k + 1)).foldlM step b s = .ok b'' s'' := by
  rw [List.range_succ, List.foldlM_append, bind_of_ok run, List.foldlM_cons, bind_of_ok next,
    List.foldlM_nil, pure_run]

/-- Every outcome of the call, failed or not, relates its start and end states. -/
def Keeps (R : σ → σ → Prop) (x : Op ε σ α) : Prop := ∀ s, R s (final (x s))

section keeps

variable {R : σ → σ → Prop}

theorem Keeps.ok {x : Op ε σ α} (keeps : Keeps R x) {s s' : σ} {a : α}
    (run : x s = .ok a s') : R s s' := by
  simpa [run] using keeps s

theorem Keeps.error {x : Op ε σ α} (keeps : Keeps R x) {s s' : σ} {e : ε}
    (run : x s = .error e s') : R s s' := by
  simpa [run] using keeps s

theorem Keeps.modify {f : σ → σ} (step : ∀ s, R s (f s)) :
    Keeps R (modify f : Op ε σ PUnit) := step

theorem Keeps.zoom {view : σ → τ} {store : τ → σ → σ} {S : τ → τ → Prop} {x : Op ε τ α}
    (keeps : Keeps S x) (lift : ∀ s t, S (view s) t → R s (store t s)) :
    Keeps R (zoom view store x) := by
  intro s
  unfold Effect.zoom
  have kept := keeps (view s)
  cases run : x (view s) <;> rw [run] at kept <;> exact lift s _ kept

theorem Keeps.mono {S : σ → σ → Prop} {x : Op ε σ α} (keeps : Keeps S x) (weaker : ∀ s t, S s t → R s t) :
    Keeps R x := fun s => weaker s _ (keeps s)

theorem Keeps.of_true (x : Op ε σ α) : Keeps (fun _ _ => True) x := fun _ => trivial

section reflexive

variable [Std.Refl R]

theorem Keeps.pure (a : α) : Keeps R (pure a : Op ε σ α) := fun s => refl_of R s

theorem Keeps.throw (e : ε) : Keeps R (throw e : Op ε σ α) := fun s => refl_of R s

theorem Keeps.get : Keeps R (get : Op ε σ σ) := fun s => refl_of R s

theorem Keeps.failIf (c : Prop) [Decidable c] (e : ε) : Keeps R (failIf c e : Op ε σ Unit) := by
  intro s
  by_cases h : c <;> simp [h, refl_of R s]

theorem Keeps.fromExcept (r : Except ε α) : Keeps R (fromExcept r : Op ε σ α) := by
  intro s
  cases r <;> exact refl_of R s

end reflexive

theorem Keeps.bind [IsTrans σ R] {x : Op ε σ α} {f : α → Op ε σ β} (first : Keeps R x)
    (rest : ∀ a, Keeps R (f a)) : Keeps R (x >>= f) := by
  intro s
  rw [bind_run]
  cases run : x s with
  | ok a s' => exact trans_of R (first.ok run) (rest a s')
  | error e s' => exact first.error run

theorem Keeps.attempt {x : Op ε σ α} (keeps : Keeps R x) : Keeps R (attempt x) := by
  intro s
  have kept := keeps s
  unfold Effect.attempt
  cases run : x s <;> rw [run] at kept <;> exact kept

theorem Keeps.foldlM [Std.Refl R] [IsTrans σ R] {step : β → α → Op ε σ β}
    (each : ∀ b a, Keeps R (step b a)) (items : List α) (b : β) :
    Keeps R (items.foldlM step b) := by
  induction items generalizing b with
  | nil => exact Keeps.pure b
  | cons a rest ih => exact Keeps.bind (each b a) ih

theorem bind_elim_at [IsTrans σ R] {P : EStateM.Result ε σ β → Prop} {x : Op ε σ α}
    {f : α → Op ε σ β} {s t : σ} (step : R t (final (x t))) (start : R s t)
    (failed : ∀ e s', R s s' → P (.error e s'))
    (next : ∀ a s', x t = .ok a s' → R s s' → P (f a s')) : P ((x >>= f) t) := by
  rw [bind_run]
  cases run : x t with
  | ok a s' =>
    rw [run] at step
    exact next a s' run (trans_of R start step)
  | error e s' =>
    rw [run] at step
    exact failed e s' (trans_of R start step)

theorem Keeps.bind_elim [IsTrans σ R] {P : EStateM.Result ε σ β → Prop} {x : Op ε σ α}
    {f : α → Op ε σ β} {s t : σ} (keeps : Keeps R x) (start : R s t)
    (failed : ∀ e s', R s s' → P (.error e s'))
    (next : ∀ a s', x t = .ok a s' → R s s' → P (f a s')) : P ((x >>= f) t) :=
  bind_elim_at (keeps t) start failed next

end keeps

def mapState (f : σ → τ) : EStateM.Result ε σ α → EStateM.Result ε τ α
  | .ok a s => .ok a (f s)
  | .error e s => .error e (f s)

/-- Changing the state by `f` before the call or after it is the same. -/
def Commutes (f : σ → σ) (x : Op ε σ α) : Prop := ∀ s, x (f s) = mapState f (x s)

section commutes

variable {f : σ → σ}

theorem Commutes.pure (a : α) : Commutes f (pure a : Op ε σ α) := fun _ => rfl

theorem Commutes.throw (e : ε) : Commutes f (throw e : Op ε σ α) := fun _ => rfl

theorem Commutes.failIf (c : Prop) [Decidable c] (e : ε) : Commutes f (failIf c e : Op ε σ Unit) := by
  intro s
  by_cases h : c <;> simp [h, mapState]

theorem Commutes.fromExcept (r : Except ε α) : Commutes f (fromExcept r : Op ε σ α) := by
  intro s
  cases r <;> rfl

theorem Commutes.modify {g : σ → σ} (swap : ∀ s, g (f s) = f (g s)) :
    Commutes f (modify g : Op ε σ PUnit) := by
  intro s
  rw [modify_run, swap]
  rfl

theorem Commutes.bind {x : Op ε σ α} {g : α → Op ε σ β} (first : Commutes f x)
    (rest : ∀ a, Commutes f (g a)) : Commutes f (x >>= g) := by
  intro s
  rw [bind_run, bind_run, first s]
  cases x s with
  | ok a s' => exact rest a s'
  | error e s' => rfl

theorem Commutes.get_bind {g : σ → Op ε σ β} (blind : ∀ s, g (f s) = g s)
    (rest : ∀ s, Commutes f (g s)) : Commutes f (get >>= g) := by
  intro s
  rw [bind_of_ok (get_run _), bind_of_ok (get_run _), blind]
  exact rest s s

theorem Commutes.zoom {view : σ → τ} {store : τ → σ → σ} (x : Op ε τ α)
    (same : ∀ s, view (f s) = view s) (swap : ∀ t s, store t (f s) = f (store t s)) :
    Commutes f (zoom view store x) := by
  intro s
  unfold Effect.zoom
  rw [same]
  cases x (view s) <;> simp [mapState, swap]

end commutes

/-- The same answer, with end states that correspond. -/
inductive Alike (R : σ → σ → Prop) : EStateM.Result ε σ α → EStateM.Result ε σ α → Prop
  | ok {s t : σ} (a : α) : R s t → Alike R (.ok a s) (.ok a t)
  | error {s t : σ} (e : ε) : R s t → Alike R (.error e s) (.error e t)

theorem Alike.final {R : σ → σ → Prop} {p q : EStateM.Result ε σ α} (alike : Alike R p q) :
    R (final p) (final q) := by
  cases alike with
  | ok a related => exact related
  | error e related => exact related

theorem Alike.bind {R : σ → σ → Prop} {x y : Op ε σ α} {f g : α → Op ε σ β} {s t : σ} (first : Alike R (x s) (y t))
    (rest : ∀ a s' t', x s = .ok a s' → R s' t' → Alike R (f a s') (g a t')) : Alike R ((x >>= f) s) ((y >>= g) t) := by
  rw [bind_run, bind_run]
  cases run : x s with
  | error e s' =>
    rw [run] at first
    cases run' : y t with
    | error e' t' =>
      rw [run'] at first
      cases first with
      | error _ related => exact .error e related
    | ok b t' => rw [run'] at first; cases first
  | ok a s' =>
    rw [run] at first
    cases run' : y t with
    | error e' t' => rw [run'] at first; cases first
    | ok b t' =>
      rw [run'] at first
      cases first with
      | ok _ related => exact rest a s' t' run related

/-- From corresponding states the two calls end alike. -/
def Mirrors (R : σ → σ → Prop) (x y : Op ε σ α) : Prop := ∀ s t, R s t → Alike R (x s) (y t)

section mirrors

variable {R : σ → σ → Prop}

theorem Mirrors.pure (a : α) : Mirrors R (pure a : Op ε σ α) (pure a) := fun _ _ related => .ok a related

theorem Mirrors.throw (e : ε) : Mirrors R (throw e : Op ε σ α) (throw e) :=
  fun _ _ related => .error e related

theorem Mirrors.failIf {c d : Prop} [Decidable c] [Decidable d] (same : c ↔ d) (e : ε) :
    Mirrors R (failIf c e : Op ε σ Unit) (failIf d e) := by
  intro s t related
  by_cases h : c
  · rw [failIf_true h, failIf_true (same.mp h)]
    exact .error e related
  · rw [failIf_false h, failIf_false (h ∘ same.mpr)]
    exact .ok () related

theorem Mirrors.fromExcept (r : Except ε α) : Mirrors R (fromExcept r : Op ε σ α) (fromExcept r) := by
  cases r with
  | ok a => exact Mirrors.pure a
  | error e => exact Mirrors.throw e

theorem Mirrors.modify {f : σ → σ} (step : ∀ s t, R s t → R (f s) (f t)) :
    Mirrors R (modify f : Op ε σ PUnit) (modify f) := fun s t related => .ok _ (step s t related)

theorem Mirrors.bind {x y : Op ε σ α} {f g : α → Op ε σ β} (first : Mirrors R x y)
    (rest : ∀ a, Mirrors R (f a) (g a)) : Mirrors R (x >>= f) (y >>= g) := by
  intro s t related
  have alike := first s t related
  rw [bind_run, bind_run]
  generalize x s = p at alike ⊢
  generalize y t = q at alike ⊢
  cases alike with
  | ok a related' => exact rest a _ _ related'
  | error e related' => exact .error e related'

theorem Mirrors.get_bind {f g : σ → Op ε σ β} (rest : ∀ s t, R s t → Mirrors R (f s) (g t)) :
    Mirrors R (get >>= f) (get >>= g) := by
  intro s t related
  rw [bind_of_ok (get_run s), bind_of_ok (get_run t)]
  exact rest s t related s t related

theorem Mirrors.zoom {view : σ → τ} {store : τ → σ → σ} (x : Op ε τ α)
    (same : ∀ s t, R s t → view t = view s) (kept : ∀ u s t, R s t → R (store u s) (store u t)) :
    Mirrors R (zoom view store x) (zoom view store x) := by
  intro s t related
  unfold Effect.zoom
  rw [same s t related]
  cases x (view s) with
  | ok a u => exact .ok a (kept u s t related)
  | error e u => exact .error e (kept u s t related)

theorem Mirrors.attempt {x y : Op ε σ α} (mirrors : Mirrors R x y) :
    Mirrors R (attempt x) (attempt y) := by
  intro s t related
  have alike := mirrors s t related
  unfold Effect.attempt
  generalize x s = p at alike ⊢
  generalize y t = q at alike ⊢
  cases alike with
  | ok a related' => exact .ok _ related'
  | error e related' => exact .ok _ related'

theorem Mirrors.foldlM {step step' : β → α → Op ε σ β}
    (each : ∀ b a, Mirrors R (step b a) (step' b a)) (items : List α) (b : β) :
    Mirrors R (items.foldlM step b) (items.foldlM step' b) := by
  induction items generalizing b with
  | nil => exact Mirrors.pure b
  | cons a rest ih => exact Mirrors.bind (each b a) ih

end mirrors

/-- The outcome of every coming request to the host: `none` serves it, `some k`
refuses it after `k` bytes of it took effect. -/
abbrev Faults := Nat → Option Nat

namespace Faults

def healthy : Faults := fun _ => none

def rest (plan : Faults) : Faults := fun n => plan (n + 1)

@[simp] theorem healthy_next : healthy 0 = none := rfl

@[simp] theorem rest_healthy : rest healthy = healthy := rfl

end Faults

def request (e : ε) : Op ε Faults Unit := fun plan =>
  match plan 0 with
  | none => .ok () plan.rest
  | some _ => .error e plan.rest

def Faults.Steady (plan plan' : Faults) : Prop := plan = healthy → plan' = healthy

instance : Std.Refl Faults.Steady := ⟨fun _ => id⟩

instance : IsTrans Faults Faults.Steady := ⟨fun _ _ _ first second => second ∘ first⟩

theorem request_steady (e : ε) : Keeps Faults.Steady (request e : Op ε Faults Unit) := by
  rintro _ rfl
  rfl

@[simp] theorem request_healthy (e : ε) : request e Faults.healthy = .ok () Faults.healthy := rfl

end Effect
