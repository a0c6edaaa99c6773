import LibMpq.Base.Effect

set_option autoImplicit false

namespace Effect

variable {ε σ τ α β : Type}

inductive Follows (own : ε → Prop) (R : σ → σ → Prop) : EStateM.Result ε σ α → EStateM.Result ε σ α → Prop
  | broke {e : ε} {s : σ} {q : EStateM.Result ε σ α} : own e → Follows own R (.error e s) q
  | alike {p q : EStateM.Result ε σ α} : Alike R p q → Follows own R p q

theorem Follows.mono {own : ε → Prop} {R R' : σ → σ → Prop} {p q : EStateM.Result ε σ α} (follows : Follows own R p q)
    (weaker : ∀ s t, R s t → R' s t) : Follows own R' p q := by
  cases follows with
  | broke mine => exact .broke mine
  | alike alike =>
    cases alike with
    | ok a related => exact .alike (.ok a (weaker _ _ related))
    | error e related => exact .alike (.error e (weaker _ _ related))

def Trails (own : ε → Prop) (R : σ → σ → Prop) (x y : Op ε σ α) : Prop :=
  ∀ s t, R s t → Follows own R (x s) (y t)

section trails

variable {own : ε → Prop} {R : σ → σ → Prop}

theorem Mirrors.trails {x y : Op ε σ α} (mirrors : Mirrors R x y) : Trails own R x y :=
  fun s t related => .alike (mirrors s t related)

theorem Trails.pure (a : α) : Trails own R (pure a : Op ε σ α) (pure a) := (Mirrors.pure a).trails

theorem Trails.throw (e : ε) : Trails own R (throw e : Op ε σ α) (throw e) := (Mirrors.throw e).trails

theorem Trails.failIf (c : Prop) [Decidable c] (e : ε) : Trails own R (failIf c e : Op ε σ Unit) (failIf c e) :=
  (Mirrors.failIf Iff.rfl e).trails

theorem Follows.bind {x y : Op ε σ α} {f g : α → Op ε σ β} {s t : σ} (first : Follows own R (x s) (y t))
    (rest : ∀ a s' t', x s = .ok a s' → y t = .ok a t' → R s' t' → Follows own R (f a s') (g a t')) :
    Follows own R ((x >>= f) s) ((y >>= g) t) := by
  rw [bind_run, bind_run]
  generalize first_run : x s = p at first ⊢
  generalize second_run : y t = q at first ⊢
  cases first with
  | broke mine => exact .broke mine
  | alike alike =>
    cases alike with
    | ok a related => exact rest a _ _ first_run second_run related
    | error e related => exact .alike (.error e related)

theorem Follows.failIf_bind {c : Prop} [Decidable c] {e : ε} {f g : Unit → Op ε σ β} {s t : σ} (related : R s t)
    (rest : ¬ c → Follows own R (f () s) (g () t)) :
    Follows own R ((Effect.failIf c e >>= f) s) ((Effect.failIf c e >>= g) t) := by
  by_cases fails : c
  · rw [bind_of_error (failIf_true fails _ _), bind_of_error (failIf_true fails _ _)]
    exact .alike (.error e related)
  · rw [bind_of_ok (failIf_false fails _ _), bind_of_ok (failIf_false fails _ _)]
    exact rest fails

theorem Trails.bind {x y : Op ε σ α} {f g : α → Op ε σ β} (first : Trails own R x y)
    (rest : ∀ a, Trails own R (f a) (g a)) : Trails own R (x >>= f) (y >>= g) :=
  fun s t related => (first s t related).bind fun a s' t' _ _ => rest a s' t'

theorem Trails.zoom {view : σ → τ} {store : τ → σ → σ} {S : τ → τ → Prop} {x y : Op ε τ α} (trails : Trails own S x y)
    (seen : ∀ s t, R s t → S (view s) (view t))
    (kept : ∀ u v s t, R s t → S u v → R (store u s) (store v t)) :
    Trails own R (zoom view store x) (zoom view store y) := by
  intro s t related
  have follows := trails _ _ (seen s t related)
  unfold Effect.zoom
  generalize x (view s) = p at follows ⊢
  generalize y (view t) = q at follows ⊢
  cases follows with
  | broke mine => exact .broke mine
  | alike alike =>
    cases alike with
    | ok a related' => exact .alike (.ok a (kept _ _ s t related related'))
    | error e related' => exact .alike (.error e (kept _ _ s t related related'))

theorem Trails.foldlM {step step' : β → α → Op ε σ β} (each : ∀ b a, Trails own R (step b a) (step' b a))
    (items : List α) (b : β) : Trails own R (items.foldlM step b) (items.foldlM step' b) := by
  induction items generalizing b with
  | nil => exact Trails.pure b
  | cons a rest ih => exact (each b a).bind ih

end trails

def Sound (_ plan : Faults) : Prop := plan = Faults.healthy

theorem request_trails {own : ε → Prop} {e : ε} (mine : own e) : Trails own Sound (request e) (request e) := by
  rintro plan _ rfl
  unfold request
  cases plan 0 with
  | none => exact .alike (.ok () rfl)
  | some k => exact .broke mine

end Effect
