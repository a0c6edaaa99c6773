import Mathlib.Algebra.Order.Ring.Int
import LibMpq.Base.Effect

set_option autoImplicit false

-- C leaves a read or a write outside a buffer undefined, and an arithmetic step beyond its
-- type as well. Here such a step stops the call in a way that no error code does, so that a
-- proof can rule it out; so does a loop that has used up its rounds.

namespace Effect

/-- Why a call stopped: an undefined step, no more rounds, or an error code of its own. -/
inductive Stop (ε : Type)
  | undefined
  | unfinished
  | error (e : ε)
deriving DecidableEq

variable {ε σ α β γ : Type}

def stopIf (c : Prop) [Decidable c] (e : ε) : Op (Stop ε) σ Unit := failIf c (.error e)

/-- A step that is defined under a condition only. -/
def require (c : Prop) [Decidable c] : Op (Stop ε) σ Unit := failIf (¬ c) .undefined

def load (buffer : List γ) (offset count : Nat) : Op (Stop ε) σ (List γ) := do
  require (offset + count ≤ buffer.length)
  pure ((buffer.drop offset).take count)

def splice (buffer : List γ) (offset : Nat) (data : List γ) : List γ :=
  buffer.take offset ++ data ++ buffer.drop (offset + data.length)

def store (buffer : List γ) (offset : Nat) (data : List γ) : Op (Stop ε) σ (List γ) := do
  require (offset + data.length ≤ buffer.length)
  pure (splice buffer offset data)

def minus (a b : Nat) : Op (Stop ε) σ Nat := do
  require (b ≤ a)
  pure (a - b)

def plus64 (a b : Int) : Op (Stop ε) σ Int := do
  require (-2 ^ 63 ≤ a + b ∧ a + b < 2 ^ 63)
  pure (a + b)

/-- Run a call whose error code the caller only remembers; an undefined step stays one. -/
def recover (x : Op (Stop ε) σ α) : Op (Stop ε) σ (Option α) := fun s =>
  match x s with
  | .ok a s' => .ok (some a) s'
  | .error (.error _) s' => .ok none s'
  | .error stop s' => .error stop s'

theorem require_of {c : Prop} [Decidable c] (h : c) (s : σ) :
    (require c : Op (Stop ε) σ Unit) s = .ok () s := failIf_false (not_not.mpr h) _ s

theorem require_not {c : Prop} [Decidable c] (h : ¬ c) (s : σ) :
    (require c : Op (Stop ε) σ Unit) s = .error .undefined s := failIf_true h _ s

theorem stopIf_true {c : Prop} [Decidable c] (h : c) (e : ε) (s : σ) :
    (stopIf c e : Op (Stop ε) σ Unit) s = .error (.error e) s := failIf_true h _ s

theorem stopIf_false {c : Prop} [Decidable c] (h : ¬ c) (e : ε) (s : σ) :
    (stopIf c e : Op (Stop ε) σ Unit) s = .ok () s := failIf_false h _ s

theorem load_of {buffer : List γ} {offset count : Nat} (inside : offset + count ≤ buffer.length)
    (s : σ) : (load buffer offset count : Op (Stop ε) σ (List γ)) s =
      .ok ((buffer.drop offset).take count) s := by
  rw [load, bind_of_ok (require_of inside s), pure_run]

theorem load_outside {buffer : List γ} {offset count : Nat} (outside : buffer.length < offset + count)
    (s : σ) : (load buffer offset count : Op (Stop ε) σ (List γ)) s = .error .undefined s := by
  rw [load, bind_of_error (require_not (Nat.not_le.mpr outside) s)]

theorem store_of {buffer data : List γ} {offset : Nat}
    (inside : offset + data.length ≤ buffer.length) (s : σ) :
    (store buffer offset data : Op (Stop ε) σ (List γ)) s =
      .ok (splice buffer offset data) s := by
  rw [store, bind_of_ok (require_of inside s), pure_run]

theorem splice_length {buffer data : List γ} {offset : Nat}
    (inside : offset + data.length ≤ buffer.length) : (splice buffer offset data).length = buffer.length := by
  simp only [splice, List.length_append, List.length_take, List.length_drop]
  omega

theorem splice_append (before data after : List γ) :
    splice (before ++ after) before.length data = before ++ data ++ after.drop data.length := by
  rw [splice, List.take_left, ← List.drop_drop, List.drop_left]

theorem splice_splice {buffer first second : List γ} {offset : Nat}
    (inside : offset + first.length + second.length ≤ buffer.length) :
    splice (splice buffer offset first) (offset + first.length) second =
      splice buffer offset (first ++ second) := by
  have place : (buffer.take offset ++ first).length = offset + first.length := by
    rw [List.length_append, List.length_take]
    omega
  have rest : (splice buffer offset first).drop (offset + first.length + second.length) =
      buffer.drop (offset + first.length + second.length) := by
    rw [splice, ← List.drop_drop, ← place, List.drop_left, List.drop_drop, place]
  have front : (splice buffer offset first).take (offset + first.length) = buffer.take offset ++ first := by
    rw [splice, ← place, List.take_left]
  rw [splice, rest, front, splice, List.length_append, ← Nat.add_assoc, List.append_assoc (buffer.take offset)]

theorem take_splice {buffer data : List γ} {offset count : Nat} (inside : offset ≤ buffer.length)
    (within : count ≤ data.length) :
    (splice buffer offset data).take (offset + count) = buffer.take offset ++ data.take count := by
  have place : (buffer.take offset).length = offset := by
    rw [List.length_take]
    omega
  rw [splice, List.append_assoc, List.take_append, place, Nat.add_sub_cancel_left,
    List.take_of_length_le (by omega), List.take_append_of_le_length within]

theorem store_within {a b c data : List γ} {offset : Nat} (inside : offset + data.length ≤ b.length)
    (s : σ) : (store (a ++ b ++ c) (a.length + offset) data : Op (Stop ε) σ (List γ)) s =
      .ok (a ++ splice b offset data ++ c) s := by
  rw [store_of (by rw [List.length_append, List.length_append]; omega)]
  congr 1
  simp only [splice, Nat.add_assoc, List.append_assoc, List.take_length_add_append, List.drop_length_add_append]
  rw [List.take_append_of_le_length (by omega), List.drop_append_of_le_length (by omega)]

theorem store_part {a b c data : List γ} {offset : Nat} (place : offset = a.length)
    (same : data.length = b.length) (s : σ) :
    (store (a ++ b ++ c) offset data : Op (Stop ε) σ (List γ)) s = .ok (a ++ data ++ c) s := by
  have whole : splice b 0 data = data := by
    rw [splice, List.take_zero, Nat.zero_add, same, List.drop_length, List.append_nil, List.nil_append]
  have stored := @store_within ε σ γ a b c data 0 (by omega) s
  rw [whole] at stored
  rw [place]
  exact stored

/-- Run the body from state to state until it returns, for so many rounds at most. -/
def rounds (body : α → Op (Stop ε) σ (α ⊕ β)) : Nat → α → Op (Stop ε) σ β
  | 0, _ => throw .unfinished
  | fuel + 1, a => body a >>= Sum.elim (rounds body fuel) pure

theorem rounds_next {body : α → Op (Stop ε) σ (α ⊕ β)} {a a' : α} {s s' : σ} {fuel : Nat}
    (step : body a s = .ok (.inl a') s') : rounds body (fuel + 1) a s = rounds body fuel a' s' := by
  rw [rounds, bind_of_ok step]
  rfl

theorem rounds_done {body : α → Op (Stop ε) σ (α ⊕ β)} {a : α} {b : β} {s s' : σ} {fuel : Nat}
    (step : body a s = .ok (.inr b) s') : rounds body (fuel + 1) a s = .ok b s' := by
  rw [rounds, bind_of_ok step]
  rfl

theorem rounds_error {body : α → Op (Stop ε) σ (α ⊕ β)} {a : α} {e : Stop ε} {s s' : σ} {fuel : Nat}
    (step : body a s = .error e s') : rounds body (fuel + 1) a s = .error e s' := by
  rw [rounds, bind_of_error step]

/-- The body from state to state, for so many rounds unless it returns before. -/
def turns (body : α → Op (Stop ε) σ (α ⊕ β)) : Nat → α → Op (Stop ε) σ (α ⊕ β)
  | 0, a => pure (.inl a)
  | k + 1, a => turns body k a >>= Sum.elim body (fun b => pure (.inr b))

theorem rounds_add (body : α → Op (Stop ε) σ (α ⊕ β)) (k fuel : Nat) (a : α) (s : σ) :
    rounds body (k + fuel) a s = (turns body k a >>= Sum.elim (rounds body fuel) pure) s := by
  induction k generalizing fuel with
  | zero => rw [Nat.zero_add]; rfl
  | succ k ih =>
    rw [show k + 1 + fuel = k + (fuel + 1) by omega, ih, turns, bind_run, bind_run, bind_run]
    cases turns body k a s with
    | error e s' => rfl
    | ok r s' =>
      cases r with
      | inl a' => rfl
      | inr b => rfl

def Ends (post : α → Prop) : EStateM.Result (Stop ε) σ α → Prop
  | .ok a _ => post a
  | .error (.error _) _ => True
  | .error _ _ => False

theorem ends_bind {x : Op (Stop ε) Unit α} {f : α → Op (Stop ε) Unit β} {post : β → Prop} :
    Ends post ((x >>= f) ()) ↔ Ends (fun a => Ends post (f a ())) (x ()) := by
  rw [bind_run]
  cases x () with
  | ok a s' => exact Iff.rfl
  | error stop s' => cases stop <;> exact Iff.rfl

section ends

variable {body : α → Op (Stop ε) σ (α ⊕ β)} {post : β → Prop} {a a' : α} {s s' : σ}

theorem ends_next (ends : ∃ fuel, Ends post (rounds body fuel a s))
    (step : body a s = .ok (.inl a') s') : ∃ fuel, Ends post (rounds body fuel a' s') := by
  obtain ⟨fuel, ends⟩ := ends
  cases fuel with
  | zero => exact ends.elim
  | succ fuel => exact ⟨fuel, by rwa [rounds_next step] at ends⟩

theorem ends_done {b : β} (ends : ∃ fuel, Ends post (rounds body fuel a s))
    (step : body a s = .ok (.inr b) s') : post b := by
  obtain ⟨fuel, ends⟩ := ends
  cases fuel with
  | zero => exact ends.elim
  | succ fuel =>
    rw [rounds_done step] at ends
    exact ends

theorem not_ends_undefined (step : body a s = .error .undefined s') :
    ¬ ∃ fuel, Ends post (rounds body fuel a s) := by
  rintro ⟨fuel, ends⟩
  cases fuel with
  | zero => exact ends
  | succ fuel =>
    rw [rounds_error step] at ends
    exact ends

theorem not_ends_within (within : α → Prop)
    (stay : ∀ a, within a → body a s = .error .undefined s ∨ ∃ a', within a' ∧ body a s = .ok (.inl a') s)
    (start : within a) : ¬ ∃ fuel, Ends post (rounds body fuel a s) := by
  rintro ⟨fuel, ends⟩
  induction fuel generalizing a with
  | zero => exact ends
  | succ fuel ih =>
    obtain step | ⟨a', inside, step⟩ := stay a start
    · rw [rounds_error step] at ends
      exact ends
    · rw [rounds_next step] at ends
      exact ih inside ends

end ends

/-- From every state the call ends, and a value it returns meets the condition. -/
def Ensures (x : Op (Stop ε) σ α) (post : α → Prop) : Prop := ∀ s, Ends post (x s)

namespace Ensures

variable {post : α → Prop}

theorem ok {x : Op (Stop ε) σ α} (meets : Ensures x post) {s s' : σ} {a : α}
    (run : x s = .ok a s') : post a := by
  have outcome := meets s
  rw [run] at outcome
  exact outcome

theorem error {x : Op (Stop ε) σ α} (meets : Ensures x post) {s s' : σ} {stop : Stop ε}
    (run : x s = .error stop s') : ∃ e, stop = .error e := by
  have outcome := meets s
  rw [run] at outcome
  cases stop with
  | undefined => exact outcome.elim
  | unfinished => exact outcome.elim
  | error e => exact ⟨e, rfl⟩

theorem of_outcomes {x : Op (Stop ε) σ α} (value : ∀ s a s', x s = .ok a s' → post a)
    (stopped : ∀ s stop s', x s = .error stop s' → ∃ e, stop = .error e) : Ensures x post := by
  intro s
  cases run : x s with
  | ok a s' => exact value s a s' run
  | error stop s' =>
    obtain ⟨e, rfl⟩ := stopped s stop s' run
    trivial

theorem mono {weak : α → Prop} {x : Op (Stop ε) σ α} (meets : Ensures x post)
    (weaker : ∀ a, post a → weak a) : Ensures x weak :=
  of_outcomes (fun _ a _ run => weaker a (meets.ok run)) fun _ _ _ run => meets.error run

theorem pure {a : α} (meets : post a) : Ensures (pure a : Op (Stop ε) σ α) post := fun _ => meets

theorem of_ok {x : Op (Stop ε) σ α} {a : α} (run : ∀ s, x s = .ok a s) : Ensures x fun value => value = a := by
  intro s
  rw [run s]
  exact rfl

theorem throw (e : ε) : Ensures (throw (.error e) : Op (Stop ε) σ α) post := fun _ => trivial

theorem bind {x : Op (Stop ε) σ α} {f : α → Op (Stop ε) σ β} {after : β → Prop}
    (first : Ensures x post) (next : ∀ a, post a → Ensures (f a) after) :
    Ensures (x >>= f) after := by
  intro s
  rw [bind_run]
  cases run : x s with
  | ok a s' => exact next a (first.ok run) s'
  | error stop s' =>
    obtain ⟨e, rfl⟩ := first.error run
    trivial

theorem stopIf (c : Prop) [Decidable c] (e : ε) :
    Ensures (stopIf c e : Op (Stop ε) σ Unit) fun _ => ¬ c := by
  intro s
  unfold Effect.stopIf
  by_cases h : c
  · rw [failIf_true h]
    trivial
  · rw [failIf_false h]
    exact h

theorem request (e : ε) : Ensures (request (.error e) : Op (Stop ε) Faults Unit) fun _ => True := by
  intro plan
  unfold Effect.request
  cases plan 0 <;> trivial

theorem load {buffer : List γ} {offset count : Nat} (inside : offset + count ≤ buffer.length) :
    Ensures (load buffer offset count : Op (Stop ε) σ (List γ)) fun part =>
      part = (buffer.drop offset).take count := by
  exact of_ok (load_of inside)

theorem store {buffer data : List γ} {offset : Nat}
    (inside : offset + data.length ≤ buffer.length) :
    Ensures (store buffer offset data : Op (Stop ε) σ (List γ)) fun written =>
      written = splice buffer offset data := by
  exact of_ok (store_of inside)

theorem minus {a b : Nat} (below : b ≤ a) :
    Ensures (minus a b : Op (Stop ε) σ Nat) fun rest => rest + b = a := by
  intro s
  rw [Effect.minus, bind_of_ok (require_of below s), pure_run]
  exact Nat.sub_add_cancel below

theorem rounds {body : α → Op (Stop ε) σ (α ⊕ β)} {after : β → Prop} (inv : α → Prop)
    (measure : α → Nat) (each : ∀ a, inv a → Ensures (body a)
      (Sum.elim (fun a' => inv a' ∧ measure a' < measure a) after))
    {fuel : Nat} {a : α} (start : inv a) (enough : measure a < fuel) :
    Ensures (rounds body fuel a) after := by
  induction fuel generalizing a with
  | zero => omega
  | succ fuel ih =>
    refine (each a start).bind fun r meets => ?_
    cases r with
    | inl a' => exact ih meets.1 (Nat.lt_of_lt_of_le meets.2 (Nat.le_of_lt_succ enough))
    | inr b => exact Ensures.pure meets

end Ensures

section keeps

variable {R : σ → σ → Prop} [Std.Refl R]

theorem Keeps.stopIf (c : Prop) [Decidable c] (e : ε) : Keeps R (stopIf c e : Op (Stop ε) σ Unit) :=
  Keeps.failIf c _

theorem Keeps.require (c : Prop) [Decidable c] : Keeps R (require c : Op (Stop ε) σ Unit) :=
  Keeps.failIf _ _

variable [IsTrans σ R]

theorem Keeps.load (buffer : List γ) (offset count : Nat) :
    Keeps R (load buffer offset count : Op (Stop ε) σ (List γ)) :=
  (Keeps.require _).bind fun _ => Keeps.pure _

theorem Keeps.store (buffer : List γ) (offset : Nat) (data : List γ) :
    Keeps R (store buffer offset data : Op (Stop ε) σ (List γ)) :=
  (Keeps.require _).bind fun _ => Keeps.pure _

theorem Keeps.minus (a b : Nat) : Keeps R (minus a b : Op (Stop ε) σ Nat) :=
  (Keeps.require _).bind fun _ => Keeps.pure _

theorem Keeps.plus64 (a b : Int) : Keeps R (plus64 a b : Op (Stop ε) σ Int) :=
  (Keeps.require _).bind fun _ => Keeps.pure _

theorem Keeps.rounds {body : α → Op (Stop ε) σ (α ⊕ β)} (each : ∀ a, Keeps R (body a)) (fuel : Nat) (a : α) :
    Keeps R (rounds body fuel a) := by
  induction fuel generalizing a with
  | zero => exact Keeps.throw _
  | succ fuel ih =>
    refine (each a).bind fun r => ?_
    cases r with
    | inl a' => exact ih a'
    | inr b => exact Keeps.pure b

end keeps

/-- The call meets its condition on every host, and succeeds on one that refuses nothing. -/
structure Serves (x : Op (Stop ε) Faults α) (post : α → Prop) : Prop where
  ensures : Ensures x post
  healthy : ∃ a, x Faults.healthy = .ok a Faults.healthy

namespace Serves

variable {post : α → Prop}

theorem run {x : Op (Stop ε) Faults α} {value : α} (serves : Serves x fun a => a = value) :
    x Faults.healthy = .ok value Faults.healthy := by
  obtain ⟨a, run⟩ := serves.healthy
  rw [run, serves.ensures.ok run]

theorem mono {weak : α → Prop} {x : Op (Stop ε) Faults α} (serves : Serves x post)
    (weaker : ∀ a, post a → weak a) : Serves x weak :=
  ⟨serves.ensures.mono weaker, serves.healthy⟩

theorem of_ok {x : Op (Stop ε) Faults α} {a : α} (run : ∀ plan, x plan = .ok a plan) (meets : post a) :
    Serves x post := by
  refine ⟨fun plan => ?_, a, run _⟩
  rw [run plan]
  exact meets

theorem pure {a : α} (meets : post a) : Serves (pure a : Op (Stop ε) Faults α) post :=
  of_ok (fun _ => rfl) meets

theorem stopIf {c : Prop} [Decidable c] (h : ¬ c) (e : ε) :
    Serves (stopIf c e : Op (Stop ε) Faults Unit) fun _ => True :=
  of_ok (stopIf_false h e) trivial

theorem request (e : ε) : Serves (request (.error e) : Op (Stop ε) Faults Unit) fun _ => True :=
  ⟨Ensures.request e, (), rfl⟩

theorem load {buffer : List γ} {offset count : Nat} (inside : offset + count ≤ buffer.length) :
    Serves (load buffer offset count : Op (Stop ε) Faults (List γ)) fun part =>
      part = (buffer.drop offset).take count :=
  of_ok (load_of inside) rfl

theorem store {buffer data : List γ} {offset : Nat}
    (inside : offset + data.length ≤ buffer.length) :
    Serves (store buffer offset data : Op (Stop ε) Faults (List γ)) fun written =>
      written = splice buffer offset data :=
  of_ok (store_of inside) rfl

theorem bind {x : Op (Stop ε) Faults α} {f : α → Op (Stop ε) Faults β} {after : β → Prop}
    (first : Serves x post) (next : ∀ a, post a → Serves (f a) after) : Serves (x >>= f) after := by
  refine ⟨first.ensures.bind fun a meets => (next a meets).ensures, ?_⟩
  obtain ⟨a, run⟩ := first.healthy
  obtain ⟨b, rest⟩ := (next a (first.ensures.ok run)).healthy
  exact ⟨b, by rw [bind_of_ok run, rest]⟩

theorem rounds {body : α → Op (Stop ε) Faults (α ⊕ β)} {after : β → Prop} (inv : α → Prop)
    (measure : α → Nat) (each : ∀ a, inv a → Serves (body a)
      (Sum.elim (fun a' => inv a' ∧ measure a' < measure a) after))
    {fuel : Nat} {a : α} (start : inv a) (enough : measure a < fuel) :
    Serves (rounds body fuel a) after := by
  refine ⟨Ensures.rounds inv measure (fun a kept => (each a kept).ensures) start enough, ?_⟩
  induction fuel generalizing a with
  | zero => omega
  | succ fuel ih =>
    obtain ⟨r, step⟩ := (each a start).healthy
    have meets := (each a start).ensures.ok step
    cases r with
    | inl a' =>
      rw [rounds_next step]
      exact ih meets.1 (Nat.lt_of_lt_of_le meets.2 (Nat.le_of_lt_succ enough))
    | inr b => exact ⟨b, rounds_done step⟩

end Serves

def Yields (x : Op ε Faults α) (post : α → Prop) : Prop :=
  ∃ a, x Faults.healthy = .ok a Faults.healthy ∧ post a

namespace Yields

variable {post : α → Prop}

theorem pure {a : α} (meets : post a) : Yields (pure a : Op ε Faults α) post := ⟨a, rfl, meets⟩

theorem of_serves {x : Op (Stop ε) Faults α} (serves : Serves x post) : Yields x post := by
  obtain ⟨a, run⟩ := serves.healthy
  exact ⟨a, run, serves.ensures.ok run⟩

theorem mono {weak : α → Prop} {x : Op ε Faults α} (yields : Yields x post) (weaker : ∀ a, post a → weak a) :
    Yields x weak := by
  obtain ⟨a, run, meets⟩ := yields
  exact ⟨a, run, weaker a meets⟩

theorem bind {x : Op ε Faults α} {f : α → Op ε Faults β} {after : β → Prop} (first : Yields x post)
    (next : ∀ a, post a → Yields (f a) after) : Yields (x >>= f) after := by
  obtain ⟨a, run, meets⟩ := first
  obtain ⟨b, rest, done⟩ := next a meets
  exact ⟨b, by rw [bind_of_ok run, rest], done⟩

theorem foldlM {step : β → γ → Op ε Faults β} {inv : β → Prop} (each : ∀ b c, inv b → Yields (step b c) inv)
    (items : List γ) {b : β} (start : inv b) : Yields (items.foldlM step b) inv := by
  induction items generalizing b with
  | nil => exact Yields.pure start
  | cons c rest ih => exact (each b c start).bind fun b' kept => ih kept

theorem recover {x : Op (Stop ε) Faults α} (meets : Ensures x post) (steady : Keeps Faults.Steady x) :
    Yields (recover x) fun r => ∀ a ∈ r, x Faults.healthy = .ok a Faults.healthy := by
  have kept : final (x Faults.healthy) = Faults.healthy := steady Faults.healthy rfl
  unfold Yields Effect.recover
  cases run : x Faults.healthy with
  | ok a s' =>
    rw [run] at kept
    refine ⟨some a, congrArg _ kept, ?_⟩
    rintro a ⟨⟩
    exact congrArg _ kept
  | error stop s' =>
    obtain ⟨e, rfl⟩ := meets.error run
    rw [run] at kept
    exact ⟨none, congrArg _ kept, nofun⟩

end Yields

end Effect
