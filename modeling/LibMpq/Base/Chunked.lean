import LibMpq.Base.Bytes
import LibMpq.Base.Effect

set_option autoImplicit false

-- The common loop of block-wise consumers: copy as much of the input as the buffer has room
-- for, process the buffer when it is full, go on with the rest. Cutting the input differently
-- makes no difference, since the loop does what feeding its bytes one at a time does.

namespace Chunked

open Effect

variable {ε σ : Type}

/-- A buffer: how much it still takes, how it takes it and what is done when it is full. -/
structure Buffer (ε σ : Type) where
  room : σ → Nat
  push : Bytes → σ → σ
  flush : Op ε σ Unit

namespace Buffer

variable (buffer : Buffer ε σ)

def flushFull : Op ε σ Unit := do
  if buffer.room (← get) = 0 then buffer.flush else pure ()

def step (data : Bytes) : Op ε σ Unit := do
  modify (buffer.push data)
  buffer.flushFull

def feed : Nat → Bytes → Op ε σ Unit
  | 0, _ => pure ()
  | fuel + 1, data =>
    if data = [] then pure ()
    else do
      let take := min data.length (buffer.room (← get))
      buffer.step (data.take take)
      feed fuel (data.drop take)

def feedBytes : Bytes → Op ε σ Unit
  | [] => pure ()
  | b :: rest => do
    buffer.step [b]
    feedBytes rest

/-- What makes a buffer a buffer, for the states that satisfy `valid`. -/
structure Laws (valid : σ → Prop) : Prop where
  room_push : ∀ {data s}, valid s → data.length ≤ buffer.room s →
    buffer.room (buffer.push data s) = buffer.room s - data.length
  push_append : ∀ {a b s}, valid s → buffer.push (a ++ b) s = buffer.push b (buffer.push a s)
  valid_push : ∀ {data s}, valid s → valid (buffer.push data s)
  valid_flush : ∀ {s s'}, valid s → buffer.flush s = .ok () s' → valid s' ∧ 0 < buffer.room s'

variable {buffer} {valid : σ → Prop}

theorem step_run (data : Bytes) (s : σ) :
    buffer.step data s =
      if buffer.room (buffer.push data s) = 0 then buffer.flush (buffer.push data s)
      else .ok () (buffer.push data s) := by
  simp only [step, flushFull, bind_run, modify_run, get_run]
  split <;> rfl

theorem feed_keeps {R : σ → σ → Prop} [Std.Refl R] [IsTrans σ R]
    (copies : ∀ data s, data.length ≤ buffer.room s → R s (final (buffer.step data s)))
    (fuel : Nat) (data : Bytes) : Keeps R (buffer.feed fuel data) := by
  induction fuel generalizing data with
  | zero => exact Keeps.pure ()
  | succ fuel ih =>
    rw [feed]
    split
    · exact Keeps.pure ()
    · intro s
      have fits : (data.take (min data.length (buffer.room s))).length ≤ buffer.room s := by
        simp
      have first := copies _ s fits
      simp only [bind_run, get_run]
      cases run : buffer.step (data.take (min data.length (buffer.room s))) s with
      | error e s' =>
        rw [run] at first
        exact first
      | ok _ s' =>
        rw [run] at first
        exact trans_of R first (ih _ s')

theorem feed_ok {P : Bytes → σ → Prop}
    (copies : ∀ x part s s', P x s → part.length ≤ buffer.room s →
      buffer.step part s = .ok () s' → P (x ++ part) s')
    (opens : ∀ x s, P x s → 0 < buffer.room s) {fuel : Nat} {x data : Bytes} {s s' : σ}
    (start : P x s) (enough : data.length ≤ fuel) (run : buffer.feed fuel data s = .ok () s') :
    P (x ++ data) s' := by
  induction fuel generalizing x data s with
  | zero =>
    cases List.length_eq_zero_iff.mp (Nat.le_zero.mp enough)
    cases run
    simpa using start
  | succ fuel ih =>
    rw [feed] at run
    split at run
    next none =>
      subst none
      cases run
      simpa using start
    next more =>
      have count := List.length_pos_iff.mpr more
      have room := opens x s start
      rw [bind_of_ok (get_run s)] at run
      obtain ⟨_, next, first, run⟩ := bind_ok.mp run
      have taken := copies x _ s next start (by simp) first
      have rest := ih taken (by simp only [List.length_drop]; omega) run
      rwa [List.append_assoc, List.take_append_drop] at rest

theorem feed_runs {P : Bytes → σ → Prop} {limit : Nat}
    (copies : ∀ x part s, P x s → part.length ≤ buffer.room s → (x ++ part).length ≤ limit →
      ∃ s', buffer.step part s = .ok () s' ∧ P (x ++ part) s')
    (opens : ∀ x s, P x s → 0 < buffer.room s) {fuel : Nat} {x data : Bytes} {s : σ}
    (start : P x s) (enough : data.length ≤ fuel) (within : (x ++ data).length ≤ limit) :
    ∃ s', buffer.feed fuel data s = .ok () s' ∧ P (x ++ data) s' := by
  induction fuel generalizing x data s with
  | zero =>
    cases List.length_eq_zero_iff.mp (Nat.le_zero.mp enough)
    exact ⟨s, rfl, by simpa using start⟩
  | succ fuel ih =>
    rw [feed]
    split
    next none =>
      subst none
      exact ⟨s, rfl, by simpa using start⟩
    next more =>
      have count := List.length_pos_iff.mpr more
      have room := opens x s start
      simp only [List.length_append] at within
      obtain ⟨s', first, taken⟩ := copies x (data.take (min data.length (buffer.room s))) s start
        (by simp) (by simp only [List.length_append, List.length_take]; omega)
      obtain ⟨s'', later, rest⟩ := @ih _ (data.drop (min data.length (buffer.room s))) _ taken
        (by simp only [List.length_drop]; omega)
        (by simp only [List.length_append, List.length_take, List.length_drop]; omega)
      refine ⟨s'', ?_, ?_⟩
      · rw [bind_of_ok (get_run s), bind_of_ok first, later]
      · rwa [List.append_assoc, List.take_append_drop] at rest

theorem feed_commutes {f : σ → σ} (room : ∀ s, buffer.room (f s) = buffer.room s)
    (push : ∀ data s, buffer.push data (f s) = f (buffer.push data s))
    (flush : Commutes f buffer.flush) (fuel : Nat) (data : Bytes) :
    Commutes f (buffer.feed fuel data) := by
  have full : Commutes f buffer.flushFull := by
    refine Commutes.get_bind (fun s => by rw [room]) fun s => ?_
    split
    · exact flush
    · exact Commutes.pure ()
  induction fuel generalizing data with
  | zero => exact Commutes.pure ()
  | succ fuel ih =>
    rw [feed]
    split
    · exact Commutes.pure ()
    · refine Commutes.get_bind (fun s => by rw [room]) fun s => ?_
      exact Commutes.bind (Commutes.bind (Commutes.modify (push _)) fun _ => full) fun _ => ih _

theorem Laws.step_ok (laws : buffer.Laws valid) {data : Bytes} {s s' : σ} (ok : valid s)
    (run : buffer.step data s = .ok () s') : valid s' ∧ 0 < buffer.room s' := by
  rw [step_run] at run
  split at run
  next => exact laws.valid_flush (laws.valid_push ok) run
  next full =>
    cases run
    exact ⟨laws.valid_push ok, Nat.pos_of_ne_zero full⟩

theorem feedBytes_append (a b : Bytes) :
    buffer.feedBytes (a ++ b) = (do buffer.feedBytes a; buffer.feedBytes b) := by
  induction a with
  | nil => rfl
  | cons x rest ih =>
    simp only [List.cons_append, feedBytes, ih]
    funext s
    simp only [bind_run]
    cases buffer.step [x] s <;> rfl

theorem Laws.feedBytes_eq_step (laws : buffer.Laws valid) {data : Bytes} (some : data ≠ [])
    {s : σ} (ok : valid s) (fits : data.length ≤ buffer.room s) :
    buffer.feedBytes data s = buffer.step data s := by
  induction data generalizing s with
  | nil => exact absurd rfl some
  | cons b rest ih =>
    simp only [List.length_cons] at fits
    by_cases last : rest = []
    · subst last
      simp only [feedBytes, bind_run]
      cases buffer.step [b] s <;> rfl
    · have left : buffer.room (buffer.push [b] s) = buffer.room s - 1 :=
        laws.room_push ok (by simp only [List.length_singleton]; omega)
      have more := List.length_pos_iff.mpr last
      have first : buffer.step [b] s = .ok () (buffer.push [b] s) := by
        rw [step_run, if_neg (by omega)]
      have joined : buffer.push (b :: rest) s = buffer.push rest (buffer.push [b] s) :=
        @Laws.push_append _ _ _ _ laws [b] rest s ok
      rw [feedBytes, bind_of_ok first, ih last (laws.valid_push ok) (by omega), step_run, step_run,
        joined]

theorem Laws.feed_eq_feedBytes (laws : buffer.Laws valid) {fuel : Nat} {data : Bytes} {s : σ}
    (ok : valid s) (open_ : 0 < buffer.room s) (enough : data.length ≤ fuel) :
    buffer.feed fuel data s = buffer.feedBytes data s := by
  induction fuel generalizing data s with
  | zero =>
    cases List.length_eq_zero_iff.mp (Nat.le_zero.mp enough)
    rfl
  | succ fuel ih =>
    by_cases none : data = []
    · subst none
      rfl
    · have count := List.length_pos_iff.mpr none
      let take := min data.length (buffer.room s)
      have positive : 0 < take := Nat.lt_min.mpr ⟨count, open_⟩
      have front : (data.take take).length = take := by
        simp [take]
      have first : buffer.feedBytes (data.take take) s = buffer.step (data.take take) s :=
        laws.feedBytes_eq_step (List.ne_nil_of_length_pos (by omega)) ok (by omega)
      have shape : buffer.feed (fuel + 1) data s =
          (buffer.step (data.take take) >>= fun _ => buffer.feed fuel (data.drop take)) s := by
        simp only [feed, if_neg none]
        rfl
      have split : buffer.feedBytes data s =
          (buffer.feedBytes (data.take take) >>= fun _ => buffer.feedBytes (data.drop take)) s := by
        rw [← feedBytes_append, List.take_append_drop]
      rw [shape, split, bind_run, bind_run, first]
      cases run : buffer.step (data.take take) s with
      | error e s' => rfl
      | ok _ s' =>
        obtain ⟨ok', open'⟩ := laws.step_ok ok run
        exact ih ok' open' (by simp only [List.length_drop]; omega)

theorem Laws.feedBytes_ok (laws : buffer.Laws valid) {data : Bytes} {s s' : σ} (ok : valid s)
    (open_ : 0 < buffer.room s) (run : buffer.feedBytes data s = .ok () s') :
    valid s' ∧ 0 < buffer.room s' := by
  induction data generalizing s with
  | nil =>
    cases run
    exact ⟨ok, open_⟩
  | cons b rest ih =>
    obtain ⟨_, next, first, later⟩ := bind_ok.mp run
    obtain ⟨ok', open'⟩ := laws.step_ok ok first
    exact ih ok' open' later

theorem Laws.feed_append (laws : buffer.Laws valid) {a b : Bytes} {s : σ} (ok : valid s)
    (open_ : 0 < buffer.room s) :
    buffer.feed (a ++ b).length (a ++ b) s =
      (do buffer.feed a.length a; buffer.feed b.length b) s := by
  rw [laws.feed_eq_feedBytes ok open_ le_rfl, feedBytes_append, bind_run, bind_run,
    laws.feed_eq_feedBytes ok open_ le_rfl]
  cases run : buffer.feedBytes a s with
  | error e s' => rfl
  | ok _ s' =>
    obtain ⟨ok', open'⟩ := laws.feedBytes_ok ok open_ run
    exact (laws.feed_eq_feedBytes ok' open' le_rfl).symm

end Buffer

end Chunked
