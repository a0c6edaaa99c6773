import LibMpq.Base.Effect
import LibMpq.Base.File

set_option autoImplicit false

-- One open file with its position. Each request may be refused by the fault plan; a refused
-- write may have stored a part of its bytes.

open Effect

structure Disk where
  file : File
  pos : Nat
  plan : Faults

namespace Disk

variable {ε α : Type}

def ask (serve : Op ε Disk α) (refuse : Nat → Op ε Disk α) : Op ε Disk α := fun d =>
  match d.plan 0 with
  | none => serve { d with plan := d.plan.rest }
  | some k => refuse k { d with plan := d.plan.rest }

def refused (e : ε) : Nat → Op ε Disk α := fun _ => throw e

def alloc (e : ε) : Op ε Disk Unit := ask (pure ()) (refused e)

def seek (e : ε) (pos : Nat) : Op ε Disk Unit := ask (modify fun d => { d with pos }) (refused e)

def tell (e : ε) : Op ε Disk Nat := ask (do return (← get).pos) (refused e)

def sync (e : ε) : Op ε Disk Unit := ask (pure ()) (refused e)

def seekEnd (e : ε) : Op ε Disk Unit :=
  ask (modify fun d => { d with pos := d.file.size }) (refused e)

def put (data : Bytes) (d : Disk) : Disk :=
  { d with file := d.file.write d.pos data, pos := d.pos + data.length }

def write (e : ε) (data : Bytes) : Op ε Disk Unit :=
  if data = [] then pure ()
  else ask (modify (put data)) fun k => do
    modify (put (data.take k))
    throw e

def writeAt (e : ε) (pos : Nat) (data : Bytes) : Op ε Disk Unit := do
  seek e pos
  write e data

-- A read beyond the end of the file is short, which counts as an error.
def readAt (seekError readError : ε) (pos count : Nat) : Op ε Disk Bytes := do
  seek seekError pos
  ask
    (do
      let d ← get
      let data := d.file.read pos count
      set { d with pos := pos + data.length }
      if data.length = count then pure data else throw readError)
    (refused readError)

/-- Calls that only ask for memory, on the plan of this host. -/
def onPlan (x : Op ε Faults α) : Op ε Disk α :=
  zoom (·.plan) (fun plan d => { d with plan }) x

theorem ask_refused_ok {serve : Op ε Disk α} {e : ε} {d d' : Disk} {a : α} :
    ask serve (refused e) d = .ok a d' ↔
      d.plan 0 = none ∧ serve { d with plan := d.plan.rest } = .ok a d' := by
  unfold ask
  cases plan : d.plan 0 <;> simp [refused]

theorem alloc_ok {e : ε} {d d' : Disk} {u : Unit} (run : alloc e d = .ok u d') :
    d' = { d with plan := d.plan.rest } := by
  obtain ⟨-, run⟩ := ask_refused_ok.mp run
  exact (pure_ok.mp run).2

theorem sync_ok {e : ε} {d d' : Disk} {u : Unit} (run : sync e d = .ok u d') :
    d' = { d with plan := d.plan.rest } := by
  obtain ⟨-, run⟩ := ask_refused_ok.mp run
  exact (pure_ok.mp run).2

theorem seek_ok {e : ε} {pos : Nat} {d d' : Disk} {u : Unit} (run : seek e pos d = .ok u d') :
    d' = { d with pos, plan := d.plan.rest } := by
  obtain ⟨-, run⟩ := ask_refused_ok.mp run
  cases run
  rfl

theorem tell_ok {e : ε} {d d' : Disk} {pos : Nat} (run : tell e d = .ok pos d') :
    pos = d.pos ∧ d' = { d with plan := d.plan.rest } := by
  obtain ⟨-, run⟩ := ask_refused_ok.mp run
  cases run
  exact ⟨rfl, rfl⟩

theorem seekEnd_ok {e : ε} {d d' : Disk} {u : Unit} (run : seekEnd e d = .ok u d') :
    d' = { d with pos := d.file.size, plan := d.plan.rest } := by
  obtain ⟨-, run⟩ := ask_refused_ok.mp run
  cases run
  rfl

theorem write_ok {e : ε} {data : Bytes} {d d' : Disk} {u : Unit} (run : write e data d = .ok u d') :
    d'.file = d.file.write d.pos data ∧ d'.pos = d.pos + data.length := by
  unfold write at run
  split at run
  next none =>
    subst none
    cases run
    simp
  next =>
    unfold ask at run
    cases plan : d.plan 0 with
    | none =>
      simp only [plan] at run
      cases run
      exact ⟨rfl, rfl⟩
    | some k =>
      simp only [plan] at run
      cases run

theorem writeAt_ok {e : ε} {pos : Nat} {data : Bytes} {d d' : Disk} {u : Unit}
    (run : writeAt e pos data d = .ok u d') :
    d'.file = d.file.write pos data ∧ d'.pos = pos + data.length := by
  obtain ⟨_, mid, sought, written⟩ := bind_ok.mp run
  cases seek_ok sought
  exact write_ok written

theorem onPlan_ok {x : Op ε Faults α} {d d' : Disk} {a : α} (run : onPlan x d = .ok a d') :
    ∃ plan', x d.plan = .ok a plan' ∧ d' = { d with plan := plan' } := zoom_ok.mp run

def Calm (d : Disk) : Prop := d.plan = Faults.healthy

theorem ask_calm {serve : Op ε Disk α} {refuse : Nat → Op ε Disk α} {d : Disk} (calm : d.Calm) :
    ask serve refuse d = serve d := by
  have plan : d.plan = Faults.healthy := calm
  have same : ({ d with plan := d.plan.rest } : Disk) = d := by rw [plan, Faults.rest_healthy, ← plan]
  unfold ask
  rw [plan, Faults.healthy_next, ← plan, same]

theorem alloc_calm {d : Disk} (calm : d.Calm) (e : ε) : alloc e d = .ok () d := ask_calm calm

theorem sync_calm {d : Disk} (calm : d.Calm) (e : ε) : sync e d = .ok () d := ask_calm calm

theorem tell_calm {d : Disk} (calm : d.Calm) (e : ε) : tell e d = .ok d.pos d := ask_calm calm

theorem seek_calm {d : Disk} (calm : d.Calm) (e : ε) (pos : Nat) :
    seek e pos d = .ok () { d with pos } := ask_calm calm

theorem seekEnd_calm {d : Disk} (calm : d.Calm) (e : ε) :
    seekEnd e d = .ok () { d with pos := d.file.size } := ask_calm calm

theorem write_calm {d : Disk} (calm : d.Calm) (e : ε) (data : Bytes) :
    write e data d = .ok () (put data d) := by
  unfold write
  split
  next none =>
    subst none
    simp [put]
  next => exact ask_calm calm

theorem put_calm {d : Disk} (calm : d.Calm) (data : Bytes) : (put data d).Calm := calm

theorem writeAt_calm {d : Disk} (calm : d.Calm) (e : ε) (pos : Nat) (data : Bytes) :
    writeAt e pos data d = .ok () (put data { d with pos }) := by
  rw [writeAt, bind_of_ok (seek_calm calm e pos)]
  exact @write_calm _ { d with pos } calm e data

theorem onPlan_calm {d : Disk} (calm : d.Calm) {x : Op ε Faults α} {a : α}
    (run : x Faults.healthy = .ok a Faults.healthy) : onPlan x d = .ok a d := by
  have here : x d.plan = .ok a d.plan := by
    rw [show d.plan = Faults.healthy from calm, run]
  simp only [onPlan, zoom, here]

/-- On a host that refuses nothing, and with at least `least` bytes in the file, `x` returns. -/
def Serves (least : Nat) (x : Op ε Disk α) : Prop :=
  ∀ d, d.Calm → least ≤ d.file.size → ∃ r d', x d = .ok r d' ∧ d'.Calm ∧ least ≤ d'.file.size

section serves

variable {least : Nat}

theorem Serves.pure (a : α) : Serves least (pure a : Op ε Disk α) := fun d calm size => ⟨a, d, rfl, calm, size⟩

theorem Serves.bind {β : Type} {x : Op ε Disk α} {f : α → Op ε Disk β} (first : Serves least x)
    (rest : ∀ a, Serves least (f a)) : Serves least (x >>= f) := by
  intro d calm size
  obtain ⟨a, d', run, calm', size'⟩ := first d calm size
  obtain ⟨b, d'', run', calm'', size''⟩ := rest a d' calm' size'
  exact ⟨b, d'', by rw [bind_of_ok run, run'], calm'', size''⟩

theorem Serves.fromExcept {r : Except ε α} {a : α} (ok : r = .ok a) :
    Serves least (fromExcept r : Op ε Disk α) := by
  subst ok
  exact Serves.pure a

theorem serves_alloc (e : ε) : Serves least (alloc e) :=
  fun d calm size => ⟨(), d, alloc_calm calm e, calm, size⟩

theorem serves_seek (e : ε) (pos : Nat) : Serves least (seek e pos) :=
  fun _ calm size => ⟨(), _, seek_calm calm e pos, calm, size⟩

theorem serves_sync (e : ε) : Serves least (sync e) := fun d calm size => ⟨(), d, sync_calm calm e, calm, size⟩

theorem serves_write (e : ε) (data : Bytes) : Serves least (write e data) :=
  fun d calm size => ⟨(), _, write_calm calm e data, calm, size.trans (d.file.size_le_write d.pos data)⟩

theorem serves_writeAt (e : ε) (pos : Nat) (data : Bytes) : Serves least (writeAt e pos data) :=
  (serves_seek e pos).bind fun _ => serves_write e data

theorem serves_readAt (e e' : ε) {pos count : Nat} (inside : pos + count ≤ least) :
    Serves least (readAt e e' pos count) := by
  refine (serves_seek e pos).bind fun _ d calm size => ?_
  have length : (d.file.read pos count).length = count := by
    rw [File.read_length]
    omega
  refine ⟨d.file.read pos count, { d with pos := pos + count }, ?_, calm, size⟩
  rw [ask_calm calm, bind_of_ok (get_run d)]
  simp only [length, bind_run, set_run, if_true, pure_run]

end serves

def Steady (d d' : Disk) : Prop := d.Calm → d'.Calm

instance : Std.Refl Steady := ⟨fun _ => id⟩

instance : IsTrans Disk Steady := ⟨fun _ _ _ first second => second ∘ first⟩

theorem steady_ask {serve : Op ε Disk α} (served : Keeps Steady serve) (refuse : Nat → Op ε Disk α) :
    Keeps Steady (ask serve refuse) := by
  intro d calm
  rw [ask_calm calm]
  exact served d calm

theorem steady_alloc (e : ε) : Keeps Steady (alloc e) := steady_ask (Keeps.pure ()) _

theorem steady_tell (e : ε) : Keeps Steady (tell e) :=
  steady_ask (Keeps.bind Keeps.get fun d => Keeps.pure d.pos) _

theorem steady_seek (e : ε) (pos : Nat) : Keeps Steady (seek e pos) :=
  steady_ask (@Keeps.modify ε Disk Steady (fun d => { d with pos }) fun _ => id) _

theorem steady_write (e : ε) (data : Bytes) : Keeps Steady (write e data) := by
  unfold write
  split
  · exact Keeps.pure ()
  · exact steady_ask (@Keeps.modify ε Disk Steady (put data) fun _ => id) _

theorem steady_writeAt (e : ε) (pos : Nat) (data : Bytes) : Keeps Steady (writeAt e pos data) :=
  Keeps.bind (steady_seek e pos) fun _ => steady_write e data

theorem steady_onPlan {x : Op ε Faults α} (keeps : Keeps Faults.Steady x) : Keeps Steady (onPlan x) :=
  Keeps.zoom keeps fun _ _ kept => kept

def Above (low : Nat) (d d' : Disk) : Prop :=
  low ≤ d.pos → low ≤ d'.pos ∧ d.file.size ≤ d'.file.size ∧
    ∀ i, i < low → d'.file.byte i = d.file.byte i

variable {low : Nat}

instance : Std.Refl (Above low) := ⟨fun _ start => ⟨start, le_rfl, fun _ _ => rfl⟩⟩

instance : IsTrans Disk (Above low) where
  trans d d' d'' first second start := by
    obtain ⟨start', grows, same⟩ := first start
    obtain ⟨start'', grows', same'⟩ := second start'
    exact ⟨start'', grows.trans grows', fun i below => (same' i below).trans (same i below)⟩

theorem above_plan (d : Disk) (plan : Faults) : Above low d { d with plan } :=
  fun start => ⟨start, le_rfl, fun _ _ => rfl⟩

theorem above_put (data : Bytes) (d : Disk) : Above low d (put data d) := by
  intro start
  refine ⟨start.trans (Nat.le_add_right _ _), File.size_le_write _ _ _, fun i below => ?_⟩
  exact File.write_byte_of_outside (.inl (by omega))

theorem keeps_ask {serve : Op ε Disk α} {refuse : Nat → Op ε Disk α} (served : Keeps (Above low) serve)
    (refusal : ∀ k, Keeps (Above low) (refuse k)) : Keeps (Above low) (ask serve refuse) := by
  intro d
  unfold ask
  cases d.plan 0 with
  | none => exact trans_of (Above low) (above_plan d _) (served _)
  | some k => exact trans_of (Above low) (above_plan d _) (refusal k _)

theorem keeps_refused (e : ε) (k : Nat) : Keeps (Above low) (refused e k : Op ε Disk α) :=
  Keeps.throw e

theorem keeps_alloc (e : ε) : Keeps (Above low) (alloc e) :=
  keeps_ask (Keeps.pure ()) (keeps_refused e)

theorem keeps_tell (e : ε) : Keeps (Above low) (tell e) :=
  keeps_ask (Keeps.bind Keeps.get fun d => Keeps.pure d.pos) (keeps_refused e)

theorem keeps_seek (e : ε) {pos : Nat} (above : low ≤ pos) : Keeps (Above low) (seek e pos) :=
  keeps_ask (Keeps.modify fun _ _ => ⟨above, le_rfl, fun _ _ => rfl⟩) (keeps_refused e)

theorem keeps_write (e : ε) (data : Bytes) : Keeps (Above low) (write e data) := by
  unfold write
  split
  · exact Keeps.pure ()
  · exact keeps_ask (Keeps.modify (above_put data)) fun k =>
      Keeps.bind (Keeps.modify (above_put (data.take k))) fun _ => Keeps.throw e

theorem keeps_writeAt (e : ε) {pos : Nat} (above : low ≤ pos) (data : Bytes) :
    Keeps (Above low) (writeAt e pos data) :=
  Keeps.bind (keeps_seek e above) fun _ => keeps_write e data

theorem keeps_onPlan (x : Op ε Faults α) : Keeps (Above low) (onPlan x) := by
  intro d
  unfold onPlan zoom
  cases x d.plan <;> exact above_plan d _

end Disk
