import LibMpq.Content
import LibMpq.Stream

set_option autoImplicit false

-- Reads and seeks in any order, some of them failing. The one cached block shares its buffer
-- with the block that replaces it, so what a failed load leaves there decides what later reads
-- return.

namespace LibMpq

open Effect Bits Reading

namespace Streaming

structure SameMember (s s' : Stream) : Prop where
  archive : ∃ plan, s'.archive = { s.archive with plan }
  number : s'.number = s.number
  blocks : s'.blocks = s.blocks
  size : s'.size = s.size

instance : Std.Refl SameMember := ⟨fun s => ⟨⟨s.archive.plan, rfl⟩, rfl, rfl, rfl⟩⟩

instance : IsTrans Stream SameMember where
  trans s s' s'' first second := by
    obtain ⟨plan, step⟩ := first.archive
    obtain ⟨plan', step'⟩ := second.archive
    exact ⟨⟨plan', by rw [step', step]⟩, second.number.trans first.number,
      second.blocks.trans first.blocks, second.size.trans first.size⟩

def dataOf (codecs : Codecs) (s : Stream) (block : Nat) : Option Bytes :=
  blockData codecs s.archive s.number block

theorem SameMember.dataOf {codecs : Codecs} {s s' : Stream} (same : SameMember s s') (block : Nat) :
    dataOf codecs s' block = dataOf codecs s block := by
  obtain ⟨plan, archive⟩ := same.archive
  unfold Streaming.dataOf
  rw [archive, same.number]
  rfl

theorem SameMember.baseOf {s s' : Stream} (same : SameMember s s') (block : Nat) :
    baseOf s' block = baseOf s block := by
  obtain ⟨plan, archive⟩ := same.archive
  unfold Streaming.baseOf
  rw [archive, same.blocks]

def Cached (codecs : Codecs) (s : Stream) : Prop :=
  s.blockValid = true → dataOf codecs s s.cachedBlock = some (s.buffer.take s.blockSize) ∧
    s.blockSize ≤ s.buffer.length

-- What the decoder reports for the block it stores.
def Stored (codecs : Codecs) (s : Stream) (block : Nat) : Prop := Definite codecs s.archive s.number block

structure Attempted (s s' : Stream) : Prop extends SameMember s s' where
  position : s'.position = s.position
  cachedBlock : s'.cachedBlock = s.cachedBlock
  blockValid : s'.blockValid = s.blockValid
  blockSize : s'.blockSize = s.blockSize
  buffer : s.buffer.length ≤ s'.buffer.length

instance : Std.Refl Attempted := ⟨fun s => ⟨refl_of SameMember s, rfl, rfl, rfl, rfl, le_rfl⟩⟩

instance : IsTrans Stream Attempted where
  trans _ _ _ first second :=
    ⟨trans_of SameMember first.toSameMember second.toSameMember,
      second.position.trans first.position, second.cachedBlock.trans first.cachedBlock,
      second.blockValid.trans first.blockValid, second.blockSize.trans first.blockSize,
      first.buffer.trans second.buffer⟩

theorem growBuffer_attempted (size : Nat) : Keeps Attempted (growBuffer size) := by
  refine Keeps.bind Keeps.get fun s => ?_
  split
  · refine Keeps.bind (Keeps.zoom (Keeps.of_true _) fun s plan _ => ?_) fun _ => ?_
    · exact ⟨⟨⟨plan, rfl⟩, rfl, rfl, rfl⟩, rfl, rfl, rfl, rfl, le_rfl⟩
    · exact Keeps.modify fun s => ⟨⟨⟨s.archive.plan, rfl⟩, rfl, rfl, rfl⟩, rfl, rfl, rfl, rfl, by simp⟩
  · exact Keeps.pure ()

theorem readInto_attempted (codecs : Codecs) (block : Nat) : Keeps Attempted (readInto codecs block) := by
  intro s
  have wider := blockReadAcquired_wider codecs s.archive s.number block (s.checksums.map (· block))
    { plan := s.archive.plan, buffer := s.buffer, mismatch := false, lossy := false }
  unfold readInto
  simp only
  split
  next run =>
    rw [run] at wider
    split <;> exact ⟨⟨⟨_, rfl⟩, rfl, rfl, rfl⟩, rfl, rfl, rfl, rfl, wider⟩
  next run =>
    rw [run] at wider
    exact ⟨⟨⟨_, rfl⟩, rfl, rfl, rfl⟩, rfl, rfl, rfl, rfl, wider⟩

theorem SameMember.stored {codecs : Codecs} {s s' : Stream} (same : SameMember s s') {block : Nat}
    (stored : Stored codecs s block) : Stored codecs s' block := by
  obtain ⟨plan, archive⟩ := same.archive
  unfold Stored
  rw [archive, same.number]
  exact stored

theorem readInto_ok {codecs : Codecs} {block transferred : Nat} {s s' : Stream}
    (stored : Stored codecs s block) (run : readInto codecs block s = .ok transferred s') :
    dataOf codecs s block = some (s'.buffer.take transferred) ∧ transferred ≤ s'.buffer.length := by
  unfold readInto at run
  simp only at run
  split at run
  next status w read =>
    split at run
    · cases run
    · cases run
      obtain ⟨data, content, length, bytes⟩ := blockReadAcquired_ok stored read
      rw [← length, bytes]
      refine ⟨content, ?_⟩
      have cut := congrArg List.length bytes
      rw [List.length_take] at cut
      exact cut.symm.trans_le (min_le_right _ _)
  next => cases run

inductive LoadOutcome (codecs : Codecs) (block : Nat) (s : Stream) :
    EStateM.Result Error Stream Unit → Prop
  | failed {e : Error} {s' : Stream} : Attempted s s' → LoadOutcome codecs block s (.error e s')
  | hit : s.blockValid = true → s.cachedBlock = block → LoadOutcome codecs block s (.ok () s)
  | loaded {s' : Stream} : SameMember s s' → s'.position = s.position → s'.blockValid = true →
      s'.cachedBlock = block → (Stored codecs s block → Cached codecs s') →
      LoadOutcome codecs block s (.ok () s')

theorem loadBlock_outcome (codecs : Codecs) (block : Nat) (s : Stream) :
    LoadOutcome codecs block s (loadBlock codecs block s) := by
  have failed : ∀ e s', Attempted s s' → LoadOutcome codecs block s (.error e s') := fun _ _ => .failed
  unfold loadBlock
  rw [bind_of_ok (get_run s)]
  split
  next here => exact .hit here.1 here.2
  next =>
    refine Keeps.bind_elim (Keeps.fromExcept _) (refl_of Attempted s) failed fun _ _ _ same => ?_
    refine Keeps.bind_elim (growBuffer_attempted _) same failed fun _ t _ same => ?_
    refine Keeps.bind_elim (readInto_attempted codecs block) same failed fun transferred t' read same' => ?_
    refine .loaded ⟨same'.archive, same'.number, same'.blocks, same'.size⟩ same'.position rfl rfl
      fun stored _ => ?_
    obtain ⟨content, fits⟩ := readInto_ok (same.stored stored) read
    rw [same.dataOf] at content
    exact ⟨(same'.dataOf block).trans content, fits⟩

/-- The member's bytes stand in `c` wherever a block can be decoded. -/
def Decodes (codecs : Codecs) (s : Stream) (c : Bytes) : Prop :=
  ∀ block data, dataOf codecs s block = some data →
    (c.drop (baseOf s block)).take data.length = data

theorem Decodes.congr {codecs : Codecs} {s s' : Stream} (same : SameMember s s') {c : Bytes}
    (decodes : Decodes codecs s c) : Decodes codecs s' c := by
  intro block data stored
  rw [same.dataOf] at stored
  rw [same.baseOf]
  exact decodes block data stored

def Harmless (s s' : Stream) : Prop :=
  s.blockValid = true → s'.buffer.take s.blockSize = s.buffer.take s.blockSize

-- What is asked of each load of a read: `failed` of those that fail, `loaded` of the others.
def eachLoad (codecs : Codecs) (failed : Stream → Stream → Prop) (loaded : Stream → Nat → Prop) :
    Nat → Nat → Stream → Prop
  | 0, _, _ => True
  | fuel + 1, want, s =>
    if want = 0 ∨ s.position ≥ s.size then True
    else
      match loadBlock codecs (blockAt s s.position) s with
      | .error _ s' => failed s s'
      | .ok _ s' =>
        let offset := s'.position - baseOf s' (blockAt s s.position)
        loaded s (blockAt s s.position) ∧
          if offset ≥ s'.blockSize then True
          else
            let count := takeCount s' offset want
            eachLoad codecs failed loaded fuel (want - count) (advance count s')

theorem base_le_position (s : Stream) : baseOf s (blockAt s s.position) ≤ s.position := by
  unfold baseOf blockAt
  split
  · exact Nat.zero_le _
  · exact Nat.div_mul_le_self _ _

theorem Attempted.cached {codecs : Codecs} {s s' : Stream} (attempted : Attempted s s')
    (harmless : Harmless s s') (cached : Cached codecs s) : Cached codecs s' := by
  intro valid
  rw [attempted.blockValid] at valid
  rw [attempted.toSameMember.dataOf, attempted.cachedBlock, attempted.blockSize, harmless valid]
  exact ⟨(cached valid).1, (cached valid).2.trans attempted.buffer⟩

theorem transferred_eq {codecs : Codecs} {s : Stream} {c : Bytes} (decodes : Decodes codecs s c)
    (cached : Cached codecs s) (valid : s.blockValid = true) {base count : Nat}
    (place : baseOf s s.cachedBlock = base) (below : base ≤ s.position)
    (fits : s.position - base + count ≤ s.blockSize) :
    (s.buffer.drop (s.position - base)).take count = (c.drop s.position).take count := by
  obtain ⟨content, fits_⟩ := cached valid
  have bytes := decodes _ _ content
  rw [place, List.length_take, Nat.min_eq_left fits_] at bytes
  have inside : ∀ x : Bytes, (x.drop (s.position - base)).take count =
      ((x.take s.blockSize).drop (s.position - base)).take count := by
    intro x
    rw [List.drop_take, List.take_take, Nat.min_eq_left (by omega)]
  rw [inside, ← bytes, ← inside, List.drop_drop, Nat.add_sub_cancel' below]

structure ReadSpec (codecs : Codecs) (c : Bytes) (s : Stream) (r : ReadOutcome) (stored clean : Prop) :
    Prop where
  same : SameMember s r.stream
  position : r.stream.position = s.position + r.transferred
  bound : r.stream.position ≤ r.stream.size
  data : Cached codecs s → stored → r.data = (c.drop s.position).take r.transferred
  cached : Cached codecs s → clean → Cached codecs r.stream

theorem ReadSpec.stop {codecs : Codecs} {c : Bytes} {s s' : Stream} {e : Option Error} {stored clean : Prop}
    (same : SameMember s s') (position : s'.position = s.position) (start : s.position ≤ s.size)
    (cached : Cached codecs s → clean → Cached codecs s') :
    ReadSpec codecs c s ⟨s', [], 0, e⟩ stored clean :=
  ⟨same, position, by rw [position, same.size]; exact start, fun _ _ => rfl, cached⟩

theorem ReadSpec.round {codecs : Codecs} {c : Bytes} {s s' : Stream} {count : Nat} {r : ReadOutcome}
    {here stored clean : Prop} {front : Bytes} (same : SameMember s s') (position : s'.position = s.position)
    (bytes : Cached codecs s → here → front = (c.drop s.position).take count)
    (loaded : Cached codecs s → here → Cached codecs s')
    (rest : ReadSpec codecs c (advance count s') r stored clean) :
    ReadSpec codecs c s { r with data := front ++ r.data, transferred := count + r.transferred }
      (here ∧ stored) (here ∧ clean) := by
  refine ⟨trans_of SameMember same ⟨rest.same.archive, rest.same.number, rest.same.blocks,
    rest.same.size⟩, ?_, rest.bound, fun cached both => ?_, fun cached both => ?_⟩
  · rw [rest.position, advance, position, Nat.add_assoc]
  · have later := rest.data (loaded cached both.1) both.2
    rw [advance, position] at later
    rw [List.take_add, List.drop_drop, ← later, ← bytes cached both.1]
  · exact rest.cached (loaded cached both.1) both.2

-- A read whose blocks are all stored as they are reported.
def StoredLoads (codecs : Codecs) : Nat → Nat → Stream → Prop := eachLoad codecs (fun _ _ => True) (Stored codecs)

-- Moreover none of its loads fails over the bytes of a cached block.
def CleanLoads (codecs : Codecs) : Nat → Nat → Stream → Prop := eachLoad codecs Harmless (Stored codecs)

theorem readLoop_spec {codecs : Codecs} {c : Bytes} (fuel : Nat) {want : Nat} {s : Stream}
    (decodes : Decodes codecs s c) (start : s.position ≤ s.size) :
    ReadSpec codecs c s (readLoop codecs fuel want s) (StoredLoads codecs fuel want s)
      (CleanLoads codecs fuel want s) := by
  induction fuel generalizing want s with
  | zero => exact .stop (refl_of SameMember s) rfl start fun cached _ => cached
  | succ fuel ih =>
    rw [readLoop, StoredLoads, CleanLoads, eachLoad, eachLoad]
    by_cases stop : want = 0 ∨ s.position ≥ s.size
    · rw [if_pos stop, if_pos stop, if_pos stop]
      exact .stop (refl_of SameMember s) rfl start fun cached _ => cached
    rw [if_neg stop, if_neg stop, if_neg stop]
    have outcome := loadBlock_outcome codecs (blockAt s s.position) s
    generalize loadBlock codecs (blockAt s s.position) s = result at outcome ⊢
    -- What a usable block gives, however it came into the buffer.
    have usable : ∀ s', SameMember s s' → s'.position = s.position → s'.blockValid = true →
        s'.cachedBlock = blockAt s s.position →
        (Cached codecs s → Stored codecs s (blockAt s s.position) → Cached codecs s') →
        ReadSpec codecs c s
          (let offset := s'.position - baseOf s' (blockAt s s.position)
          if offset ≥ s'.blockSize then ⟨s', [], 0, some .read⟩
          else
            let count := takeCount s' offset want
            let rest := readLoop codecs fuel (want - count) (advance count s')
            { rest with
              data := (s'.buffer.drop offset).take count ++ rest.data
              transferred := count + rest.transferred })
          (let offset := s'.position - baseOf s' (blockAt s s.position)
          Stored codecs s (blockAt s s.position) ∧
            if offset ≥ s'.blockSize then True
            else
              let count := takeCount s' offset want
              StoredLoads codecs fuel (want - count) (advance count s'))
          (let offset := s'.position - baseOf s' (blockAt s s.position)
          Stored codecs s (blockAt s s.position) ∧
            if offset ≥ s'.blockSize then True
            else
              let count := takeCount s' offset want
              CleanLoads codecs fuel (want - count) (advance count s')) := by
      intro s' same position valid block loaded
      have below : baseOf s' (blockAt s s.position) ≤ s'.position := by
        rw [same.baseOf, position]
        exact base_le_position s
      simp only
      by_cases short : s'.position - baseOf s' (blockAt s s.position) ≥ s'.blockSize
      · rw [if_pos short, if_pos short, if_pos short]
        exact .stop same position start fun cached both => loaded cached both.1
      rw [if_neg short, if_neg short, if_neg short]
      have size := same.size
      have count : takeCount s' (s'.position - baseOf s' (blockAt s s.position)) want ≤
          s'.blockSize - (s'.position - baseOf s' (blockAt s s.position)) ∧
          takeCount s' (s'.position - baseOf s' (blockAt s s.position)) want ≤
            s'.size - s'.position := by
        unfold takeCount
        omega
      refine .round same position (fun cached stored => ?_) loaded (ih ?_ ?_)
      · refine (transferred_eq (decodes.congr same) (loaded cached stored) valid (by rw [block]) below
          (by omega)).trans (by rw [position])
      · exact decodes.congr (trans_of SameMember same ⟨⟨_, rfl⟩, rfl, rfl, rfl⟩)
      · simp only [advance]
        omega
    cases outcome with
    | failed attempted =>
      exact .stop attempted.toSameMember attempted.position start
        fun cached harmless => attempted.cached harmless cached
    | hit valid block => exact usable s (refl_of SameMember s) rfl valid block fun cached _ => cached
    | loaded same position valid block cached =>
      exact usable _ same position valid block fun _ => cached

instance (s s' : Stream) : Decidable (Harmless s s') := inferInstanceAs (Decidable (_ → _))

-- The loads of a read can be tried out.
instance decidableEachLoad (codecs : Codecs) (failed : Stream → Stream → Prop) (loaded : Stream → Nat → Prop)
    [∀ s s', Decidable (failed s s')] [∀ s block, Decidable (loaded s block)] :
    ∀ fuel want s, Decidable (eachLoad codecs failed loaded fuel want s)
  | 0, _, _ => isTrue trivial
  | fuel + 1, want, s =>
    if stop : want = 0 ∨ s.position ≥ s.size then
      isTrue (by rw [eachLoad, if_pos stop]; trivial)
    else
      match run : loadBlock codecs (blockAt s s.position) s with
      | .error _ s' => decidable_of_iff (failed s s') (by rw [eachLoad, if_neg stop, run])
      | .ok _ s' =>
        let count := takeCount s' (s'.position - baseOf s' (blockAt s s.position)) want
        have := decidableEachLoad codecs failed loaded fuel (want - count) (advance count s')
        decidable_of_iff (loaded s (blockAt s s.position) ∧
          if s'.position - baseOf s' (blockAt s s.position) ≥ s'.blockSize then True
          else eachLoad codecs failed loaded fuel (want - count) (advance count s'))
          (by rw [eachLoad, if_neg stop, run])

theorem eachLoad_mono {codecs : Codecs} {failed failed' : Stream → Stream → Prop}
    {loaded loaded' : Stream → Nat → Prop} (fails : ∀ s s', failed s s' → failed' s s')
    (loads : ∀ s block, loaded s block → loaded' s block) {fuel want : Nat} {s : Stream}
    (each : eachLoad codecs failed loaded fuel want s) : eachLoad codecs failed' loaded' fuel want s := by
  induction fuel generalizing want s with
  | zero => exact trivial
  | succ fuel ih =>
    rw [eachLoad] at each ⊢
    split at each
    next stop => rw [if_pos stop]; trivial
    next stop =>
      rw [if_neg stop]
      cases run : loadBlock codecs (blockAt s s.position) s with
      | error e s' =>
        rw [run] at each
        exact fails s s' each
      | ok _ s' =>
        rw [run] at each
        refine ⟨loads s _ each.1, ?_⟩
        have rest := each.2
        split at rest
        next short => rw [if_pos short]; trivial
        next short =>
          rw [if_neg short]
          exact ih rest

inductive StreamCall where
  | read (size : Int)
  | seek (offset : Int) (origin : Origin)

def StreamCall.apply (codecs : Codecs) (s : Stream) : StreamCall → Stream
  | .read size => (streamRead codecs size s).stream
  | .seek offset origin => final (streamSeek offset origin s)

def StreamCall.Clean (codecs : Codecs) (s : Stream) : StreamCall → Prop
  | .read size => size < 0 ∨ CleanLoads codecs size.toNat size.toNat s
  | .seek _ _ => True

def runCalls (codecs : Codecs) (s : Stream) (calls : List StreamCall) : Stream :=
  calls.foldl (StreamCall.apply codecs) s

/-- In no call of the run does a load fail over the bytes of a cached block, or report bytes that are
not stored. -/
def CleanRun (codecs : Codecs) : Stream → List StreamCall → Prop
  | _, [] => True
  | s, call :: rest => call.Clean codecs s ∧ CleanRun codecs (call.apply codecs s) rest

theorem streamRead_spec {codecs : Codecs} {c : Bytes} {s : Stream} (decodes : Decodes codecs s c)
    (start : s.position ≤ s.size) (size : Int) :
    ReadSpec codecs c s (streamRead codecs size s) (StoredLoads codecs size.toNat size.toNat s)
      (StreamCall.Clean codecs s (.read size)) := by
  unfold streamRead
  split
  next => exact .stop (refl_of SameMember s) rfl start fun cached _ => cached
  next valid =>
    have spec := @readLoop_spec codecs c size.toNat size.toNat s decodes start
    exact ⟨spec.same, spec.position, spec.bound, spec.data, fun cached clean =>
      spec.cached cached (clean.resolve_left valid)⟩

theorem streamSeek_final (offset : Int) (origin : Origin) (s : Stream) :
    ∃ position, final (streamSeek offset origin s) = { s with position } ∧
      (s.position ≤ s.size → position ≤ s.size) := by
  unfold streamSeek
  rw [bind_of_ok (get_run s)]
  cases originBase s origin with
  | none => exact ⟨s.position, rfl, id⟩
  | some base =>
    simp only
    by_cases far : (offset > 0 ∧ base > int64Max - offset) ∨ (offset < 0 ∧ base < int64Min - offset)
    · rw [bind_of_error (failIf_true far _ _)]
      exact ⟨s.position, rfl, id⟩
    rw [bind_of_ok (failIf_false far _ _)]
    by_cases outside : base + offset < 0 ∨ base + offset > s.size
    · rw [bind_of_error (failIf_true outside _ _)]
      exact ⟨s.position, rfl, id⟩
    · rw [bind_of_ok (failIf_false outside _ _)]
      exact ⟨(base + offset).toNat, rfl, fun _ => by omega⟩

structure Viewing (codecs : Codecs) (c : Bytes) (s : Stream) : Prop where
  decodes : Decodes codecs s c
  position : s.position ≤ s.size

theorem StreamCall.apply_viewing {codecs : Codecs} {c : Bytes} {s : Stream} (viewing : Viewing codecs c s) (call : StreamCall) :
    Viewing codecs c (call.apply codecs s) ∧
      (Cached codecs s → call.Clean codecs s → Cached codecs (call.apply codecs s)) := by
  cases call with
  | read size =>
    have spec := streamRead_spec viewing.decodes viewing.position size
    exact ⟨⟨viewing.decodes.congr spec.same, spec.bound⟩, spec.cached⟩
  | seek offset origin =>
    obtain ⟨position, moved, bound⟩ := streamSeek_final offset origin s
    rw [StreamCall.apply, moved]
    exact ⟨⟨viewing.decodes, bound viewing.position⟩, fun cached _ => cached⟩

theorem runCalls_viewing {codecs : Codecs} {c : Bytes} (calls : List StreamCall) {s : Stream} (viewing : Viewing codecs c s) :
    Viewing codecs c (runCalls codecs s calls) ∧
      (Cached codecs s → CleanRun codecs s calls → Cached codecs (runCalls codecs s calls)) := by
  induction calls generalizing s with
  | nil => exact ⟨viewing, fun cached _ => cached⟩
  | cons call rest ih =>
    obtain ⟨next, kept⟩ := call.apply_viewing viewing
    obtain ⟨last, keptLast⟩ := ih next
    exact ⟨last, fun cached clean => keptLast (kept cached clean.1) clean.2⟩

theorem keyKnown_keeps {R : ReadArchive → ReadArchive → Prop} [Std.Refl R] [IsTrans ReadArchive R]
    (a : ReadArchive) (number : Nat) : Keeps R (keyKnown a number) := by
  unfold keyKnown
  split
  · cases a.cache number with
    | none => exact Keeps.throw _
    | some file => exact Keeps.bind (Keeps.failIf _ _) fun _ => Keeps.bind (Keeps.failIf _ _) fun _ => Keeps.failIf _ _
  · exact Keeps.pure _

theorem orRelease_ok {α : Type} {number : Nat} {x : Op Error ReadArchive α} {a a' : ReadArchive} {r : α} :
    orRelease number x a = .ok r a' ↔ x a = .ok r a' := by
  unfold orRelease
  cases x a <;> simp

theorem streamAdopt_ok {codecs : Codecs} {number : Nat} {name : Option Bytes} {a a' : ReadArchive}
    {s : Stream} (run : streamAdopt codecs number name a = .ok s a') :
    s.blockValid = false ∧ s.position = 0 := by
  unfold streamAdopt at run
  rw [bind_of_ok (get_run a)] at run
  obtain ⟨-, run⟩ := failIf_bind_ok.mp run
  obtain ⟨_, _, -, run⟩ := bind_ok.mp run
  obtain ⟨_, b, -, run⟩ := bind_ok.mp run
  have run := orRelease_ok.mp run
  rw [bind_of_ok (get_run b)] at run
  obtain ⟨_, _, -, run⟩ := bind_ok.mp run
  obtain ⟨_, c, -, run⟩ := bind_ok.mp run
  rw [bind_of_ok (get_run c)] at run
  obtain ⟨rfl, -⟩ := pure_ok.mp run
  exact ⟨rfl, rfl⟩

/-- One read of a view: its bytes are the member's at the position it started from. -/
def ReadsContent (codecs : Codecs) (c : Bytes) (s : Stream) : Prop :=
  ∀ size, StoredLoads codecs size.toNat size.toNat s → (streamRead codecs size s).data =
    (c.drop s.position).take (streamRead codecs size s).transferred

/-- Every call keeps the position inside the member, and a read moves it by what it transferred. -/
def KeepsPosition (codecs : Codecs) (s : Stream) : Prop :=
  s.position ≤ s.size ∧
    ∀ size, (streamRead codecs size s).stream.position =
      s.position + (streamRead codecs size s).transferred

-- After any calls on an open stream the position is right; after calls in which no load failed
-- over a cached block or reported what it had not stored, every read returns the member's
-- bytes.
theorem stream_views_member {codecs : Codecs} {number : Nat} {name : Option Bytes} {a a' : ReadArchive}
    {s : Stream} (opened : streamAdopt codecs number name a = .ok s a') {c : Bytes}
    (decodes : Decodes codecs s c) (calls : List StreamCall) :
    KeepsPosition codecs (runCalls codecs s calls) ∧
      (CleanRun codecs s calls → ReadsContent codecs c (runCalls codecs s calls)) := by
  obtain ⟨fresh, start⟩ := streamAdopt_ok opened
  have empty : Cached codecs s := by
    intro valid
    rw [fresh] at valid
    cases valid
  obtain ⟨viewing, cached⟩ := runCalls_viewing calls ⟨decodes, by rw [start]; exact Nat.zero_le _⟩
  have spec := streamRead_spec viewing.decodes viewing.position
  refine ⟨⟨viewing.position, fun size => (spec size).position⟩, fun clean size stored => ?_⟩
  exact (spec size).data (cached empty clean) stored

theorem dataOf_lt {codecs : Codecs} {s : Stream} {block : Nat} {data : Bytes}
    (stored : dataOf codecs s block = some data) :
    block < countFileBlocks s.archive s.number := by
  unfold dataOf blockData packedBlock at stored
  cases cached : s.archive.cache s.number with
  | none =>
    rw [cached] at stored
    cases stored
  | some file =>
    rw [cached] at stored
    by_cases valid : packedRange s.archive s.number block file
    · exact valid.2.1
    · simp only [if_neg valid] at stored
      cases stored

/-- A raw member of two sectors, zeros and then two ones. -/
def twoSectors (plan : Faults) : ReadArchive where
  source := File.empty.write 544 [1, 1]
  plan
  archiveOffset := 0
  blockSize := 512
  header := default
  headerEx := default
  hash _ := default
  block _ := { offset := 32, packedSize := 514, unpackedSize := 514, flags := Flag.exists_ }
  blockEx _ := 0
  blockTableIndices := id
  blockTableDiff _ := 0
  files := 1
  cache _ := none
  attributes := none
  attributesError := none

theorem decodes_of_blocks {codecs : Codecs} {s : Stream} {c : Bytes}
    (blocks : ∀ block < countFileBlocks s.archive s.number,
      (dataOf codecs s block).all fun data => (c.drop (baseOf s block)).take data.length = data) :
    Decodes codecs s c := by
  intro block data stored
  have equal := blocks block (dataOf_lt stored)
  rw [stored] at equal
  simpa using equal

theorem cleanLoads_of {codecs : Codecs} (reports : codecs.Reporting) {fuel want : Nat} {s : Stream}
    (harmless : eachLoad codecs Harmless (fun _ _ => True) fuel want s) : CleanLoads codecs fuel want s :=
  eachLoad_mono (fun _ _ same => same) (fun s block _ => definite_of_reporting reports s.archive s.number block)
    harmless

-- The ninth request is the read of the second sector: it stores some bytes and fails.
def cutShort (stored : Nat) : Faults := fun n => if n = 8 then some stored else none

def thereAndBack : List StreamCall := [.read 1, .seek 512 .set, .read 1, .seek 510 .set]

set_option maxRecDepth 20000 in
theorem stream_views_member_sectors :
    ∃ s a', streamAdopt Compression.zeroRunCodecs 0 none (twoSectors (cutShort 0)) = .ok s a' ∧
      CleanRun Compression.zeroRunCodecs s thereAndBack ∧
      KeepsPosition Compression.zeroRunCodecs (runCalls Compression.zeroRunCodecs s thereAndBack) ∧
      ReadsContent Compression.zeroRunCodecs (Bytes.zeros 512 ++ [1, 1])
        (runCalls Compression.zeroRunCodecs s thereAndBack) ∧
      (streamRead Compression.zeroRunCodecs 9 (runCalls Compression.zeroRunCodecs s thereAndBack)).data =
        [0, 0, 1, 1] := by
  obtain ⟨s, a', opened, decodes, clean, data⟩ :
      ∃ s a', streamAdopt Compression.zeroRunCodecs 0 none (twoSectors (cutShort 0)) = .ok s a' ∧
        Decodes Compression.zeroRunCodecs s (Bytes.zeros 512 ++ [1, 1]) ∧
        CleanRun Compression.zeroRunCodecs s thereAndBack ∧
        (streamRead Compression.zeroRunCodecs 9 (runCalls Compression.zeroRunCodecs s thereAndBack)).data =
          [0, 0, 1, 1] :=
    ⟨_, _, rfl, decodes_of_blocks (by decide +kernel),
      ⟨.inr (cleanLoads_of Compression.zeroRunCodecs_reporting (by decide +kernel)), trivial,
        .inr (cleanLoads_of Compression.zeroRunCodecs_reporting (by decide +kernel)), trivial, trivial⟩,
      by decide +kernel⟩
  obtain ⟨keeps, reads⟩ := stream_views_member opened decodes thereAndBack
  exact ⟨s, a', opened, clean, keeps, reads clean, data⟩

def overwritten : List StreamCall := [.read 1, .seek 512 .set, .read 1, .seek 0 .set]

set_option maxRecDepth 20000 in
theorem stream_returns_other_sector :
    ∃ s a', streamAdopt Compression.zeroRunCodecs 0 none (twoSectors (cutShort 1)) = .ok s a' ∧
      Decodes Compression.zeroRunCodecs s (Bytes.zeros 512 ++ [1, 1]) ∧
      StoredLoads Compression.zeroRunCodecs 1 1 (runCalls Compression.zeroRunCodecs s overwritten) ∧
      ¬ ReadsContent Compression.zeroRunCodecs (Bytes.zeros 512 ++ [1, 1])
        (runCalls Compression.zeroRunCodecs s overwritten) := by
  obtain ⟨s, a', opened, decodes, harmless, different⟩ :
      ∃ s a', streamAdopt Compression.zeroRunCodecs 0 none (twoSectors (cutShort 1)) = .ok s a' ∧
        Decodes Compression.zeroRunCodecs s (Bytes.zeros 512 ++ [1, 1]) ∧
        eachLoad Compression.zeroRunCodecs Harmless (fun _ _ => True) 1 1
          (runCalls Compression.zeroRunCodecs s overwritten) ∧
        let read := streamRead Compression.zeroRunCodecs 1 (runCalls Compression.zeroRunCodecs s overwritten)
        read.data ≠ ((Bytes.zeros 512 ++ [1, 1]).drop
          (runCalls Compression.zeroRunCodecs s overwritten).position).take read.transferred :=
    ⟨_, _, rfl, decodes_of_blocks (by decide +kernel), by decide +kernel, by decide +kernel⟩
  have stored : StoredLoads Compression.zeroRunCodecs 1 1 (runCalls Compression.zeroRunCodecs s overwritten) :=
    eachLoad_mono (fun _ _ _ => trivial) (fun _ _ stored => stored)
      (cleanLoads_of Compression.zeroRunCodecs_reporting harmless)
  exact ⟨s, a', opened, decodes, stored, fun reads => different (reads 1 stored)⟩

end Streaming

end LibMpq
