import LibMpq.Base.Checked
import LibMpq.Types
import LibMpq.Wave

set_option autoImplicit false

-- The two RIFF walks of `mpq-wave.c` with their 32-bit positions and every access to the
-- buffer. A walk over a whole buffer adds the chunk sizes in 32 bits, so its chunks decide
-- whether it ends at all.

namespace LibMpq

open Effect

namespace Wave

open Wire

def headed (data : Bytes) : Bool := 12 ≤ data.length && tag data 0 "RIFF" && tag data 8 "WAVE"

def sizeAt (data : Bytes) (pos : Nat) : Nat := (le32.decode (data.drop (pos + 4))).toNat

def formatChunk (data : Bytes) (pos : Nat) : Prop := tag data pos "fmt " = true ∧ 16 ≤ sizeAt data pos

def dataChunk (data : Bytes) (pos : Nat) : Prop := ¬ formatChunk data pos ∧ tag data pos "data" = true

instance (data : Bytes) (pos : Nat) : Decidable (formatChunk data pos) := instDecidableAnd

instance (data : Bytes) (pos : Nat) : Decidable (dataChunk data pos) := instDecidableAnd

def behind (data : Bytes) (pos : Nat) : Nat := pos + 8 + sizeAt data pos + sizeAt data pos % 2

def Walk.start : Walk where
  format := 0
  channels := 0
  bits := 0
  dataOffset := 0
  dataSize := 0

def loadFormat (data : Bytes) (pos : Nat) (walk : Walk) : Op (Stop Error) Unit Walk := do
  let format ← load data (pos + 8) 2
  let channels ← load data (pos + 10) 2
  let bits ← load data (pos + 22) 2
  pure { walk with
    format := (le16.decode format).toNat
    channels := (le16.decode channels).toNat
    bits := (le16.decode bits).toNat }

def conclude (data : Bytes) (walk : Walk) : Op (Stop Error) Unit WaveInfo := do
  stopIf (walk.format ≠ 1 ∨ (walk.channels ≠ 1 ∧ walk.channels ≠ 2) ∨ walk.bits ≠ 16 ∨
    walk.dataOffset = 0 ∨ walk.dataOffset > data.length ∨
    walk.dataSize % (walk.channels * 2) ≠ 0) .format
  pure { channels := walk.channels, dataOffset := walk.dataOffset, dataSize := walk.dataSize }

def probeRound (data : Bytes) : Nat × Walk → Op (Stop Error) Unit ((Nat × Walk) ⊕ Walk)
  | (pos, walk) =>
    if (pos + 8) % 2 ^ 32 ≤ data.length then do
      let chunkSize ← load data (pos + 4) 4
      let chunkSize := (le32.decode chunkSize).toNat
      let next := (pos + 8 + chunkSize + chunkSize % 2) % 2 ^ 32
      stopIf (next < pos ∨ next > data.length) .format
      let name ← load data pos 4
      if name = ascii "fmt ".toList ∧ chunkSize ≥ 16 then
        let walk ← loadFormat data pos walk
        pure (.inl (next, walk))
      else if name = ascii "data".toList then
        pure (.inl (next, { walk with dataOffset := (pos + 8) % 2 ^ 32, dataSize := chunkSize }))
      else pure (.inl (next, walk))
    else pure (.inr walk)

-- `libmpq__wave_probe_pcm16`, its loop cut off after so many rounds
def probePcm16 (fuel : Nat) (data : Bytes) : Op (Stop Error) Unit WaveInfo := do
  stopIf (headed data = false) .format
  let walk ← rounds (probeRound data) fuel (12, .start)
  conclude data walk

def prefixRound (data : Bytes) (fileSize : Nat) :
    Nat × Walk → Op (Stop Error) Unit ((Nat × Walk) ⊕ Walk)
  | (pos, walk) =>
    if (pos + 8) % 2 ^ 32 ≤ data.length then do
      let chunkSize ← load data (pos + 4) 4
      let chunkSize := (le32.decode chunkSize).toNat
      let next := pos + 8 + chunkSize + chunkSize % 2
      stopIf (next < pos ∨ next > fileSize) .format
      let name ← load data pos 4
      if name = ascii "fmt ".toList ∧ chunkSize ≥ 16 then
        stopIf (pos + 24 > data.length) .format
        let walk ← loadFormat data pos walk
        if next > data.length then pure (.inr walk)
        else pure (.inl (next, walk))
      else if name = ascii "data".toList then
        let dataOffset := (pos + 8) % 2 ^ 32
        stopIf (dataOffset + chunkSize > fileSize) .format
        pure (.inr { walk with dataOffset, dataSize := chunkSize })
      else if next > data.length then pure (.inr walk)
      else pure (.inl (next, walk))
    else pure (.inr walk)

-- `libmpq__wave_probe_pcm16_prefix`
def probePrefix (fuel : Nat) (data : Bytes) (fileSize : Nat) : Op (Stop Error) Unit WaveInfo := do
  stopIf (headed data = false ∨ fileSize < data.length) .format
  let walk ← rounds (prefixRound data fileSize) fuel (12, .start)
  conclude data walk

def taken (data : Bytes) (pos : Nat) (walk : Walk) : Walk :=
  if formatChunk data pos then
    { walk with
      format := field16 data (pos + 8)
      channels := field16 data (pos + 10)
      bits := field16 data (pos + 22) }
  else if dataChunk data pos then
    { walk with dataOffset := pos + 8, dataSize := sizeAt data pos }
  else walk

theorem load_field16 {data : Bytes} {pos : Nat} :
    (le16.decode ((data.drop pos).take 2)).toNat = field16 data pos := by
  simp [field16, le16, List.take_take]

theorem load_size {data : Bytes} {pos : Nat} :
    (le32.decode ((data.drop (pos + 4)).take 4)).toNat = sizeAt data pos := by
  simp [sizeAt, le32, List.take_take]

theorem loadFormat_inside {data : Bytes} {pos : Nat} (inside : pos + 24 ≤ data.length) (walk : Walk) :
    loadFormat data pos walk () = .ok { walk with
      format := field16 data (pos + 8)
      channels := field16 data (pos + 10)
      bits := field16 data (pos + 22) } () := by
  rw [loadFormat, bind_of_ok (load_of (by omega) ()), bind_of_ok (load_of (by omega) ()),
    bind_of_ok (load_of (by omega) ()), pure_run, load_field16, load_field16, load_field16]

theorem loadFormat_outside {data : Bytes} {pos : Nat} (outside : data.length < pos + 24) (walk : Walk) :
    loadFormat data pos walk () = .error .undefined () := by
  unfold loadFormat
  by_cases first : pos + 8 + 2 ≤ data.length
  · by_cases second : pos + 10 + 2 ≤ data.length
    · rw [bind_of_ok (load_of first ()), bind_of_ok (load_of second ()),
        bind_of_error (load_outside (by omega) ())]
    · rw [bind_of_ok (load_of first ()), bind_of_error (load_outside (by omega) ())]
  · rw [bind_of_error (load_outside (by omega) ())]

def nextAt (data : Bytes) (pos : Nat) : Nat := behind data pos % 2 ^ 32

section whole

variable {data : Bytes} {pos : Nat} (walk : Walk)

theorem probeRound_done (beyond : data.length < (pos + 8) % 2 ^ 32) :
    probeRound data (pos, walk) () = .ok (.inr walk) () := by
  rw [probeRound, if_neg (by omega), pure_run]

theorem probeRound_wrapped (guard : (pos + 8) % 2 ^ 32 ≤ data.length) (wrapped : data.length < pos + 8) :
    probeRound data (pos, walk) () = .error .undefined () := by
  rw [probeRound, if_pos guard, bind_of_error (load_outside (by omega) ())]

theorem probeRound_refused (representable : data.length < 2 ^ 32) (inside : pos + 8 ≤ data.length)
    (refused : nextAt data pos < pos ∨ nextAt data pos > data.length) :
    probeRound data (pos, walk) () = .error (.error .format) () := by
  have stops : (pos + 8 + sizeAt data pos + sizeAt data pos % 2) % 2 ^ 32 < pos ∨
      (pos + 8 + sizeAt data pos + sizeAt data pos % 2) % 2 ^ 32 > data.length := refused
  rw [probeRound, if_pos (by omega), bind_of_ok (load_of (by omega) ()), load_size,
    bind_of_error (stopIf_true stops _ ())]

theorem probeRound_chunk (representable : data.length < 2 ^ 32) (inside : pos + 8 ≤ data.length)
    (forward : pos ≤ nextAt data pos) (room : nextAt data pos ≤ data.length)
    (fields : formatChunk data pos → pos + 24 ≤ data.length) :
    probeRound data (pos, walk) () = .ok (.inl (nextAt data pos, taken data pos walk)) () := by
  have valid : ¬ ((pos + 8 + sizeAt data pos + sizeAt data pos % 2) % 2 ^ 32 < pos ∨
      (pos + 8 + sizeAt data pos + sizeAt data pos % 2) % 2 ^ 32 > data.length) :=
    not_or.mpr ⟨Nat.not_lt.mpr forward, Nat.not_lt.mpr room⟩
  rw [probeRound, if_pos (by omega), bind_of_ok (load_of (by omega) ()), load_size,
    bind_of_ok (stopIf_false valid _ ()), bind_of_ok (load_of (by omega) ())]
  have small : (pos + 8) % 2 ^ 32 = pos + 8 := by omega
  rw [small]
  by_cases format : formatChunk data pos
  · rw [if_pos ⟨of_decide_eq_true format.1, format.2⟩, bind_of_ok (loadFormat_inside (fields format) _),
      pure_run, taken, if_pos format]
    rfl
  · rw [if_neg fun chunk => format ⟨decide_eq_true chunk.1, chunk.2⟩]
    by_cases named : tag data pos "data" = true
    · rw [if_pos (of_decide_eq_true named), pure_run, taken, if_neg format, if_pos ⟨format, named⟩]
      rfl
    · rw [if_neg fun name => named (decide_eq_true name), pure_run, taken, if_neg format,
        if_neg fun chunk => named chunk.2]
      rfl

theorem probeRound_unread (representable : data.length < 2 ^ 32) (inside : pos + 8 ≤ data.length)
    (forward : pos ≤ nextAt data pos) (room : nextAt data pos ≤ data.length)
    (format : formatChunk data pos) (unread : data.length < pos + 24) :
    probeRound data (pos, walk) () = .error .undefined () := by
  have valid : ¬ ((pos + 8 + sizeAt data pos + sizeAt data pos % 2) % 2 ^ 32 < pos ∨
      (pos + 8 + sizeAt data pos + sizeAt data pos % 2) % 2 ^ 32 > data.length) :=
    not_or.mpr ⟨Nat.not_lt.mpr forward, Nat.not_lt.mpr room⟩
  rw [probeRound, if_pos (by omega), bind_of_ok (load_of (by omega) ()), load_size,
    bind_of_ok (stopIf_false valid _ ()), bind_of_ok (load_of (by omega) ()),
    if_pos ⟨of_decide_eq_true format.1, format.2⟩, bind_of_error (loadFormat_outside unread _)]

end whole

inductive Chain (data : Bytes) : Nat → Option Nat → Option Nat → Prop
  | start : Chain data 12 none none
  | chunk {pos : Nat} {f d : Option Nat} : Chain data pos f d → pos + 8 ≤ data.length →
      pos ≤ nextAt data pos → nextAt data pos ≤ data.length →
      Chain data (nextAt data pos) (if formatChunk data pos then some pos else f)
        (if dataChunk data pos then some pos else d)

structure Pcm16 (data : Bytes) (f d : Nat) : Prop where
  format : field16 data (f + 8) = 1
  channels : field16 data (f + 10) = 1 ∨ field16 data (f + 10) = 2
  bits : field16 data (f + 22) = 16
  frames : sizeAt data d % (field16 data (f + 10) * 2) = 0

/-- No chunk size leads a 32-bit position around: every chunk header stands below the last
eight positions, every chunk moves the walk, every format chunk holds its fields, and the data
chunk that is reported ends where its size says. -/
structure Walkable (data : Bytes) : Prop where
  header : ∀ pos f d, Chain data pos f d → pos + 8 < 2 ^ 32
  progress : ∀ pos f d, Chain data pos f d → pos + 8 ≤ data.length → nextAt data pos ≠ pos
  fields : ∀ pos f d, Chain data pos f d → pos + 8 ≤ data.length → pos ≤ nextAt data pos →
    nextAt data pos ≤ data.length → formatChunk data pos → pos + 24 ≤ data.length
  extent : ∀ pos f d, Chain data pos (some f) (some d) → data.length < pos + 8 →
    Pcm16 data f d → behind data d < 2 ^ 32

def walkOf (data : Bytes) (f d : Option Nat) : Walk where
  format := f.elim 0 fun pos => field16 data (pos + 8)
  channels := f.elim 0 fun pos => field16 data (pos + 10)
  bits := f.elim 0 fun pos => field16 data (pos + 22)
  dataOffset := d.elim 0 fun pos => pos + 8
  dataSize := d.elim 0 fun pos => sizeAt data pos

theorem taken_walkOf (data : Bytes) (pos : Nat) (f d : Option Nat) :
    taken data pos (walkOf data f d) =
      walkOf data (if formatChunk data pos then some pos else f)
        (if dataChunk data pos then some pos else d) := by
  unfold taken
  by_cases format : formatChunk data pos
  · rw [if_pos format, if_pos format, if_neg fun chunk => chunk.1 format]
    rfl
  · rw [if_neg format, if_neg format]
    split <;> rfl

theorem conclude_walkOf {data : Bytes} {f d : Option Nat} {info : WaveInfo}
    (concluded : conclude data (walkOf data f d) () = .ok info ()) :
    ∃ format content, f = some format ∧ d = some content ∧ Pcm16 data format content ∧
      info = { channels := field16 data (format + 10), dataOffset := content + 8
               dataSize := sizeAt data content } := by
  obtain ⟨valid, concluded⟩ := failIf_bind_ok.mp concluded
  obtain ⟨rfl, _⟩ := pure_ok.mp concluded
  simp only [not_or, not_and_or, not_not] at valid
  obtain ⟨format, channels, bits, offset, _, frames⟩ := valid
  cases f with
  | none => nomatch format
  | some f =>
    cases d with
    | none => exact absurd rfl offset
    | some d => exact ⟨f, d, rfl, rfl, ⟨format, channels, bits, frames⟩, rfl⟩

theorem conclude_of {data : Bytes} {f d : Nat} (pcm : Pcm16 data f d) (inside : d + 8 ≤ data.length) :
    conclude data (walkOf data (some f) (some d)) () =
      .ok { channels := field16 data (f + 10), dataOffset := d + 8, dataSize := sizeAt data d } () := by
  refine (bind_of_ok (stopIf_false ?_ _ _) _).trans rfl
  simp only [not_or, not_and_or, not_not]
  exact ⟨pcm.format, pcm.channels, pcm.bits, Nat.succ_ne_zero _, Nat.not_lt.mpr inside, pcm.frames⟩

theorem Chain.bounds {data : Bytes} {pos : Nat} {f d : Option Nat} (chain : Chain data pos f d)
    (long : 12 ≤ data.length) : 12 ≤ pos ∧ pos ≤ data.length := by
  induction chain with
  | start => exact ⟨Nat.le_refl _, long⟩
  | chunk _ _ forward room ih => exact ⟨ih.1.trans forward, room⟩

theorem Chain.content {data : Bytes} {pos e : Nat} {f d : Option Nat} (chain : Chain data pos f d)
    (long : 12 ≤ data.length) (found : d = some e) :
    12 ≤ e ∧ e + 8 ≤ data.length ∧ e ≤ nextAt data e ∧ nextAt data e ≤ data.length := by
  induction chain with
  | start => nomatch found
  | @chunk pos f d before inside forward room ih =>
    split at found
    next =>
      cases found
      exact ⟨(before.bounds long).1, inside, forward, room⟩
    next => exact ih found

theorem conclude_ensures (data : Bytes) (walk : Walk) : Ensures (conclude data walk) fun _ => True :=
  (Ensures.stopIf _ _).bind fun _ _ => Ensures.pure trivial

section ends

variable {data : Bytes} (representable : data.length < 2 ^ 32) (long : 12 ≤ data.length)
include representable long

theorem Walkable.ensures (walkable : Walkable data) :
    Ensures (rounds (probeRound data) (data.length + 2) (12, .start)) fun walk =>
      ∃ pos f d, Chain data pos f d ∧ data.length < pos + 8 ∧ walk = walkOf data f d := by
  apply Ensures.rounds (fun a => ∃ f d, Chain data a.1 f d ∧ a.2 = walkOf data f d)
    (fun a => data.length + 1 - a.1)
  case start => exact ⟨none, none, .start, rfl⟩
  case enough => omega
  case each =>
    rintro ⟨pos, _⟩ ⟨f, d, chain, rfl⟩ s
    have low := walkable.header pos f d chain
    have inBuffer := (chain.bounds long).2
    by_cases inside : pos + 8 ≤ data.length
    · by_cases refused : nextAt data pos < pos ∨ nextAt data pos > data.length
      · rw [probeRound_refused _ representable inside refused]
        trivial
      · rw [not_or, Nat.not_lt, Nat.not_lt] at refused
        have moved := walkable.progress pos f d chain inside
        rw [probeRound_chunk _ representable inside refused.1 refused.2
          (walkable.fields pos f d chain inside refused.1 refused.2)]
        refine ⟨⟨_, _, .chunk chain inside refused.1 refused.2, taken_walkOf data pos f d⟩, ?_⟩
        show data.length + 1 - nextAt data pos < data.length + 1 - pos
        omega
    · rw [probeRound_done _ (by rw [Nat.mod_eq_of_lt low]; omega)]
      exact ⟨pos, f, d, chain, Nat.not_le.mp inside, rfl⟩

omit long in
theorem Chain.ends {post : Walk → Prop}
    (ends : ∃ fuel, Ends post (rounds (probeRound data) fuel (12, .start) ()))
    {pos : Nat} {f d : Option Nat} (chain : Chain data pos f d) :
    ∃ fuel, Ends post (rounds (probeRound data) fuel (pos, walkOf data f d) ()) := by
  induction chain with
  | start => exact ends
  | @chunk pos f d _ inside forward room ih =>
    by_cases fields : formatChunk data pos → pos + 24 ≤ data.length
    · have step := probeRound_chunk (walkOf data f d) representable inside forward room fields
      rw [taken_walkOf] at step
      exact ends_next ih step
    · rw [Classical.not_imp, Nat.not_le] at fields
      exact absurd ih (not_ends_undefined
        (probeRound_unread _ representable inside forward room fields.1 fields.2))

theorem walkable_of_ends
    (ends : ∃ fuel, Ends (fun walk => Ends (fun info => info.dataOffset + info.dataSize ≤ data.length)
      (conclude data walk ())) (rounds (probeRound data) fuel (12, .start) ())) : Walkable data := by
  have header : ∀ pos f d, Chain data pos f d → pos + 8 < 2 ^ 32 := by
    intro pos f d chain
    by_contra high
    have inBuffer := (chain.bounds long).2
    exact not_ends_undefined (probeRound_wrapped _ (by omega) (by omega))
      (chain.ends representable ends)
  constructor
  case header => exact header
  case progress =>
    intro pos f d chain inside stuck
    refine not_ends_within (fun a => a.1 = pos) ?_ rfl (chain.ends representable ends)
    rintro ⟨at_, walk⟩ (rfl : at_ = pos)
    by_cases fields : formatChunk data at_ → at_ + 24 ≤ data.length
    · exact .inr ⟨_, stuck, probeRound_chunk walk representable inside (by omega) (by omega) fields⟩
    · rw [Classical.not_imp, Nat.not_le] at fields
      exact .inl (probeRound_unread walk representable inside (by omega) (by omega) fields.1 fields.2)
  case fields =>
    intro pos f d chain inside forward room format
    by_contra unread
    exact not_ends_undefined (probeRound_unread _ representable inside forward room format
      (Nat.not_le.mp unread)) (chain.ends representable ends)
  case extent =>
    intro pos f d chain beyond pcm
    obtain ⟨low, inside, forward, room⟩ := chain.content long rfl
    have done := ends_done (chain.ends representable ends)
      (probeRound_done _ (by rw [Nat.mod_eq_of_lt (header pos _ _ chain)]; exact beyond))
    rw [conclude_of pcm inside] at done
    have fits : d + 8 + sizeAt data d ≤ data.length := done
    -- the padding byte alone cannot lead behind the last position
    unfold nextAt behind at forward
    unfold behind
    omega

end ends

theorem probePcm16_safe {data : Bytes} (representable : data.length < 2 ^ 32) :
    (∃ fuel, Ensures (probePcm16 fuel data) fun info => info.dataOffset + info.dataSize ≤ data.length) ↔
      (headed data = true → Walkable data) := by
  constructor
  · rintro ⟨fuel, ensures⟩ header
    have long : 12 ≤ data.length := by
      simp only [headed, Bool.and_eq_true, decide_eq_true_eq] at header
      exact header.1.1
    refine walkable_of_ends representable long ⟨fuel, ?_⟩
    have outcome := ensures ()
    rw [probePcm16, bind_of_ok (stopIf_false (by rw [header]; decide) _ _)] at outcome
    exact ends_bind.mp outcome
  · intro walkable
    refine ⟨data.length + 2, ?_⟩
    refine (Ensures.stopIf (headed data = false) Error.format).bind fun _ header => ?_
    rw [Bool.not_eq_false] at header
    have long : 12 ≤ data.length := by
      simp only [headed, Bool.and_eq_true, decide_eq_true_eq] at header
      exact header.1.1
    refine ((walkable header).ensures representable long).bind ?_
    rintro _ ⟨pos, f, d, chain, beyond, rfl⟩
    refine Ensures.of_outcomes (fun s info s' run => ?_) fun s stop s' run => ?_
    · obtain ⟨format, content, rfl, rfl, pcm, rfl⟩ := conclude_walkOf run
      have extent := (walkable header).extent pos format content chain beyond pcm
      obtain ⟨_, _, _, room⟩ := chain.content long rfl
      rw [nextAt, Nat.mod_eq_of_lt extent] at room
      show content + 8 + sizeAt data content ≤ data.length
      unfold behind at room
      omega
    · exact (conclude_ensures data _).error run

/-- The chunks of a prefix up to its data chunk, as far as the prefix holds them. -/
inductive PrefixChain (data : Bytes) : Nat → Prop
  | start : PrefixChain data 12
  | chunk {pos : Nat} : PrefixChain data pos → pos + 8 ≤ data.length → ¬ dataChunk data pos →
      (formatChunk data pos → pos + 24 ≤ data.length) → behind data pos ≤ data.length →
      PrefixChain data (behind data pos)

theorem PrefixChain.low {data : Bytes} {pos : Nat} (chain : PrefixChain data pos)
    (long : 12 ≤ data.length) : pos ≤ data.length := by
  cases chain with
  | start => exact long
  | chunk _ _ _ _ room => exact room

theorem taken_format {data : Bytes} {pos : Nat} (format : formatChunk data pos) (walk : Walk) :
    taken data pos walk = { walk with
      format := field16 data (pos + 8)
      channels := field16 data (pos + 10)
      bits := field16 data (pos + 22) } := if_pos format

theorem taken_dataOffset {data : Bytes} {pos : Nat} (other : ¬ dataChunk data pos) (walk : Walk) :
    (taken data pos walk).dataOffset = walk.dataOffset := by
  by_cases format : formatChunk data pos <;> simp [taken, format, other]

section prefixes

variable {data : Bytes} {fileSize pos : Nat} (walk : Walk)

theorem prefixRound_done (beyond : data.length < (pos + 8) % 2 ^ 32) :
    prefixRound data fileSize (pos, walk) () = .ok (.inr walk) () := by
  rw [prefixRound, if_neg (by omega), pure_run]

theorem prefixRound_wrapped (guard : (pos + 8) % 2 ^ 32 ≤ data.length) (wrapped : data.length < pos + 8) :
    prefixRound data fileSize (pos, walk) () = .error .undefined () := by
  rw [prefixRound, if_pos guard, bind_of_error (load_outside (by omega) ())]

variable (representable : data.length < 2 ^ 32) (inside : pos + 8 ≤ data.length)
include representable inside

theorem prefixRound_refused (refused : fileSize < behind data pos) :
    prefixRound data fileSize (pos, walk) () = .error (.error .format) () := by
  have stops : pos + 8 + sizeAt data pos + sizeAt data pos % 2 < pos ∨
      pos + 8 + sizeAt data pos + sizeAt data pos % 2 > fileSize := .inr refused
  rw [prefixRound, if_pos (by omega), bind_of_ok (load_of (by omega) ()), load_size,
    bind_of_error (stopIf_true stops _ ())]

theorem prefixRound_chunk (room : behind data pos ≤ fileSize) (other : ¬ dataChunk data pos)
    (fields : formatChunk data pos → pos + 24 ≤ data.length) :
    prefixRound data fileSize (pos, walk) () =
      .ok (if behind data pos > data.length then .inr (taken data pos walk)
        else .inl (behind data pos, taken data pos walk)) () := by
  have valid : ¬ (pos + 8 + sizeAt data pos + sizeAt data pos % 2 < pos ∨
      pos + 8 + sizeAt data pos + sizeAt data pos % 2 > fileSize) :=
    not_or.mpr ⟨by omega, Nat.not_lt.mpr room⟩
  rw [prefixRound, if_pos (by omega), bind_of_ok (load_of (by omega) ()), load_size,
    bind_of_ok (stopIf_false valid _ ()), bind_of_ok (load_of (by omega) ())]
  by_cases format : formatChunk data pos
  · rw [if_pos ⟨of_decide_eq_true format.1, format.2⟩,
      bind_of_ok (stopIf_false (Nat.not_lt.mpr (fields format)) _ ()),
      bind_of_ok (loadFormat_inside (fields format) _), taken_format format]
    unfold behind
    split <;> rfl
  · have unnamed : ¬ (data.drop pos).take 4 = ascii "data".toList :=
      fun name => other ⟨format, decide_eq_true name⟩
    rw [if_neg fun chunk => format ⟨decide_eq_true chunk.1, chunk.2⟩, if_neg unnamed, taken,
      if_neg format, if_neg other]
    unfold behind
    split <;> rfl

theorem prefixRound_unread (room : behind data pos ≤ fileSize) (format : formatChunk data pos)
    (unread : data.length < pos + 24) :
    prefixRound data fileSize (pos, walk) () = .error (.error .format) () := by
  have valid : ¬ (pos + 8 + sizeAt data pos + sizeAt data pos % 2 < pos ∨
      pos + 8 + sizeAt data pos + sizeAt data pos % 2 > fileSize) :=
    not_or.mpr ⟨by omega, Nat.not_lt.mpr room⟩
  rw [prefixRound, if_pos (by omega), bind_of_ok (load_of (by omega) ()), load_size,
    bind_of_ok (stopIf_false valid _ ()), bind_of_ok (load_of (by omega) ()),
    if_pos ⟨of_decide_eq_true format.1, format.2⟩, bind_of_error (stopIf_true unread _ ())]

theorem prefixRound_data (room : behind data pos ≤ fileSize) (content : dataChunk data pos) :
    prefixRound data fileSize (pos, walk) () =
      .ok (.inr { walk with dataOffset := pos + 8, dataSize := sizeAt data pos }) () := by
  have valid : ¬ (pos + 8 + sizeAt data pos + sizeAt data pos % 2 < pos ∨
      pos + 8 + sizeAt data pos + sizeAt data pos % 2 > fileSize) :=
    not_or.mpr ⟨by omega, Nat.not_lt.mpr room⟩
  have small : (pos + 8) % 2 ^ 32 = pos + 8 := by omega
  have fits : ¬ (pos + 8 + sizeAt data pos > fileSize) := by
    unfold behind at room
    omega
  rw [prefixRound, if_pos (by omega), bind_of_ok (load_of (by omega) ()), load_size,
    bind_of_ok (stopIf_false valid _ ()), bind_of_ok (load_of (by omega) ()),
    if_neg fun chunk => content.1 ⟨decide_eq_true chunk.1, chunk.2⟩,
    if_pos (of_decide_eq_true content.2), small, bind_of_ok (stopIf_false fits _ ()), pure_run]

end prefixes

section ends

variable {data : Bytes} {fileSize : Nat} (representable : data.length < 2 ^ 32)
include representable

theorem prefix_ensures (long : 12 ≤ data.length) (low : ∀ pos, PrefixChain data pos → pos + 8 < 2 ^ 32) :
    Ensures (rounds (prefixRound data fileSize) (data.length + 2) (12, .start)) fun walk =>
      walk.dataOffset = 0 ∨ walk.dataOffset + walk.dataSize ≤ fileSize := by
  apply Ensures.rounds (fun a => PrefixChain data a.1 ∧ a.2.dataOffset = 0)
    (fun a => data.length + 1 - a.1)
  case start => exact ⟨.start, rfl⟩
  case enough => omega
  case each =>
    rintro ⟨pos, walk⟩ ⟨chain, unset⟩ s
    have below := low pos chain
    by_cases inside : pos + 8 ≤ data.length
    · by_cases room : behind data pos ≤ fileSize
      · by_cases content : dataChunk data pos
        · rw [prefixRound_data walk representable inside room content]
          refine .inr ?_
          show pos + 8 + sizeAt data pos ≤ fileSize
          unfold behind at room
          omega
        · by_cases fields : formatChunk data pos → pos + 24 ≤ data.length
          · have kept := (taken_dataOffset content walk).trans unset
            rw [prefixRound_chunk walk representable inside room content fields]
            split
            next => exact .inl kept
            next stop =>
              refine ⟨⟨.chunk chain inside content fields (Nat.not_lt.mp stop), kept⟩, ?_⟩
              show data.length + 1 - behind data pos < data.length + 1 - pos
              unfold behind
              omega
          · rw [Classical.not_imp, Nat.not_le] at fields
            rw [prefixRound_unread walk representable inside room fields.1 fields.2]
            trivial
      · rw [prefixRound_refused walk representable inside (Nat.not_le.mp room)]
        trivial
    · rw [prefixRound_done walk (by rw [Nat.mod_eq_of_lt below]; omega)]
      exact .inl unset

theorem PrefixChain.ends {post : Walk → Prop} (whole : data.length ≤ fileSize)
    (ends : ∃ fuel, Ends post (rounds (prefixRound data fileSize) fuel (12, .start) ()))
    {pos : Nat} (chain : PrefixChain data pos) :
    ∃ walk fuel, Ends post (rounds (prefixRound data fileSize) fuel (pos, walk) ()) := by
  induction chain with
  | start => exact ⟨.start, ends⟩
  | chunk _ inside other fields room ih =>
    obtain ⟨walk, ends⟩ := ih
    have step := prefixRound_chunk walk representable inside (room.trans whole) other fields
    rw [if_neg (Nat.not_lt.mpr room)] at step
    exact ⟨_, ends_next ends step⟩

end ends

theorem probePrefix_safe {data : Bytes} (representable : data.length < 2 ^ 32) (fileSize : Nat) :
    (∃ fuel, Ensures (probePrefix fuel data fileSize) fun info =>
      info.dataOffset ≤ data.length ∧ info.dataOffset + info.dataSize ≤ fileSize) ↔
    (headed data = true → data.length ≤ fileSize → ∀ pos, PrefixChain data pos → pos + 8 < 2 ^ 32) := by
  have header_long : headed data = true → 12 ≤ data.length := by
    intro header
    simp only [headed, Bool.and_eq_true, decide_eq_true_eq] at header
    exact header.1.1
  constructor
  · rintro ⟨fuel, ensures⟩ header whole pos chain
    by_contra high
    have low := chain.low (header_long header)
    have long := header_long header
    have outcome := ensures ()
    rw [probePrefix, bind_of_ok (stopIf_false (by rw [header]; simpa using whole) _ _)] at outcome
    obtain ⟨walk, ends⟩ := chain.ends representable whole ⟨fuel, ends_bind.mp outcome⟩
    exact not_ends_undefined (prefixRound_wrapped walk (by omega) (by omega)) ends
  · intro low
    refine ⟨data.length + 2, ?_⟩
    refine (Ensures.stopIf (headed data = false ∨ fileSize < data.length) Error.format).bind
      fun _ valid => ?_
    rw [not_or, Bool.not_eq_false, Nat.not_lt] at valid
    obtain ⟨header, whole⟩ := valid
    refine (prefix_ensures representable (header_long header) (low header whole)).bind
      fun walk reported => ?_
    refine (Ensures.stopIf _ Error.format).bind fun _ valid => Ensures.pure ?_
    simp only [not_or, Nat.not_lt] at valid
    exact ⟨valid.2.2.2.2.1, reported.resolve_left valid.2.2.2.1⟩

theorem rounds_walkChunks {data : Bytes} {fileSize : Nat} (ordinary : data.length + 8 < 2 ^ 32)
    {fuel pos : Nat} (walk : Walk) (low : pos ≤ data.length) (enough : data.length < pos + fuel) :
    rounds (prefixRound data fileSize) fuel (pos, walk) () =
      match walkChunks data fileSize fuel pos walk with
      | some walk => .ok walk ()
      | none => .error (.error .format) () := by
  have representable : data.length < 2 ^ 32 := by omega
  induction fuel generalizing pos walk with
  | zero => omega
  | succ fuel ih =>
    rw [walkChunks]
    by_cases inside : pos + 8 ≤ data.length
    · have size : (le32.decode (data.drop (pos + 4))).toNat = sizeAt data pos := rfl
      have skip : ¬ formatChunk data pos → ¬ (tag data pos "fmt " = true ∧ sizeAt data pos ≥ 16) := id
      have read : formatChunk data pos → tag data pos "fmt " = true ∧ sizeAt data pos ≥ 16 := id
      rw [if_neg (Nat.not_lt.mpr inside), size]
      simp only
      by_cases room : behind data pos ≤ fileSize
      · rw [if_neg (show ¬ pos + 8 + sizeAt data pos + sizeAt data pos % 2 > fileSize from
          Nat.not_lt.mpr room)]
        by_cases content : dataChunk data pos
        · have fits : ¬ pos + 8 + sizeAt data pos > fileSize := by
            unfold behind at room
            omega
          rw [rounds_done (prefixRound_data walk representable inside room content),
            if_neg (skip content.1), if_pos content.2, if_neg fits]
        · have rest := prefixRound_chunk walk representable inside room content
          have step : ∀ w, (formatChunk data pos → pos + 24 ≤ data.length) →
              taken data pos walk = w →
              rounds (prefixRound data fileSize) (fuel + 1) (pos, walk) () =
                match (if pos + 8 + sizeAt data pos + sizeAt data pos % 2 > data.length then some w
                  else walkChunks data fileSize fuel (pos + 8 + sizeAt data pos + sizeAt data pos % 2) w) with
                | some walk => .ok walk ()
                | none => .error (.error .format) () := by
            rintro w fields rfl
            have run := rest fields
            by_cases stop : behind data pos > data.length
            · rw [if_pos stop] at run
              rw [rounds_done run, if_pos (by exact stop)]
            · rw [if_neg stop] at run
              rw [rounds_next run, if_neg (by exact stop)]
              refine ih _ (Nat.not_lt.mp stop) ?_
              unfold behind
              omega
          by_cases format : formatChunk data pos
          · by_cases fields : pos + 24 ≤ data.length
            · rw [if_pos (read format), if_neg (Nat.not_lt.mpr fields)]
              exact step _ (fun _ => fields) (taken_format format walk)
            · rw [rounds_error (prefixRound_unread walk representable inside room format
                (Nat.not_le.mp fields)), if_pos (read format), if_pos (Nat.not_le.mp fields)]
          · rw [if_neg (skip format), if_neg fun name => content ⟨format, name⟩]
            refine step _ (fun format' => absurd format' format) ?_
            rw [taken, if_neg format, if_neg content]
      · rw [rounds_error (prefixRound_refused walk representable inside (Nat.not_le.mp room)),
          if_pos (show pos + 8 + sizeAt data pos + sizeAt data pos % 2 > fileSize from
            Nat.not_le.mp room)]
    · rw [rounds_done (prefixRound_done walk (by rw [Nat.mod_eq_of_lt (by omega)]; omega)),
        if_pos (Nat.not_le.mp inside)]

theorem probePrefix_eq {data : Bytes} (ordinary : data.length + 8 < 2 ^ 32) (fileSize : Nat) :
    probePrefix data.length data fileSize () =
      match probePcm16Prefix data fileSize with
      | some info => .ok info ()
      | none => .error (.error .format) () := by
  unfold probePrefix probePcm16Prefix
  by_cases header : headed data = true ∧ data.length ≤ fileSize
  · have valid : ¬ (headed data = false ∨ fileSize < data.length) := by
      rw [header.1]
      simpa using header.2
    have same : ¬ (data.length < 12 ∨ fileSize < data.length ∨ ¬ tag data 0 "RIFF" = true ∨
        ¬ tag data 8 "WAVE" = true) := by
      have parts := header.1
      simp only [headed, Bool.and_eq_true, decide_eq_true_eq] at parts
      simp only [not_or, not_not, Nat.not_lt]
      exact ⟨parts.1.1, header.2, parts.1.2, parts.2⟩
    have long : 12 ≤ data.length := Nat.not_lt.mp (not_or.mp same).1
    rw [bind_of_ok (stopIf_false valid _ ()), if_neg same, bind_run,
      rounds_walkChunks ordinary .start long (by omega)]
    rw [show ({ format := 0, channels := 0, bits := 0, dataOffset := 0, dataSize := 0 } : Walk) =
      .start from rfl]
    cases walkChunks data fileSize data.length 12 .start with
    | none => rfl
    | some walk =>
      simp only [conclude]
      by_cases rejected : walk.format ≠ 1 ∨ (walk.channels ≠ 1 ∧ walk.channels ≠ 2) ∨ walk.bits ≠ 16 ∨
          walk.dataOffset = 0 ∨ walk.dataOffset > data.length ∨
          walk.dataSize % (walk.channels * 2) ≠ 0
      · rw [bind_of_error (stopIf_true rejected _ ()), if_pos rejected]
      · rw [bind_of_ok (stopIf_false rejected _ ()), if_neg rejected]
        rfl
  · have refused : headed data = false ∨ fileSize < data.length := by
      rw [not_and_or, Bool.not_eq_true, Nat.not_le] at header
      exact header
    have same : data.length < 12 ∨ fileSize < data.length ∨ ¬ tag data 0 "RIFF" = true ∨
        ¬ tag data 8 "WAVE" = true := by
      simp only [headed, Bool.and_eq_false_iff, decide_eq_false_iff_not, Nat.not_le] at refused
      simp only [Bool.not_eq_true]
      tauto
    rw [bind_of_error (stopIf_true refused _ ()), if_pos same]

-- Both walks, for every buffer: when they end, stay inside and report a range that fits.
theorem probes_exact {data : Bytes} (representable : data.length < 2 ^ 32) :
    ((∃ fuel, Ensures (probePcm16 fuel data) fun info =>
        info.dataOffset + info.dataSize ≤ data.length) ↔ (headed data = true → Walkable data)) ∧
    ∀ fileSize, (∃ fuel, Ensures (probePrefix fuel data fileSize) fun info =>
        info.dataOffset ≤ data.length ∧ info.dataOffset + info.dataSize ≤ fileSize) ↔
      (headed data = true → data.length ≤ fileSize →
        ∀ pos, PrefixChain data pos → pos + 8 < 2 ^ 32) :=
  ⟨probePcm16_safe representable, probePrefix_safe representable⟩

-- one chunk whose size leads a 32-bit position back to the chunk itself
def circling : Bytes :=
  ascii "RIFF".toList ++ [12, 0, 0, 0] ++ ascii "WAVE".toList ++ ascii "JUNK".toList ++
    [0xF8, 0xFF, 0xFF, 0xFF]

theorem probes_exact_circling :
    ¬ (∃ fuel, Ensures (probePcm16 fuel circling) fun info =>
        info.dataOffset + info.dataSize ≤ circling.length) ∧
      ∃ fuel, Ensures (probePcm16 fuel []) fun info => info.dataOffset + info.dataSize ≤ 0 :=
  ⟨fun ends => ((probes_exact (show circling.length < 2 ^ 32 by decide)).1.mp ends
      (by decide)).progress 12 none none .start (by decide) (by decide),
    (probes_exact (show ([] : Bytes).length < 2 ^ 32 by decide)).1.mpr fun header => nomatch header⟩

theorem probePcm16_circles : ¬ ∀ data : Bytes, data.length < 2 ^ 32 →
    ∃ fuel, Ensures (probePcm16 fuel data) fun info => info.dataOffset + info.dataSize ≤ data.length := by
  intro safe
  have walkable := (probePcm16_safe (by decide)).mp (safe circling (by decide)) (by decide)
  exact walkable.progress 12 none none .start (by decide) (by decide)

end Wave

end LibMpq
