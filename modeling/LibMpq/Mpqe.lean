import LibMpq.Base.Disk
import LibMpq.Base.Keystream
import LibMpq.Reader
import Mathlib.Logic.Function.Basic

set_option autoImplicit false

namespace LibMpq

open Effect

namespace Mpqe

abbrev chunkSize : Nat := 64

def rol32 (value count : UInt32) : UInt32 := (value <<< count) ||| (value >>> (32 - count))

-- The key words; two of them are replaced by the number of the chunk.
def keyMirror (key : Bytes) (chunkNumber : Nat) (i : Nat) : UInt32 :=
  if i = 5 then UInt32.ofNat (chunkNumber >>> 32)
  else if i = 8 then UInt32.ofNat chunkNumber
  else Crypto.loadLe32 (key.drop (4 * i))

-- Where each key word goes before the rounds.
def places : List Nat := [14, 12, 5, 15, 10, 7, 11, 9, 3, 6, 8, 13, 2, 4, 1, 0]

def placed (mirror : Nat → UInt32) : Nat → UInt32 :=
  places.zipIdx.foldl (fun words (place, i) => Function.update words place (mirror i)) fun _ => 0

structure Mix where
  target : Nat
  first : Nat
  second : Nat
  count : UInt32

def Mix.apply (words : Nat → UInt32) (m : Mix) : Nat → UInt32 :=
  Function.update words m.target (words m.target ^^^ rol32 (words m.first + words m.second) m.count)

def doubleRound : List Mix :=
  [⟨10, 14, 2, 7⟩, ⟨3, 10, 14, 9⟩, ⟨2, 3, 10, 13⟩, ⟨14, 2, 3, 18⟩,
    ⟨7, 12, 4, 7⟩, ⟨6, 7, 12, 9⟩, ⟨4, 6, 7, 13⟩, ⟨12, 4, 6, 18⟩,
    ⟨11, 5, 1, 7⟩, ⟨8, 11, 5, 9⟩, ⟨1, 8, 11, 13⟩, ⟨5, 1, 8, 18⟩,
    ⟨9, 15, 0, 7⟩, ⟨13, 9, 15, 9⟩, ⟨0, 13, 9, 13⟩, ⟨15, 0, 13, 18⟩,
    ⟨4, 14, 9, 7⟩, ⟨8, 4, 14, 9⟩, ⟨9, 8, 4, 13⟩, ⟨14, 9, 8, 18⟩,
    ⟨1, 12, 10, 7⟩, ⟨13, 1, 12, 9⟩, ⟨10, 13, 1, 13⟩, ⟨12, 10, 13, 18⟩,
    ⟨0, 5, 7, 7⟩, ⟨3, 0, 5, 9⟩, ⟨7, 3, 0, 13⟩, ⟨5, 7, 3, 18⟩,
    ⟨2, 15, 11, 7⟩, ⟨6, 2, 15, 9⟩, ⟨11, 6, 2, 13⟩, ⟨15, 11, 6, 18⟩]

def shuffled (mirror : Nat → UInt32) : Nat → UInt32 :=
  (List.replicate 10 doubleRound).flatten.foldl Mix.apply (placed mirror)

-- Which shuffled word and which key word are added to give the pad of each word of the chunk.
def pairs : List (Nat × Nat) :=
  [(14, 0), (4, 13), (8, 10), (9, 7), (10, 4), (12, 1), (1, 14), (13, 11), (3, 8), (7, 5), (5, 2),
    (0, 15), (2, 12), (6, 9), (11, 6), (15, 3)]

def padWord (key : Bytes) (chunkNumber i : Nat) : UInt32 :=
  let mirror := keyMirror key chunkNumber
  let (word, keyWord) := pairs.getD i (0, 0)
  shuffled mirror word + mirror keyWord

-- `libmpq__mpqe_transform_chunk`
def transformChunk (chunk key : Bytes) (offset : Nat) : Bytes :=
  (List.range 16).flatMap fun i =>
    Crypto.storeLe32 (Crypto.loadLe32 (chunk.drop (4 * i)) ^^^ padWord key (offset / chunkSize) i)

/-- The two open files of a transform, and the error mark of the first. -/
structure Pipe where
  input : Disk
  output : Disk
  failed : Bool

def onInput {α : Type} (x : Op Error Disk α) : Op Error Pipe α :=
  zoom (·.input) (fun input p => { p with input }) x

def onOutput {α : Type} (x : Op Error Disk α) : Op Error Pipe α :=
  zoom (·.output) (fun output p => { p with output }) x

-- One `fread` of a chunk: short at the end of the file or after an error.
def readChunk : Op Error Pipe Bytes := do
  let p ← get
  let data := p.input.file.read p.input.pos chunkSize
  let got := match p.input.plan 0 with
    | none => data
    | some k => data.take k
  set
    { p with
      input := { p.input with pos := p.input.pos + got.length, plan := p.input.plan.rest }
      failed := p.failed || (p.input.plan 0).isSome }
  pure got

def padded (data : Bytes) : Bytes := data ++ Bytes.zeros (chunkSize - data.length)

def transformChunks (key : Bytes) : Nat → Nat → Op Error Pipe Unit
  | 0, _ => pure ()
  | fuel + 1, offset => do
    let got ← readChunk
    if got = [] then pure ()
    else do
      onOutput (Disk.write .write ((transformChunk (padded got) key offset).take got.length))
      transformChunks key fuel (offset + got.length)

-- `libmpq__writer_mpqe_transform_file`
def transformFile (key : Bytes) : Op Error Pipe Unit := do
  onInput (Disk.sync .write)
  onInput (Disk.seek .seek 0)
  transformChunks key ((← get).input.file.size + 1) 0
  failIf (← get).failed .write
  onOutput (Disk.sync .write)

abbrev readBufferSize : Nat := 64 * chunkSize

-- Rounding with the mask `~63` on both sides.
def roundDown (n : Nat) : Nat := n / chunkSize * chunkSize

def roundUp (n : Nat) : Nat := roundDown (n + (chunkSize - 1))

def decrypt (key : Bytes) (chunkOffset size : Nat) (buffer : Bytes) : Bytes :=
  (List.range (size / chunkSize)).flatMap (fun i =>
    transformChunk (Bytes.piece chunkSize buffer i) key (chunkOffset + i * chunkSize)) ++
    buffer.drop size

-- `source_mpqe_read_at` from the batch that starts after `copied` bytes of the request
def readBatches (source : File) (key : Bytes) (offset size : Nat) : Nat → Nat → Op Error Faults Bytes
  | 0, _ => pure []
  | fuel + 1, copied =>
    if copied < size then do
      let requestOffset := offset + copied
      let chunkOffset := roundDown requestOffset
      let remaining := source.size - chunkOffset
      let required := offset + size - chunkOffset
      failIf (required > 2 ^ 64 - 1 - (chunkSize - 1)) .size
      let physical := min remaining (min (roundUp required) readBufferSize)
      let batchStart := requestOffset - chunkOffset
      failIf (chunkOffset ≥ source.size ∨ physical ≤ batchStart) .read
      let stored ← Reading.sourceReadAt source chunkOffset physical
      let chunks := decrypt key chunkOffset (roundUp physical)
        (stored ++ Bytes.zeros (readBufferSize - physical))
      let available := min (physical - batchStart) (size - copied)
      let rest ← readBatches source key offset size fuel (copied + available)
      pure ((chunks.drop batchStart).take available ++ rest)
    else pure []

-- `libmpq__source_read_at` on an encrypted source
def sourceReadAt (source : File) (key : Bytes) (offset size : Nat) : Op Error Faults Bytes := do
  failIf (offset > source.size ∨ size > source.size - offset) .read
  if size = 0 then pure [] else readBatches source key offset size (size + 1) 0

def pad (key : Bytes) (p : Nat) : UInt8 :=
  (Crypto.storeLe32 (padWord key (p / chunkSize) (p % chunkSize / 4))).getD (p % 4) 0

theorem storeLe32_xor {b : Bytes} (enough : 4 ≤ b.length) (word : UInt32) :
    Crypto.storeLe32 (Crypto.loadLe32 b ^^^ word) =
      List.zipWith (· ^^^ ·) (b.take 4) (Crypto.storeLe32 word) := by
  have front : (b.take 4).length = 4 := List.length_take_of_le enough
  have bound : Bytes.toNat (b.take 4) < 2 ^ 32 := by
    have := Bytes.toNat_lt (b.take 4)
    rwa [front] at this
  have loaded : (Crypto.loadLe32 b).toNat = Bytes.toNat (b.take 4) := UInt32.toNat_ofNat_of_lt' bound
  have back := Bytes.ofNat_toNat (b.take 4)
  rw [front] at back
  rw [Crypto.storeLe32, UInt32.toNat_xor, loaded, Keystream.ofNat_xor, back, Crypto.storeLe32]

theorem transformWords_eq {chunk key : Bytes} {offset : Nat} (aligned : offset % chunkSize = 0)
    (count : Nat) (words : count ≤ 16) (enough : 4 * count ≤ chunk.length) :
    ((List.range count).flatMap fun i =>
      Crypto.storeLe32 (Crypto.loadLe32 (chunk.drop (4 * i)) ^^^ padWord key (offset / chunkSize) i)) =
        Keystream.mask (pad key) offset (chunk.take (4 * count)) := by
  induction count with
  | zero => rfl
  | succ count ih =>
    have whole : (chunk.take (4 * count)).length = 4 * count := List.length_take_of_le (by omega)
    have piece : ((chunk.drop (4 * count)).take 4).length = 4 := by
      rw [List.length_take, List.length_drop]
      omega
    have last : List.zipWith (· ^^^ ·) ((chunk.drop (4 * count)).take 4)
        (Crypto.storeLe32 (padWord key (offset / chunkSize) count)) =
          Keystream.mask (pad key) (offset + 4 * count) ((chunk.drop (4 * count)).take 4) := by
      refine (Keystream.mask_eq_zipWith ?_ fun i inside => ?_).symm
      · rw [piece, Crypto.storeLe32_length]
      · rw [Crypto.storeLe32_length] at inside
        simp only [chunkSize] at aligned
        have number : (offset + 4 * count + i) / 64 = offset / 64 := by omega
        have word : (offset + 4 * count + i) % 64 / 4 = count := by omega
        have byte : (offset + 4 * count + i) % 4 = i := by omega
        rw [pad, number, word, byte]
    rw [List.range_succ, List.flatMap_append, ih (by omega) (by omega), List.flatMap_singleton,
      storeLe32_xor (by rw [List.length_drop]; omega), last, Nat.mul_succ, List.take_add,
      Keystream.mask_append, whole]

theorem transformChunk_eq {chunk key : Bytes} {offset : Nat} (whole : chunk.length = chunkSize)
    (aligned : offset % chunkSize = 0) :
    transformChunk chunk key offset = Keystream.mask (pad key) offset chunk := by
  have words := @transformWords_eq chunk key offset aligned 16 le_rfl whole.ge
  rw [List.take_of_length_le whole.le] at words
  exact words

theorem transformChunk_padded {data key : Bytes} {offset : Nat} (short : data.length ≤ chunkSize)
    (aligned : offset % chunkSize = 0) :
    (transformChunk (padded data) key offset).take data.length =
      Keystream.mask (pad key) offset data := by
  have whole : (padded data).length = chunkSize := by
    rw [padded, List.length_append, Bytes.zeros_length]
    omega
  rw [transformChunk_eq whole aligned, Keystream.mask_take, padded, List.take_left]

def piped (key plain : Bytes) (n : Nat) : Pipe where
  input := { file := File.ofBytes plain, pos := n, plan := Faults.healthy }
  output :=
    { file := File.ofBytes (Keystream.mask (pad key) 0 (plain.take n)), pos := n,
      plan := Faults.healthy }
  failed := false

/-- The transform of an open file into a new one, before it starts. -/
def intoEmpty (input : Disk) : Pipe where
  input
  output := { file := File.empty, pos := 0, plan := Faults.healthy }
  failed := false

def fresh (plain : Bytes) (pos : Nat) : Pipe :=
  intoEmpty { file := File.ofBytes plain, pos, plan := Faults.healthy }

def moveInput (pos : Nat) (p : Pipe) : Pipe := { p with input := { p.input with pos } }

theorem fresh_piped (key plain : Bytes) (pos : Nat) : moveInput 0 (fresh plain pos) = piped key plain 0 := by
  rw [moveInput, fresh, intoEmpty, piped, File.empty_eq_ofBytes]
  rfl

theorem readChunk_piped (key plain : Bytes) (n : Nat) :
    readChunk (piped key plain n) = .ok ((plain.drop n).take chunkSize)
      (moveInput (n + ((plain.drop n).take chunkSize).length) (piped key plain n)) := by
  have read : (File.ofBytes plain).read n chunkSize = (plain.drop n).take chunkSize :=
    File.read_ofBytes plain n chunkSize
  simp only [readChunk, bind_run, get_run, set_run, piped, Faults.healthy_next, read]
  rfl

theorem transformChunks_piped {key plain : Bytes} {fuel n : Nat} (inside : n ≤ plain.length)
    (aligned : n % chunkSize = 0 ∨ n = plain.length) (enough : plain.length - n < fuel) :
    transformChunks key fuel n (piped key plain n) = .ok () (piped key plain plain.length) := by
  induction fuel generalizing n with
  | zero => omega
  | succ fuel ih =>
    have length : ((plain.drop n).take chunkSize).length = min chunkSize (plain.length - n) := by
      rw [List.length_take, List.length_drop]
    rw [transformChunks, bind_of_ok (readChunk_piped key plain n)]
    generalize chunk : (plain.drop n).take chunkSize = got at length
    split
    next none =>
      have last : n = plain.length := by
        rw [none, List.length_nil] at length
        simp only [chunkSize] at length
        omega
      subst last
      rw [none]
      rfl
    next some =>
      have more : 0 < got.length := List.length_pos_iff.mpr some
      have whole : n % chunkSize = 0 := by
        refine aligned.resolve_right fun last => ?_
        rw [last, Nat.sub_self] at length
        omega
      have next : n + got.length ≤ plain.length := by omega
      have front : plain.take (n + got.length) = plain.take n ++ got := by
        rw [List.take_add, ← chunk, List.length_take, List.length_drop]
        congr 1
        rw [List.take_eq_take_iff, List.length_drop]
        omega
      have stored : (transformChunk (padded got) key n).take got.length =
          Keystream.mask (pad key) n got :=
        transformChunk_padded (by simp only [chunkSize] at length ⊢; omega) whole
      have start : (Keystream.mask (pad key) 0 (plain.take n)).length = n := by
        rw [Keystream.mask_length, List.length_take_of_le inside]
      have written : onOutput (Disk.write .write (Keystream.mask (pad key) n got))
          (moveInput (n + got.length) (piped key plain n)) =
            .ok () (piped key plain (n + got.length)) := by
        have calm : (piped key plain n).output.Calm := rfl
        have appended := File.write_ofBytes (Keystream.mask (pad key) 0 (plain.take n))
          (Keystream.mask (pad key) n got)
        rw [start] at appended
        have masked : Keystream.mask (pad key) 0 (plain.take (n + got.length)) =
            Keystream.mask (pad key) 0 (plain.take n) ++ Keystream.mask (pad key) n got := by
          rw [front, Keystream.mask_append, List.length_take_of_le inside, Nat.zero_add]
        have run := Disk.write_calm calm Error.write (Keystream.mask (pad key) n got)
        simp only [onOutput, zoom, moveInput, run]
        simp only [Disk.put, piped, appended, masked, Keystream.mask_length]
      rw [stored, bind_of_ok written]
      refine ih next ?_ (by omega)
      simp only [chunkSize] at length whole ⊢
      omega

theorem transformFile_run (key plain : Bytes) (pos : Nat) :
    transformFile key (fresh plain pos) = .ok () (piped key plain plain.length) := by
  have calm : (fresh plain pos).input.Calm := rfl
  have synced : onInput (Disk.sync .write) (fresh plain pos) = .ok () (fresh plain pos) := by
    simp only [onInput, zoom, Disk.sync_calm calm]
  have sought : onInput (Disk.seek .seek 0) (fresh plain pos) = .ok () (piped key plain 0) := by
    rw [← fresh_piped key plain pos]
    simp only [onInput, zoom, Disk.seek_calm calm]
    rfl
  have run := @transformChunks_piped key plain (plain.length + 1) 0 (Nat.zero_le _) (.inl rfl) (by omega)
  have done : (piped key plain plain.length).output.Calm := rfl
  have fine : ¬ (piped key plain plain.length).failed = true := Bool.false_ne_true
  unfold transformFile
  rw [bind_of_ok synced, bind_of_ok sought, bind_of_ok (get_run _)]
  change (transformChunks key (plain.length + 1) 0 >>= _) (piped key plain 0) = _
  rw [bind_of_ok run, bind_of_ok (get_run _), bind_of_ok (failIf_false fine _ _)]
  simp only [onOutput, zoom, Disk.sync_calm done]

theorem decrypt_eq {key buffer : Bytes} {chunkOffset size : Nat} (aligned : chunkOffset % chunkSize = 0)
    (whole : size % chunkSize = 0) (inside : size ≤ buffer.length) :
    decrypt key chunkOffset size buffer =
      Keystream.mask (pad key) chunkOffset (buffer.take size) ++ buffer.drop size := by
  have pieces : ∀ count, count * chunkSize ≤ buffer.length →
      ((List.range count).flatMap fun i =>
        transformChunk (Bytes.piece chunkSize buffer i) key (chunkOffset + i * chunkSize)) =
          Keystream.mask (pad key) chunkOffset (buffer.take (count * chunkSize)) := by
    intro count enough
    induction count with
    | zero =>
      rw [Nat.zero_mul]
      rfl
    | succ count ih =>
      simp only [chunkSize] at enough aligned ih ⊢
      have full : (Bytes.piece 64 buffer count).length = 64 := by
        rw [Bytes.piece_length]
        omega
      have last := @transformChunk_eq _ key (chunkOffset + count * 64) full
        (by simp only [chunkSize]; omega)
      rw [List.range_succ, List.flatMap_append, ih (by omega), List.flatMap_singleton, last,
        ← Bytes.take_append_piece, Keystream.mask_append, List.length_take_of_le (by omega)]
  have size' : size / chunkSize * chunkSize = size := Nat.div_mul_cancel (Nat.dvd_of_mod_eq_zero whole)
  rw [decrypt, pieces _ (by omega), size']

theorem decrypt_take {key plain : Bytes} {chunkOffset physical count : Nat}
    (aligned : chunkOffset % chunkSize = 0) (stored : chunkOffset + physical ≤ plain.length)
    (small : physical ≤ readBufferSize) (inside : count ≤ physical) :
    (decrypt key chunkOffset (roundUp physical)
      (((Keystream.mask (pad key) 0 plain).drop chunkOffset).take physical ++
        Bytes.zeros (readBufferSize - physical))).take count = (plain.drop chunkOffset).take count := by
  have length : (((Keystream.mask (pad key) 0 plain).drop chunkOffset).take physical).length =
      physical := by
    rw [List.length_take, List.length_drop, Keystream.mask_length]
    omega
  have rounded : roundUp physical % chunkSize = 0 ∧ physical ≤ roundUp physical ∧
      roundUp physical ≤ readBufferSize := by
    simp only [roundUp, roundDown, chunkSize, readBufferSize] at small ⊢
    omega
  have cipher : ((Keystream.mask (pad key) 0 plain).drop chunkOffset).take count =
      Keystream.mask (pad key) chunkOffset ((plain.drop chunkOffset).take count) := by
    rw [Keystream.mask_drop, Keystream.mask_take, Nat.zero_add]
  rw [decrypt_eq aligned rounded.1 (by rw [List.length_append, length, Bytes.zeros_length]; omega),
    List.take_append_of_le_length, Keystream.mask_take, List.take_take,
    Nat.min_eq_left (by omega), List.take_append_of_le_length (by omega), List.take_take,
    Nat.min_eq_left inside, cipher, Keystream.mask_mask]
  rw [Keystream.mask_length, List.length_take, List.length_append, length]
  omega

theorem readBatches_run {key plain : Bytes} (short : plain.length < 2 ^ 63) {offset size : Nat}
    (inside : offset + size ≤ plain.length) {fuel copied : Nat} (enough : size - copied < fuel) :
    readBatches (File.ofBytes (Keystream.mask (pad key) 0 plain)) key offset size fuel copied
      Faults.healthy = .ok ((plain.drop (offset + copied)).take (size - copied)) Faults.healthy := by
  induction fuel generalizing copied with
  | zero => omega
  | succ fuel ih =>
    rw [readBatches]
    by_cases more : copied < size
    · rw [if_pos more]
      have total : (File.ofBytes (Keystream.mask (pad key) 0 plain)).size = plain.length :=
        Keystream.mask_length 0 plain
      rw [total]
      generalize start : roundDown (offset + copied) = chunkOffset
      generalize span : min (plain.length - chunkOffset)
        (min (roundUp (offset + size - chunkOffset)) readBufferSize) = physical
      have bounds : chunkOffset ≤ offset + copied ∧ offset + copied < chunkOffset + chunkSize ∧
          chunkOffset % chunkSize = 0 := by
        simp only [roundDown, chunkSize] at start ⊢
        omega
      have batch : offset + copied - chunkOffset < physical ∧ physical ≤ readBufferSize ∧
          chunkOffset + physical ≤ plain.length := by
        simp only [roundUp, roundDown, chunkSize, readBufferSize] at span bounds ⊢
        omega
      generalize skip : offset + copied - chunkOffset = batchStart at batch
      generalize got : min (physical - batchStart) (size - copied) = available
      have first : ¬ (offset + size - chunkOffset > 2 ^ 64 - 1 - (chunkSize - 1)) := by
        simp only [chunkSize]
        omega
      have second : ¬ (chunkOffset ≥ plain.length ∨ physical ≤ batchStart) := by omega
      have stored : Reading.sourceReadAt (File.ofBytes (Keystream.mask (pad key) 0 plain)) chunkOffset
          physical Faults.healthy =
            .ok (((Keystream.mask (pad key) 0 plain).drop chunkOffset).take physical)
              Faults.healthy := by
        have ranged : ¬ (chunkOffset > (File.ofBytes (Keystream.mask (pad key) 0 plain)).size ∨
            physical > (File.ofBytes (Keystream.mask (pad key) 0 plain)).size - chunkOffset) := by
          rw [total]
          omega
        rw [Reading.sourceReadAt, Reading.fetch, if_neg ranged, if_neg (by omega)]
        simp only [Faults.healthy, File.read_ofBytes]
        rfl
      have next := @ih (copied + available) (by omega)
      have slice : ((decrypt key chunkOffset (roundUp physical)
          (((Keystream.mask (pad key) 0 plain).drop chunkOffset).take physical ++
            Bytes.zeros (readBufferSize - physical))).drop batchStart).take available =
              (plain.drop (offset + copied)).take available := by
        have whole := @decrypt_take key plain chunkOffset physical (batchStart + available) bounds.2.2
          batch.2.2 batch.2.1 (by omega)
        rw [List.take_drop, whole, ← List.take_drop, List.drop_drop]
        congr 2
        omega
      rw [bind_of_ok (failIf_false first _ _), bind_of_ok (failIf_false second _ _),
        bind_of_ok stored, got, bind_of_ok next, pure_run, slice]
      congr 1
      rw [show size - copied = available + (size - (copied + available)) by omega, List.take_add,
        List.drop_drop, Nat.add_assoc]
    · rw [if_neg more, pure_run, Nat.sub_eq_zero_of_le (Nat.not_lt.mp more), List.take_zero]

theorem mpqe_transparent (key plain : Bytes) (short : plain.length < 2 ^ 63) (pos : Nat) :
    ∃ p, transformFile key (fresh plain pos) = .ok () p ∧
      (∀ offset size, offset + size ≤ plain.length →
        sourceReadAt p.output.file key offset size Faults.healthy =
          .ok ((plain.drop offset).take size) Faults.healthy) ∧
      ∃ q, transformFile key (intoEmpty p.output) = .ok () q ∧ q.output.file = File.ofBytes plain := by
  have whole : plain.take plain.length = plain := List.take_length
  have written : (piped key plain plain.length).output.file =
      File.ofBytes (Keystream.mask (pad key) 0 plain) := by
    rw [piped, whole]
  refine ⟨_, transformFile_run key plain pos, fun offset size inside => ?_, ?_⟩
  · have total : (File.ofBytes (Keystream.mask (pad key) 0 plain)).size = plain.length :=
      Keystream.mask_length 0 plain
    rw [written, sourceReadAt, bind_of_ok (failIf_false (by rw [total]; omega) _ _)]
    split
    next none => rw [none, List.take_zero, pure_run]
    next => exact readBatches_run short inside (by omega)
  · have back := transformFile_run key (Keystream.mask (pad key) 0 plain) plain.length
    have again : intoEmpty (piped key plain plain.length).output =
        fresh (Keystream.mask (pad key) 0 plain) plain.length := by
      rw [fresh, piped, whole]
    rw [← again] at back
    refine ⟨_, back, ?_⟩
    rw [piped, List.take_length, Keystream.mask_mask]

theorem mpqe_transparent_hundred_zeros :
    (Bytes.zeros 100).length < 2 ^ 63 ∧
      ∃ p, transformFile [1, 2, 3] (fresh (Bytes.zeros 100) 0) = .ok () p ∧
        sourceReadAt p.output.file [1, 2, 3] 60 40 Faults.healthy = .ok (Bytes.zeros 40) Faults.healthy := by
  have short : (Bytes.zeros 100).length < 2 ^ 63 := by decide
  obtain ⟨p, run, slices, -⟩ := mpqe_transparent [1, 2, 3] (Bytes.zeros 100) short 0
  exact ⟨short, p, run, slices 60 40 (by decide)⟩

end Mpqe

end LibMpq
