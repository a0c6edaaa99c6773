import LibMpq.ReaderFrame

set_option autoImplicit false

namespace LibMpq

open Effect Bits

namespace Reading

theorem fetch_healthy {source : File} {offset size : Nat} (inside : offset + size ≤ source.size) :
    fetch source offset size Faults.healthy = (⟨source.read offset size, none⟩, Faults.healthy) := by
  have ranged : ¬ (offset > source.size ∨ size > source.size - offset) := by omega
  unfold fetch
  rw [if_neg ranged]
  by_cases none : size = 0
  · rw [if_pos none, none]
    simp [File.read]
  · rw [if_neg none]
    rfl

theorem sourceReadAt_healthy {source : File} {offset size : Nat} (inside : offset + size ≤ source.size) :
    sourceReadAt source offset size Faults.healthy = .ok (source.read offset size) Faults.healthy := by
  rw [sourceReadAt, fetch_healthy inside]

theorem windowPlan_healthy {α : Type} {x : Op Error Faults α} {w : Window} {r : α}
    (quiet : w.plan = Faults.healthy) (run : x Faults.healthy = .ok r Faults.healthy) :
    windowPlan x w = .ok r w := by
  cases w
  subst quiet
  simp only [windowPlan, zoom, run]

def mismatched (checksum : Option UInt32) (packed : Bytes) : Bool :=
  match checksum with
  | none => false
  | some sum => sum ≠ 0 ∧ sum ≠ 0xFFFFFFFF ∧ Checksum.adler32 0 packed ≠ sum

def lossyBlock (flags : UInt32) (packed : Bytes) (size : Nat) : Bool :=
  has flags Flag.compress ∧ packed.length < size ∧ packed.length ≠ 0 ∧
    has (packed.headD 0).toUInt32 Compression.waveMasks

theorem noteMismatch_eq (checksum : Option UInt32) (packed : Bytes) (w : Window) :
    noteMismatch checksum packed w = { w with mismatch := w.mismatch || mismatched checksum packed } := by
  cases checksum with
  | none => simp [noteMismatch, mismatched]
  | some sum =>
    by_cases bad : sum ≠ 0 ∧ sum ≠ 0xFFFFFFFF ∧ Checksum.adler32 0 packed ≠ sum
    · simp [noteMismatch, mismatched, bad]
    · simp only [noteMismatch, mismatched, bad, if_false, decide_false, Bool.or_false]

theorem noteLossy_eq (flags : UInt32) (packed : Bytes) (size : Nat) (w : Window) :
    noteLossy flags packed size w = { w with lossy := w.lossy || lossyBlock flags packed size } := by
  unfold noteLossy lossyBlock
  split
  next lossy => rw [decide_eq_true lossy, Bool.or_true]
  next lossless => rw [decide_eq_false lossless, Bool.or_false]

theorem decodeInto_healthy {codecs : Codecs} {packed : Bytes} {size : Nat} {method version : UInt32}
    (definite : Compression.Determined fun granted out =>
      Compression.decompressBlock codecs granted packed out (UInt32.ofNat size) method version)
    {w : Window} (quiet : w.plan = Faults.healthy)
    (decodes : ¬ (Compression.decompressBlock codecs true packed (Bytes.zeros size) (UInt32.ofNat size)
      method version).status < 0) :
    ∃ status buffer, decodeInto codecs packed size method version w = .ok status { w with buffer } ∧
      buffer.length ≤ max w.buffer.length size := by
  have announced : (UInt32.ofNat size).toNat ≤ max w.buffer.length size := by
    rw [UInt32.toNat_ofNat']
    exact (Nat.mod_le _ _).trans (le_max_right _ _)
  have within := Compression.decompressBlock_within codecs true packed method version announced
    (le_max_left _ _)
  have determined := definite true (Bytes.zeros size) w.buffer (Int32.not_lt.mp decodes)
  unfold decodeInto
  simp only [bind_run, granted, get_run, set_run, quiet, Faults.healthy_next, decide_true,
    Faults.rest_healthy]
  rw [failIf_false (by rwa [determined.1])]
  cases w
  subst quiet
  exact ⟨_, _, rfl, within⟩

theorem unpackBlock_healthy {codecs : Codecs} {flags version : UInt32} {packed data : Bytes} {size : Nat}
    (definite : Compression.Determined fun granted out =>
      Compression.decompressBlock codecs granted packed out (UInt32.ofNat size) (blockMethod flags) version)
    {w : Window} (quiet : w.plan = Faults.healthy)
    (content : unpacked codecs flags version packed size = some data) :
    ∃ status buffer, unpackBlock codecs flags version packed size w = .ok status { w with buffer } ∧
      buffer.length ≤ max w.buffer.length size := by
  unfold unpacked at content
  simp only at content
  split at content
  · cases content
  next exclusive =>
  split at content
  · cases content
  next decodes =>
  obtain ⟨status, buffer, run, within⟩ := decodeInto_healthy definite quiet decodes
  refine ⟨status, buffer, ?_, within⟩
  unfold blockMethod at run
  unfold unpackBlock
  cases compressed : has flags Flag.compress <;> cases imploded : has flags Flag.implode <;>
    simp only [compressed, imploded, Bool.false_eq_true, if_true, if_false] at run exclusive ⊢
  · rw [bind_of_ok (pure_run _ _), bind_of_ok (pure_run _ _),
      bind_of_ok (failIf_false (by simp) _ _)]
    simpa using run
  · rw [bind_of_ok (pure_run _ _), bind_of_ok run, bind_of_ok (failIf_false (by simp) _ _)]
    simp
  · rw [bind_of_ok run, bind_of_ok (pure_run _ _), bind_of_ok (failIf_false (by simp) _ _)]
    simp
  · exact absurd ⟨trivial, trivial⟩ exclusive

theorem readPacked_healthy {a : ReadArchive} {number block : Nat} {file : FileCache} {packed : Bytes}
    {w : Window} (quiet : w.plan = Faults.healthy) (valid : packedRange a number block file)
    (stored : decryptStored a number block file (storedBlock a number block file) = some packed) :
    readPacked a number block file (file.packedOffset (block + 1) - file.packedOffset block).toNat w =
      .ok packed w := by
  obtain ⟨-, -, -, -, -, start, stop⟩ := valid
  unfold readPacked
  rw [bind_of_ok (windowPlan_healthy quiet (sourceReadAt_healthy (by omega)))]
  unfold decryptStored storedBlock at stored
  split at stored
  next encrypted =>
    rw [if_pos encrypted]
    cases known : file.seed with
    | none =>
      rw [known] at stored
      cases stored
    | some seed =>
      rw [known] at stored
      cases stored
      rfl
  next plain =>
    rw [if_neg plain]
    cases stored
    rfl

theorem readDirect_healthy {source : File} {offset size : Nat} {w : Window}
    (quiet : w.plan = Faults.healthy) (inside : offset + size ≤ source.size) :
    ∃ buffer, readDirect source offset size w = .ok (source.read offset size) { w with buffer } ∧
      buffer.length ≤ max w.buffer.length size := by
  unfold readDirect
  rw [quiet, fetch_healthy inside]
  refine ⟨_, rfl, ?_⟩
  rw [Bytes.overlay_length, File.read_length]
  omega

theorem blockReadAcquired_healthy {codecs : Codecs} {a : ReadArchive} {number block : Nat}
    (definite : Definite codecs a number block) {packed data : Bytes} {w : Window}
    (quiet : w.plan = Faults.healthy)
    (stored : packedBlock a number block = some packed)
    (content : blockData codecs a number block = some data)
    (room : unpackedBlockSize a number block ≤ w.buffer.length) (checksum : Option UInt32) :
    ∃ status buffer, blockReadAcquired codecs a number block checksum w =
      .ok status
        { plan := Faults.healthy
          buffer
          mismatch := w.mismatch || mismatched checksum packed
          lossy := w.lossy || lossyBlock (entry a number).flags packed (unpackedBlockSize a number block) } ∧
      buffer.length ≤ w.buffer.length := by
  rw [blockData, stored, Option.bind_some] at content
  have definite := definite packed stored
  unfold packedBlock at stored
  cases cached : a.cache number with
  | none =>
    rw [cached] at stored
    cases stored
  | some file =>
    rw [cached] at stored
    simp only at stored
    split at stored
    next valid =>
      obtain ⟨member, inside, count, order, bound, range⟩ := valid
      have tail : ∀ buffer : Bytes, buffer.length ≤ w.buffer.length → ∃ status buffer', unpackBlock codecs (entry a number).flags
          a.header.version.toUInt32 packed (unpackedBlockSize a number block)
          (noteMismatch checksum packed (noteLossy (entry a number).flags packed
            (unpackedBlockSize a number block) { w with buffer })) = .ok status
          { plan := Faults.healthy
            buffer := buffer'
            mismatch := w.mismatch || mismatched checksum packed
            lossy := w.lossy ||
              lossyBlock (entry a number).flags packed (unpackedBlockSize a number block) } ∧
          buffer'.length ≤ w.buffer.length := by
        intro buffer fits
        rw [noteLossy_eq, noteMismatch_eq, ← quiet]
        obtain ⟨status, buffer', run, within⟩ := unpackBlock_healthy definite quiet content
          (w := ⟨w.plan, buffer, w.mismatch || mismatched checksum packed, w.lossy ||
            lossyBlock (entry a number).flags packed (unpackedBlockSize a number block)⟩)
        exact ⟨status, buffer', run, within.trans (max_le fits room)⟩
      unfold blockReadAcquired
      rw [bind_of_ok (failIf_false (Nat.not_le.mpr member) _ _),
        bind_of_ok (failIf_false (Nat.not_le.mpr inside) _ _), cached]
      simp only
      rw [bind_of_ok (failIf_false (Nat.not_le.mpr count) _ _), bind_of_ok (get_run w),
        bind_of_ok (failIf_false (Nat.not_lt.mpr room) _ _),
        bind_of_ok (failIf_false (not_or.mpr ⟨UInt32.not_lt.mpr order, UInt32.not_lt.mpr bound⟩) _ _),
        bind_of_ok (failIf_false (not_not.mpr range) _ _)]
      split
      next direct =>
        have plain : has (entry a number).flags Flag.encrypted = false := by
          simp only [Bool.and_eq_true, Bool.not_eq_true', has_or, Bool.or_eq_false_iff] at direct
          exact direct.1.1.1
        rw [decryptStored, if_neg (by simp [plain]), Option.some.injEq, storedBlock] at stored
        obtain ⟨buffer, read, within⟩ := readDirect_healthy quiet (Nat.add_le_of_le_sub' range.1 range.2)
        have fits := of_decide_eq_true (Bool.and_eq_true_iff.mp direct).2
        rw [bind_of_ok read, stored, bind_of_ok (modify_run _ _), bind_of_ok (modify_run _ _)]
        exact tail buffer (within.trans (max_le le_rfl fits))
      next =>
        have read : (windowPlan (request .malloc) >>= fun _ => readPacked a number block file
            (file.packedOffset (block + 1) - file.packedOffset block).toNat) w = .ok packed w := by
          rw [bind_of_ok (windowPlan_healthy quiet (request_healthy _))]
          exact readPacked_healthy quiet ⟨member, inside, count, order, bound, range⟩ stored
        rw [bind_of_ok read, bind_of_ok (modify_run _ _), bind_of_ok (modify_run _ _)]
        exact tail w.buffer le_rfl
    next => cases stored

def memberSize (a : ReadArchive) (number : Nat) : Nat := (entry a number).unpackedSize.toNat

def unitOf (a : ReadArchive) (number : Nat) : Nat :=
  if has (entry a number).flags Flag.single then memberSize a number else a.blockSize.toNat

def Countable (a : ReadArchive) (number : Nat) : Prop :=
  has (entry a number).flags Flag.single = true ∨ memberSize a number + a.blockSize.toNat ≤ 2 ^ 32

instance (a : ReadArchive) (number : Nat) : Decidable (Countable a number) :=
  inferInstanceAs (Decidable (_ ∨ _))

theorem toNat_count (size unit : UInt32) (positive : 0 < unit.toNat) :
    ((size + unit - 1) / unit).toNat =
      if size.toNat + unit.toNat ≤ 2 ^ 32 then (size.toNat + unit.toNat - 1) / unit.toNat else 0 := by
  have below := size.toNat_lt
  have below' := unit.toNat_lt
  have sum : (size + unit - 1).toNat = (size.toNat + unit.toNat - 1) % 2 ^ 32 := by
    rw [UInt32.toNat_sub, UInt32.toNat_add]
    have one : (1 : UInt32).toNat = 1 := rfl
    omega
  rw [UInt32.toNat_div, sum]
  split
  · rw [Nat.mod_eq_of_lt (by omega)]
  · exact Nat.div_eq_of_lt (by omega)

section sizes

variable {a : ReadArchive} {number : Nat} (positive : 0 < a.blockSize.toNat)
include positive

theorem countFileBlocks_overflow (wraps : ¬ Countable a number) : countFileBlocks a number = 0 := by
  obtain ⟨multi, large⟩ := not_or.mp wraps
  rw [memberSize] at large
  rw [countFileBlocks, if_neg multi, toNat_count _ _ positive, if_neg large]

theorem countable_of_count {i : Nat} (below : i < countFileBlocks a number) : Countable a number := by
  by_contra wraps
  rw [countFileBlocks_overflow positive wraps] at below
  exact Nat.not_lt_zero i below

theorem countFileBlocks_multi (multi : ¬ has (entry a number).flags Flag.single = true)
    (countable : Countable a number) :
    countFileBlocks a number = (memberSize a number + a.blockSize.toNat - 1) / a.blockSize.toNat := by
  have small := countable.resolve_left multi
  rw [memberSize] at small ⊢
  rw [countFileBlocks, if_neg multi, toNat_count _ _ positive, if_pos small]

theorem memberSize_le_blocks (countable : Countable a number) :
    memberSize a number ≤ countFileBlocks a number * unitOf a number := by
  by_cases single : has (entry a number).flags Flag.single = true
  · rw [countFileBlocks, unitOf, if_pos single, if_pos single, Nat.one_mul]
  · rw [countFileBlocks_multi positive single countable, unitOf, if_neg single]
    have rounded := Nat.div_add_mod (memberSize a number + a.blockSize.toNat - 1) a.blockSize.toNat
    have small := Nat.mod_lt (memberSize a number + a.blockSize.toNat - 1) positive
    rw [Nat.mul_comm]
    omega

theorem blockStart_lt {i : Nat} (multi : ¬ has (entry a number).flags Flag.single = true)
    (below : i < countFileBlocks a number) : i * a.blockSize.toNat < memberSize a number := by
  have countable := countable_of_count positive below
  rw [countFileBlocks_multi positive multi countable] at below
  have fits := (Nat.le_div_iff_mul_le positive).mp (Nat.succ_le_of_lt below)
  rw [Nat.succ_mul] at fits
  omega

theorem blockStart_le {i : Nat} (below : i < countFileBlocks a number) :
    i * unitOf a number ≤ memberSize a number := by
  by_cases single : has (entry a number).flags Flag.single = true
  · rw [countFileBlocks, if_pos single, Nat.lt_one_iff] at below
    rw [below, Nat.zero_mul]
    exact Nat.zero_le _
  · rw [unitOf, if_neg single]
    exact (blockStart_lt positive single below).le

theorem unpackedBlockSize_eq {i : Nat} (below : i < countFileBlocks a number) :
    unpackedBlockSize a number i =
      min ((i + 1) * unitOf a number) (memberSize a number) - i * unitOf a number := by
  by_cases single : has (entry a number).flags Flag.single = true
  · rw [countFileBlocks, if_pos single, Nat.lt_one_iff] at below
    rw [unpackedBlockSize, if_pos single, unitOf, if_pos single, below]
    simp [memberSize]
  · have start := blockStart_lt positive single below
    rw [unpackedBlockSize, if_neg single, unitOf, if_neg single]
    by_cases last : i < countFileBlocks a number - 1
    · have after := blockStart_lt positive single (Nat.add_lt_of_lt_sub last)
      rw [if_pos last, Nat.min_eq_left after.le, Nat.succ_mul]
      omega
    · have whole := memberSize_le_blocks positive (countable_of_count positive below)
      have final : countFileBlocks a number = i + 1 := by omega
      rw [final, unitOf, if_neg single] at whole
      have bound : i * a.blockSize.toNat < 2 ^ 32 := start.trans (UInt32.toNat_lt _)
      have index : i < 2 ^ 32 := (Nat.le_mul_of_pos_right i positive).trans_lt bound
      have offset : (a.blockSize * UInt32.ofNat i).toNat = i * a.blockSize.toNat := by
        rw [UInt32.toNat_mul, UInt32.toNat_ofNat_of_lt' index, Nat.mul_comm, Nat.mod_eq_of_lt bound]
      rw [if_neg last, Nat.min_eq_right whole,
        UInt32.toNat_sub_of_le _ _ (UInt32.le_iff_toNat_le.mpr (offset ▸ start.le)), offset]
      rfl

theorem sum_unpackedBlockSize {k : Nat} (le : k ≤ countFileBlocks a number) :
    ((List.range k).map (unpackedBlockSize a number)).sum =
      min (k * unitOf a number) (memberSize a number) := by
  induction k with
  | zero => simp
  | succ k ih =>
    have start := blockStart_le positive (Nat.lt_of_succ_le le)
    rw [List.range_succ, List.map_append, List.sum_append, ih (by omega), List.map_singleton,
      List.sum_singleton, unpackedBlockSize_eq positive (Nat.lt_of_succ_le le), Nat.min_eq_left start,
      Nat.succ_mul]
    omega

theorem sum_all_unpackedBlockSize (countable : Countable a number) :
    ((List.range (countFileBlocks a number)).map (unpackedBlockSize a number)).sum =
      memberSize a number := by
  rw [sum_unpackedBlockSize positive le_rfl, Nat.min_eq_right (memberSize_le_blocks positive countable)]

end sizes

def packedAt (a : ReadArchive) (number block : Nat) : Bytes := (packedBlock a number block).getD []

def dataAt (codecs : Codecs) (a : ReadArchive) (number block : Nat) : Bytes :=
  (blockData codecs a number block).getD []

def Whole (codecs : Codecs) (a : ReadArchive) (number : Nat) : Prop :=
  ∀ i, i < countFileBlocks a number → Definite codecs a number i ∧
    ∃ data, blockData codecs a number i = some data ∧ data.length = unpackedBlockSize a number i

def lossyAt (a : ReadArchive) (number i : Nat) : Bool :=
  lossyBlock (entry a number).flags (packedAt a number i) (unpackedBlockSize a number i)

def lossyUpTo (a : ReadArchive) (number k : Nat) : Bool := (List.range k).any (lossyAt a number)

def contentUpTo (codecs : Codecs) (a : ReadArchive) (number k : Nat) : Bytes :=
  (List.range k).flatMap (dataAt codecs a number)

def mismatchUpTo (a : ReadArchive) (number : Nat) (checksums : Option (Nat → UInt32)) (k : Nat) : Bool :=
  (List.range k).any fun i => mismatched (checksums.map (· i)) (packedAt a number i)

theorem contentUpTo_succ (codecs : Codecs) (a : ReadArchive) (number k : Nat) :
    contentUpTo codecs a number (k + 1) = contentUpTo codecs a number k ++ dataAt codecs a number k := by
  rw [contentUpTo, List.range_succ, List.flatMap_append, List.flatMap_singleton, contentUpTo]

theorem mismatchUpTo_succ (a : ReadArchive) (number : Nat) (checksums : Option (Nat → UInt32)) (k : Nat) :
    mismatchUpTo a number checksums (k + 1) =
      (mismatchUpTo a number checksums k || mismatched (checksums.map (· k)) (packedAt a number k)) := by
  rw [mismatchUpTo, List.range_succ, List.any_append, mismatchUpTo]
  simp

theorem lossyUpTo_succ (a : ReadArchive) (number k : Nat) :
    lossyUpTo a number (k + 1) = (lossyUpTo a number k || lossyAt a number k) := by
  rw [lossyUpTo, List.range_succ, List.any_append, lossyUpTo]
  simp

theorem packedBlock_of_blockData {codecs : Codecs} {a : ReadArchive} {number block : Nat} {data : Bytes}
    (content : blockData codecs a number block = some data) :
    packedBlock a number block = some (packedAt a number block) := by
  unfold blockData at content
  cases stored : packedBlock a number block with
  | none =>
    rw [stored] at content
    cases content
  | some packed => rw [packedAt, stored, Option.getD_some]

section members

variable {codecs : Codecs} {a : ReadArchive} {number : Nat}

theorem dataAt_length (whole : Whole codecs a number) {i : Nat} (below : i < countFileBlocks a number) :
    (dataAt codecs a number i).length = unpackedBlockSize a number i := by
  obtain ⟨-, data, content, length⟩ := whole i below
  rw [dataAt, content, Option.getD_some, length]

theorem contentUpTo_length (positive : 0 < a.blockSize.toNat) (whole : Whole codecs a number) {k : Nat}
    (le : k ≤ countFileBlocks a number) :
    (contentUpTo codecs a number k).length = min (k * unitOf a number) (memberSize a number) := by
  rw [← sum_unpackedBlockSize positive le, contentUpTo, List.length_flatMap]
  refine congrArg List.sum (List.map_congr_left fun i inside => ?_)
  exact dataAt_length whole (by have := List.mem_range.mp inside; omega)

theorem blockReadAcquired_whole (whole : Whole codecs a number) {i : Nat}
    (below : i < countFileBlocks a number) {w : Window}
    (quiet : w.plan = Faults.healthy) (room : w.buffer.length = unpackedBlockSize a number i)
    (checksum : Option UInt32) :
    ∃ status buffer, blockReadAcquired codecs a number i checksum w =
        .ok status
          { plan := Faults.healthy
            buffer
            mismatch := w.mismatch || mismatched checksum (packedAt a number i)
            lossy := w.lossy || lossyAt a number i } ∧
      status.toNatClampNeg = unpackedBlockSize a number i ∧
      buffer.take (unpackedBlockSize a number i) = dataAt codecs a number i ∧
      buffer.length = unpackedBlockSize a number i := by
  obtain ⟨definite, data, content, length⟩ := whole i below
  obtain ⟨status, buffer, run, within⟩ := blockReadAcquired_healthy definite quiet
    (packedBlock_of_blockData content) content room.ge checksum
  obtain ⟨data', content', reported, bytes⟩ := blockReadAcquired_ok definite run
  have wider := (blockReadAcquired_wider codecs a number i checksum).ok run
  rw [content, Option.some.injEq] at content'
  subst content'
  refine ⟨status, buffer, run, by rw [← reported, length], ?_, room ▸ le_antisymm within wider⟩
  rw [dataAt, content, Option.getD_some, ← length]
  exact bytes

section loops

variable (positive : 0 < a.blockSize.toNat) (whole : Whole codecs a number)
  (quiet : a.plan = Faults.healthy)
include positive whole quiet

omit quiet in
theorem contentUpTo_fits {k : Nat} (below : k < countFileBlocks a number) :
    (contentUpTo codecs a number k).length + unpackedBlockSize a number k ≤ memberSize a number := by
  have start := blockStart_le positive below
  rw [contentUpTo_length positive whole below.le, unpackedBlockSize_eq positive below,
    Nat.min_eq_left start]
  omega

theorem readBlocks_healthy (checksums : Option (Nat → UInt32)) {buffer : Bytes}
    (room : memberSize a number ≤ buffer.length) {k : Nat} (le : k ≤ countFileBlocks a number) :
    ∃ filled, readBlocks codecs number checksums k
        { buffer, total := 0, mismatch := false, lossy := false } a =
      .ok
        { buffer := filled
          total := (contentUpTo codecs a number k).length
          mismatch := mismatchUpTo a number checksums k
          lossy := lossyUpTo a number k } a ∧
      filled.take (contentUpTo codecs a number k).length = contentUpTo codecs a number k ∧
      filled.length = buffer.length := by
  induction k with
  | zero => exact ⟨buffer, rfl, rfl, rfl⟩
  | succ k ih =>
    obtain ⟨filled, run, bytes, same⟩ := ih (by omega)
    have below := Nat.lt_of_succ_le le
    have fits := contentUpTo_fits positive whole below
    have size : ((filled.drop (contentUpTo codecs a number k).length).take
        (unpackedBlockSize a number k)).length = unpackedBlockSize a number k := by
      rw [List.length_take, List.length_drop]
      omega
    obtain ⟨status, read, step, reported, block, wide⟩ := blockReadAcquired_whole whole
      below quiet size (checksums.map (· k))
        (w := ⟨a.plan, _, mismatchUpTo a number checksums k, lossyUpTo a number k⟩)
    have length := dataAt_length whole below
    refine ⟨filled.take (contentUpTo codecs a number k).length ++
      Bytes.overlay read (filled.drop (contentUpTo codecs a number k).length), ?_, ?_, ?_⟩
    · refine foldlM_range_succ run ?_
      simp only [readBlock, step]
      rw [reported, mismatchUpTo_succ, lossyUpTo_succ, contentUpTo_succ, List.length_append, length,
        ← quiet]
    · rw [contentUpTo_succ, List.length_append, length, bytes, List.take_length_add_append,
        Bytes.overlay, List.take_append_of_le_length wide.ge, block]
    · rw [List.length_append, Bytes.overlay_length, List.length_take, List.length_drop]
      omega

end loops

end members

section holding

variable {a : ReadArchive} {number : Nat}

theorem loadOffsets_openCount {name : Option Bytes} {a' : ReadArchive} {file : FileCache}
    (run : loadOffsets number name a = .ok file a') : file.openCount = 1 := by
  unfold loadOffsets at run
  rw [bind_of_ok (get_run a)] at run
  obtain ⟨-, run⟩ := failIf_bind_ok.mp run
  obtain ⟨_, _, -, run⟩ := bind_ok.mp run
  obtain ⟨_, _, -, run⟩ := bind_ok.mp run
  obtain ⟨_, _, -, run⟩ := bind_ok.mp run
  obtain ⟨_, _, -, run⟩ := bind_ok.mp run
  rw [(pure_ok.mp run).1]

structure Held (a : ReadArchive) (number : Nat) (file : FileCache) : Prop where
  member : number < a.files
  cached : a.cache number = some file
  counted : file.openCount ≠ 0

def Spare (a : ReadArchive) (number : Nat) : Prop :=
  ∀ file, a.cache number = some file → file.openCount ≠ 0xFFFFFFFF

theorem Spare.of_none {a : ReadArchive} {number : Nat} (idle : a.cache number = none) : Spare a number := by
  intro file cached
  rw [idle] at cached
  cases cached

theorem openCount_succ {count : UInt32} (spare : count ≠ 0xFFFFFFFF) : count + 1 ≠ 0 := by
  intro wraps
  have before : count + 1 - 1 = 0xFFFFFFFF := by
    rw [wraps]
    rfl
  rw [UInt32.add_sub_cancel] at before
  exact spare before

theorem offsetsAcquire_held (spare : Spare a number) {name : Option Bytes} {a' : ReadArchive}
    (run : offsetsAcquire number name a = .ok () a') : ∃ file, Held a' number file := by
  have same := ((offsetsAcquire_spares name).ok run).files
  unfold offsetsAcquire at run
  rw [bind_of_ok (get_run a)] at run
  obtain ⟨member, run⟩ := failIf_bind_ok.mp run
  have member : number < a'.files := by rw [same]; exact Nat.not_le.mp member
  cases cached : a.cache number with
  | none =>
    rw [cached] at run
    obtain ⟨file, b, loaded, run⟩ := bind_ok.mp run
    cases run
    refine ⟨file, member, by simp [storeCache], ?_⟩
    rw [loadOffsets_openCount loaded]
    decide
  | some file =>
    rw [cached] at run
    cases run
    exact ⟨_, member, by simp only [storeCache, if_true]; rfl, openCount_succ (spare file cached)⟩

def shared (number : Nat) (file : FileCache) (a : ReadArchive) : ReadArchive :=
  storeCache number (some { file with openCount := file.openCount + 1 }) a

theorem offsetsAcquire_shared {file : FileCache} (held : Held a number file) :
    offsetsAcquire number none a = .ok () (shared number file a) := by
  have same : shareCache (entry a number) none file = { file with openCount := file.openCount + 1 } := by
    cases known : file.seed <;> simp [shareCache, known]
  unfold offsetsAcquire
  rw [bind_of_ok (get_run a), bind_of_ok (failIf_false (Nat.not_le.mpr held.member) _ _), held.cached]
  simp only [modify_run, same]
  rfl

theorem storeCache_shared {file : FileCache} (held : Held a number file) :
    storeCache number (some file) (shared number file a) = a := by
  have restored : (fun j => if j = number then some file else (shared number file a).cache j) = a.cache := by
    funext j
    by_cases here : j = number
    · rw [if_pos here, here, held.cached]
    · simp only [shared, storeCache, here, if_false]
  rw [storeCache, restored]
  rfl

theorem offsetsRelease_shared {file : FileCache} (held : Held a number file) :
    offsetsRelease number (shared number file a) = .ok () a := by
  have cached : (shared number file a).cache number =
      some { file with openCount := file.openCount + 1 } := by
    simp only [shared, storeCache, if_true]
  have left : ¬ file.openCount = 0 := held.counted
  have member : ¬ number ≥ (shared number file a).files := Nat.not_le.mpr held.member
  unfold offsetsRelease
  rw [bind_of_ok (get_run _), bind_of_ok (failIf_false member _ _), cached]
  simp only [modify_run, UInt32.add_sub_cancel, left, if_false]
  exact congrArg _ (storeCache_shared held)

def OnlyPlan (a b : ReadArchive) : Prop := ∃ plan, b = { a with plan } ∧ Faults.Steady a.plan plan

instance : Std.Refl OnlyPlan := ⟨fun a => ⟨a.plan, rfl, fun healthy => healthy⟩⟩

instance : IsTrans ReadArchive OnlyPlan where
  trans a b c first second := by
    obtain ⟨plan, rfl, steady⟩ := first
    obtain ⟨plan', rfl, steady'⟩ := second
    exact ⟨plan', rfl, steady' ∘ steady⟩

theorem OnlyPlan.eq {b : ReadArchive} (only : OnlyPlan a b) (quiet : a.plan = Faults.healthy) : b = a := by
  obtain ⟨plan, rfl, steady⟩ := only
  rw [steady quiet, ← quiet]

theorem onPlan_only {α : Type} {x : Op Error Faults α} (steady : Keeps Faults.Steady x) :
    Keeps OnlyPlan (onPlan x) :=
  Keeps.zoom steady fun _ plan kept => ⟨plan, rfl, kept⟩

theorem sectorTableOf_only (codecs : Codecs) (number : Nat) :
    Keeps OnlyPlan (sectorTableOf codecs number) := by
  refine Keeps.bind Keeps.get fun a => ?_
  simp only
  split
  · exact Keeps.pure _
  cases a.cache number with
  | none => exact Keeps.throw _
  | some file =>
    refine Keeps.bind (Keeps.failIf _ _) fun _ => ?_
    split
    · exact Keeps.pure _
    refine Keeps.bind (Keeps.failIf _ _) fun _ => Keeps.bind (Keeps.failIf _ _) fun _ => ?_
    refine Keeps.bind (Keeps.failIf _ _) fun _ => Keeps.bind (Keeps.failIf _ _) fun _ => ?_
    refine Keeps.bind (onPlan_only (request_steady _)) fun _ => ?_
    refine Keeps.bind (onPlan_only (sourceReadAt_steady _ _ _)) fun packed => ?_
    refine Keeps.bind Keeps.get fun t => Keeps.bind (Keeps.modify fun s => ?_) fun _ => ?_
    · refine ⟨s.plan.rest, rfl, fun healthy => ?_⟩
      rw [healthy]
      rfl
    · exact Keeps.bind (Keeps.failIf _ _) fun _ => Keeps.pure _

theorem holding_shared {α : Type} {x : Op Error ReadArchive α} (only : Keeps OnlyPlan x) {file : FileCache}
    (held : Held a number file) (quiet : a.plan = Faults.healthy) :
    (offsetsAcquire number none >>= fun _ => holding number x) a =
      mapState (fun _ => a) (x (shared number file a)) := by
  rw [bind_of_ok (offsetsAcquire_shared held)]
  have kept := only (shared number file a)
  unfold holding
  cases run : x (shared number file a) with
  | ok r b =>
    rw [run] at kept
    have same : b = shared number file a := kept.eq quiet
    subst same
    simp only [offsetsRelease_shared held, final_ok, mapState]
  | error e b =>
    rw [run] at kept
    have same : b = shared number file a := kept.eq quiet
    subst same
    simp only [offsetsRelease_shared held, final_ok, mapState]

theorem sectorChecksums_still {codecs : Codecs} {file : FileCache} (held : Held a number file)
    (quiet : a.plan = Faults.healthy) : final (sectorChecksums codecs number a) = a := by
  rw [sectorChecksums, holding_shared (sectorTableOf_only codecs number) held quiet]
  cases sectorTableOf codecs number (shared number file a) <;> rfl

end holding

section complete

variable {codecs : Codecs} {a b : ReadArchive} {number : Nat}

theorem Spares.memberSize_eq (spares : Spares number a b) : memberSize b number = memberSize a number := by
  rw [memberSize, spares.own_size, memberSize]

theorem Spares.countable_iff (spares : Spares number a b) : Countable b number ↔ Countable a number := by
  rw [Countable, spares.has_own (by decide), spares.memberSize_eq, spares.blockSize, Countable]

theorem memberSize_pos_of_overflow (wraps : ¬ Countable a number) : 0 < memberSize a number := by
  have large := (not_or.mp wraps).2
  have small := a.blockSize.toNat_lt
  omega

structure Loaded (codecs : Codecs) (a : ReadArchive) (number : Nat) (b : ReadArchive)
    (checksums : Option (Nat → UInt32)) : Prop where
  spare : Spare a number
  acquired : offsetsAcquire number none a = .ok () b
  whole : Whole codecs b number
  table : sectorChecksums codecs number b = .ok checksums b

theorem readMember_loaded (positive : 0 < a.blockSize.toNat)
    (quiet : a.plan = Faults.healthy) {checksums : Option (Nat → UInt32)}
    (loaded : Loaded codecs a number b checksums) {buffer : Bytes}
    (room : memberSize a number ≤ buffer.length) :
    ∃ filled,
      (Countable a number →
        filled.take (memberSize a number) = contentUpTo codecs b number (countFileBlocks a number)) ∧
      filled.length = buffer.length ∧
      readMember codecs number buffer a =
        if Countable a number ∧ mismatchUpTo b number checksums (countFileBlocks a number) = false then
          .ok
            { buffer := filled
              total := memberSize a number
              mismatch := false
              lossy := lossyUpTo b number (countFileBlocks a number) } (final (offsetsRelease number b))
        else .error .read (final (offsetsRelease number b)) := by
  have spares := (offsetsAcquire_spares none).ok loaded.acquired
  have quiet' : b.plan = Faults.healthy := spares.steady quiet
  have positive' : 0 < b.blockSize.toNat := by rwa [spares.blockSize]
  have count := spares.countFileBlocks_eq
  obtain ⟨file, held⟩ := offsetsAcquire_held loaded.spare loaded.acquired
  have member : ¬ number ≥ a.files := Nat.not_le.mpr (spares.files ▸ held.member)
  have roomy : ¬ (entry a number).unpackedSize.toNat > buffer.length := Nat.not_lt.mpr room
  obtain ⟨filled, run, bytes, same⟩ := readBlocks_healthy positive' loaded.whole
    quiet' checksums (spares.memberSize_eq ▸ room) count.ge
  have total := contentUpTo_length positive' loaded.whole count.ge
  have tried : attempt (sectorChecksums codecs number) b = .ok (some checksums) b := by
    simp only [attempt, loaded.table]
  refine ⟨filled, ?_, same, ?_⟩
  · intro countable
    have cover := memberSize_le_blocks positive' (spares.countable_iff.mpr countable)
    rw [count] at cover
    rw [Nat.min_eq_right cover, spares.memberSize_eq] at total
    rwa [total] at bytes
  unfold readMember
  rw [bind_of_ok (get_run a), bind_of_ok (failIf_false member _ _),
    bind_of_ok (failIf_false roomy _ _), bind_of_ok loaded.acquired, bind_run]
  simp only [holding, bind_of_ok tried, Option.join_some, bind_of_ok run]
  by_cases countable : Countable a number
  · have cover := memberSize_le_blocks positive' (spares.countable_iff.mpr countable)
    rw [count] at cover
    rw [Nat.min_eq_right cover, spares.memberSize_eq] at total
    rw [bind_of_ok (failIf_false (by simp [total, memberSize]) _ _)]
    simp only [pure_run, countable, true_and, total]
    cases mismatch : mismatchUpTo b number checksums (countFileBlocks a number) with
    | false =>
      rw [bind_of_ok (failIf_false (by simp) _ _)]
      simp
    | true =>
      rw [bind_of_error (failIf_true rfl _ _)]
      simp
  · have some := memberSize_pos_of_overflow countable
    have differ : (contentUpTo codecs b number (countFileBlocks a number)).length ≠
        (entry a number).unpackedSize.toNat := by
      rw [countFileBlocks_overflow positive countable]
      exact some.ne
    rw [bind_of_error (failIf_true differ _ _)]
    simp only [countable, false_and, if_false]

def attested (codecs : Codecs) (a : ReadArchive) (number : Nat) (data : Bytes) : Bool :=
  match verdict (attributesLoad codecs a) with
  | .ok view => matchesAttributes (Attributes.get view (entryIndex a number)) data
  | .error _ => true

structure Ordinary (a : ReadArchive) (number : Nat) : Prop where
  member : number < a.files
  notAttributes : isMember a attributesName number = false
  notSignature : isMember a signatureName number = false

theorem verifyData_verdict (handle : Handle a) (quiet : a.plan = Faults.healthy)
    (ordinary : Ordinary a number) (spares : Spares number a b) {data : Bytes}
    (length : data.length = memberSize a number) :
    verdict (verifyData (attributesLoad codecs) number data b) =
      if attested codecs a number data then .ok () else .error .read := by
  have size : ¬ (entry b number).unpackedSize.toNat ≠ data.length := by
    rw [length, memberSize, spares.own_size]
    simp
  have checked : ¬ (isMember b attributesName number = true ∨ isMember b signatureName number = true) := by
    rw [spares.toSameArchive.isMember_eq, spares.toSameArchive.isMember_eq, ordinary.notAttributes,
      ordinary.notSignature]
    simp
  have index : entryIndex b number = entryIndex a number := by
    rw [entryIndex, spares.indices, entryIndex]
  have same := attributesLoad_verdict handle ordinary.member ordinary.notAttributes codecs quiet spares
  unfold verifyData
  rw [bind_of_ok (get_run b), bind_of_ok (failIf_false size _ _), if_neg checked, bind_run]
  unfold attempt
  cases run : attributesLoad codecs b with
  | error e c =>
    have value : attested codecs a number data = true := by
      rw [attested, ← same, run]
      rfl
    rw [value, if_pos rfl]
    rfl
  | ok view c =>
    have value : attested codecs a number data =
        matchesAttributes (Attributes.get view (entryIndex a number)) data := by
      rw [attested, ← same, run]
      rfl
    simp only [index]
    by_cases bad : matchesAttributes (Attributes.get view (entryIndex a number)) data = false
    · rw [failIf_true bad, value, bad]
      rfl
    · rw [failIf_false bad, value, (Bool.not_eq_false _).mp bad]
      rfl

theorem fileRead_loaded (handle : Handle a) (quiet : a.plan = Faults.healthy)
    (ordinary : Ordinary a number) {checksums : Option (Nat → UInt32)}
    (loaded : Loaded codecs a number b checksums) {buffer : Bytes}
    (room : memberSize a number ≤ buffer.length) :
    ∃ filled,
      (Countable a number →
        filled.take (memberSize a number) = contentUpTo codecs b number (countFileBlocks a number)) ∧
      verdict (fileRead codecs number buffer a) =
        if Countable a number ∧ mismatchUpTo b number checksums (countFileBlocks a number) = false ∧
            (lossyUpTo b number (countFileBlocks a number) ||
              attested codecs a number (contentUpTo codecs b number (countFileBlocks a number))) then
          .ok { buffer := filled, transferred := memberSize a number }
        else .error .read := by
  have positive := handle.blockSize_pos
  have acquired := (offsetsAcquire_spares none).ok loaded.acquired
  have spares := trans_of (Spares number) acquired (offsetsRelease_spares b)
  obtain ⟨filled, bytes, -, run⟩ := readMember_loaded positive quiet loaded room
  refine ⟨filled, bytes, ?_⟩
  unfold fileRead fileReadWith
  rw [bind_run, run]
  by_cases fine : Countable a number ∧ mismatchUpTo b number checksums (countFileBlocks a number) = false
  · obtain ⟨countable, agreeing⟩ := fine
    have length : (filled.take (memberSize a number)).length = memberSize a number := by
      have whole := contentUpTo_length (acquired.blockSize ▸ positive) loaded.whole
        acquired.countFileBlocks_eq.ge
      have cover := memberSize_le_blocks (acquired.blockSize ▸ positive)
        (acquired.countable_iff.mpr countable)
      rw [bytes countable, whole, ← acquired.countFileBlocks_eq, Nat.min_eq_right cover,
        acquired.memberSize_eq]
    have checked := @verifyData_verdict codecs a _ number handle quiet ordinary spares _ length
    rw [if_pos ⟨countable, agreeing⟩]
    simp only [countable, agreeing, true_and]
    cases lossyUpTo b number (countFileBlocks a number) with
    | true => rfl
    | false =>
    simp only [Bool.false_eq_true, if_false, Bool.false_or]
    rw [bind_run, ← bytes countable]
    cases outcome : verifyData (attributesLoad codecs) number (filled.take (memberSize a number))
        (final (offsetsRelease number b)) with
    | ok u c =>
      rw [outcome] at checked
      split at checked
      next good =>
        rw [if_pos good]
        rfl
      next => cases checked
    | error e c =>
      rw [outcome] at checked
      split at checked
      next => cases checked
      next bad =>
        cases checked
        rw [if_neg bad]
        rfl
  · rw [if_neg fine, if_neg fun all => fine ⟨all.1, all.2.1⟩]
    rfl

end complete

end Reading

end LibMpq
