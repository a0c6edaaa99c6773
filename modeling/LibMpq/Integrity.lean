import LibMpq.ReaderHealthy
import LibMpq.Verify

set_option autoImplicit false

namespace LibMpq

open Effect Bits

namespace Reading

theorem growVerify_healthy {a : ReadArchive} (quiet : a.plan = Faults.healthy) (size : Nat) (buffer : Bytes) :
    ∃ grown, growVerify size buffer a = .ok grown a ∧ size ≤ grown.length := by
  unfold growVerify
  split
  · rw [bind_of_ok (onPlan_healthy quiet (request_healthy _))]
    refine ⟨_, rfl, ?_⟩
    rw [List.length_append, Bytes.zeros_length]
    omega
  next small =>
    exact ⟨buffer, rfl, Nat.not_lt.mp fun large => small (.inl large)⟩

section loop

variable {codecs : Codecs} {a : ReadArchive} {number : Nat} (positive : 0 < a.blockSize.toNat)
  (member : number < a.files) (whole : Whole codecs a number) (quiet : a.plan = Faults.healthy)
include positive member whole quiet

omit positive member in
theorem readAcquired_whole {i : Nat} (below : i < countFileBlocks a number) (checksum : Option UInt32)
    {buffer : Bytes} (room : buffer.length = unpackedBlockSize a number i) (mismatch : Bool) :
    ∃ w, readAcquired codecs number i checksum buffer mismatch a =
        .ok (unpackedBlockSize a number i, w) a ∧
      w.mismatch = (mismatch || mismatched checksum (packedAt a number i)) ∧
      w.buffer.take (unpackedBlockSize a number i) = dataAt codecs a number i := by
  obtain ⟨status, read, run, reported, bytes, -⟩ := blockReadAcquired_whole whole below
    (w := { plan := a.plan, buffer, mismatch, lossy := false }) quiet room checksum
  refine ⟨⟨Faults.healthy, read, mismatch || mismatched checksum (packedAt a number i),
    lossyAt a number i⟩, ?_, rfl, bytes⟩
  unfold readAcquired
  simp only [run, reported, Bool.false_or, ← quiet]

def verified (codecs : Codecs) (a : ReadArchive) (number : Nat) (flags : UInt32)
    (checksums : Option (Nat → UInt32)) (buffer : Bytes) (k : Nat) : VerifyState where
  buffer := buffer
  crc := if has flags verifyFileCrc32 then Checksum.crc32 0 (contentUpTo codecs a number k) else 0
  md5 := if has flags verifyFileMd5 then Md5.init.update (contentUpTo codecs a number k) else .init
  total := (contentUpTo codecs a number k).length
  mismatch := mismatchUpTo a number checksums k

theorem verifyStep_whole (flags : UInt32) (checksums : Option (Nat → UInt32)) (buffer : Bytes) {k : Nat}
    (below : k < countFileBlocks a number) :
    ∃ buffer', verifyStep codecs number flags checksums (memberSize a number)
        (verified codecs a number flags checksums buffer k) k a =
      .ok (verified codecs a number flags checksums buffer' (k + 1)) a := by
  have fits : ¬ (verified codecs a number flags checksums buffer k).total + unpackedBlockSize a number k >
      memberSize a number := Nat.not_lt.mpr (contentUpTo_fits positive whole below)
  have sized : blockSizeUnpacked a number k = .ok (unpackedBlockSize a number k) := by
    rw [blockSizeUnpacked, if_neg (not_or.mpr ⟨Nat.not_le.mpr member, Nat.not_le.mpr below⟩)]
  obtain ⟨grown, grow, large⟩ := growVerify_healthy quiet (unpackedBlockSize a number k) buffer
  have room : (grown.take (unpackedBlockSize a number k)).length = unpackedBlockSize a number k := by
    rw [List.length_take, Nat.min_eq_left large]
  obtain ⟨w, read, mismatch, bytes⟩ := readAcquired_whole whole quiet below
    (checksums.map (· k)) room (mismatchUpTo a number checksums k)
  refine ⟨Bytes.overlay w.buffer grown, ?_⟩
  unfold verifyStep
  rw [bind_of_ok (get_run a), sized, bind_of_ok (fromExcept_ok.mpr ⟨rfl, rfl⟩),
    bind_of_ok (failIf_false fits _ _)]
  simp only [verified]
  rw [bind_of_ok grow, bind_of_ok read]
  simp only
  rw [bind_of_ok (failIf_false (by simp) _ _), bytes, mismatch, ← mismatchUpTo_succ, contentUpTo_succ,
    Checksum.crc32_append, Md5.update_append Md5.init_ready, List.length_append,
    dataAt_length whole below]
  cases has flags verifyFileCrc32 <;> cases has flags verifyFileMd5 <;> rfl

theorem verifyLoop_healthy (flags : UInt32) (checksums : Option (Nat → UInt32)) {k : Nat}
    (le : k ≤ countFileBlocks a number) :
    ∃ buffer, (List.range k).foldlM
        (verifyStep codecs number flags checksums (memberSize a number)) .init a =
      .ok (verified codecs a number flags checksums buffer k) a := by
  induction k with
  | zero =>
    refine ⟨[], ?_⟩
    have crc : Checksum.crc32 0 [] = 0 := by decide
    have md5 : Md5.init.update [] = .init := rfl
    simp [verified, contentUpTo, mismatchUpTo, crc, md5, VerifyState.init]
  | succ k ih =>
    obtain ⟨buffer, run⟩ := ih (by omega)
    obtain ⟨buffer', step⟩ := verifyStep_whole positive member whole quiet flags
      checksums buffer (Nat.lt_of_succ_le le)
    exact ⟨buffer', foldlM_range_succ run step⟩

end loop

def applicable (codecs : Codecs) (a : ReadArchive) : UInt32 :=
  match verdict (attributesLoad codecs a) with
  | .ok _ => verifyAll
  | .error _ => verifySectorCrc

def rowOf (codecs : Codecs) (a : ReadArchive) (number : Nat) : FileAttributes :=
  match verdict (attributesLoad codecs a) with
  | .ok view => Attributes.get view (entryIndex a number)
  | .error _ => .none

def filed (row : FileAttributes) : Bool := has row.flags attributeCrc32 || has row.flags attributeMd5

structure Checks (flags storage : UInt32) (row : FileAttributes) : Prop where
  sector : has flags verifySectorCrc = decide (sectorized storage)
  crc32 : has flags verifyFileCrc32 = has row.flags attributeCrc32
  md5 : has flags verifyFileMd5 = has row.flags attributeMd5
  none : flags = 0 ↔ ¬ sectorized storage ∧ filed row = false

def keep (crc md5 sector : Bool) (flags : UInt32) : UInt32 :=
  let flags := if crc then flags else flags &&& ~~~verifyFileCrc32
  let flags := if md5 then flags else flags &&& ~~~verifyFileMd5
  if sector then flags else flags &&& ~~~verifySectorCrc

theorem available_eq (row : FileAttributes) (storage flags : UInt32) :
    available row storage flags =
      keep (has row.flags attributeCrc32) (has row.flags attributeMd5) (sectorized storage) flags := by
  simp only [available, keep, decide_eq_true_eq]

theorem checks_all (row : FileAttributes) (storage : UInt32) :
    Checks (available row storage verifyAll) storage row := by
  have bits : ∀ crc md5 sector : Bool,
      has (keep crc md5 sector verifyAll) verifySectorCrc = sector ∧
      has (keep crc md5 sector verifyAll) verifyFileCrc32 = crc ∧
      has (keep crc md5 sector verifyAll) verifyFileMd5 = md5 ∧
      (keep crc md5 sector verifyAll = 0 ↔ ¬ sector = true ∧ (crc || md5) = false) := by decide
  obtain ⟨sector, crc, md5, none⟩ := bits (has row.flags attributeCrc32) (has row.flags attributeMd5)
    (sectorized storage)
  rw [decide_eq_true_eq] at none
  rw [← available_eq] at sector crc md5 none
  exact ⟨sector, crc, md5, none⟩

theorem checks_sector (storage : UInt32) :
    Checks (available .none storage verifySectorCrc) storage .none := by
  have bits : ∀ sector : Bool,
      has (keep false false sector verifySectorCrc) verifySectorCrc = sector ∧
      has (keep false false sector verifySectorCrc) verifyFileCrc32 = false ∧
      has (keep false false sector verifySectorCrc) verifyFileMd5 = false ∧
      (keep false false sector verifySectorCrc = 0 ↔ ¬ sector = true) := by decide
  obtain ⟨sector, crc, md5, none⟩ := bits (sectorized storage)
  have same : keep false false (sectorized storage) verifySectorCrc =
      available .none storage verifySectorCrc := (available_eq .none storage _).symm
  rw [decide_eq_true_eq] at none
  rw [same] at sector crc md5 none
  exact ⟨sector, crc, md5, none.trans ⟨fun absent => ⟨absent, rfl⟩, fun both => both.1⟩⟩

section verdicts

variable {codecs : Codecs} {a : ReadArchive} {number : Nat}

theorem verifyFile_start (handle : Handle a) (quiet : a.plan = Faults.healthy)
    (ordinary : Ordinary a number) :
    ∃ c flags, Agree number a c ∧ c.plan = Faults.healthy ∧
      Checks flags (entry a number).flags (rowOf codecs a number) ∧
      verifyFile codecs number (applicable codecs a) a =
        verifyAvailable codecs number flags (rowOf codecs a number) c := by
  have member : ¬ number ≥ a.files := Nat.not_le.mpr ordinary.member
  obtain ⟨agree, steady⟩ := attributesLoad_unmoved handle ordinary.member ordinary.notAttributes codecs
  cases run : attributesLoad codecs a with
  | error e c =>
    have request : applicable codecs a = verifySectorCrc := by
      rw [applicable, run]
      rfl
    have row : rowOf codecs a number = .none := by
      rw [rowOf, run]
      rfl
    rw [request, row]
    refine ⟨a, _, ⟨.refl a, rfl, rfl⟩, quiet, checks_sector _, ?_⟩
    unfold verifyFile
    rw [bind_of_ok (get_run a), bind_of_ok (failIf_false member _ _),
      bind_of_ok (failIf_false (by decide) _ _), if_neg (by decide), if_neg (by decide),
      bind_of_ok (pure_run _ _), bind_of_ok (get_run a)]
  | ok view c =>
    rw [run, final_ok] at agree steady
    have request : applicable codecs a = verifyAll := by
      rw [applicable, run]
      rfl
    have row : rowOf codecs a number = Attributes.get view (entryIndex a number) := by
      rw [rowOf, run]
      rfl
    have looked : fileAttributes codecs number a =
        .ok (Attributes.get view (entryIndex a number)) c := by
      unfold fileAttributes
      rw [bind_of_ok (get_run a), bind_of_ok (failIf_false member _ _), bind_of_ok run,
        bind_of_ok (get_run c), agree.entryIndex_eq, pure_run]
    rw [request, row]
    refine ⟨c, _, agree, steady quiet, checks_all _ _, ?_⟩
    unfold verifyFile
    rw [bind_of_ok (get_run a), bind_of_ok (failIf_false member _ _),
      bind_of_ok (failIf_false (by decide) _ _), if_neg (by decide), if_pos (by decide),
      bind_of_ok looked, bind_of_ok (get_run c), agree.entry_eq]

theorem releasing_error {α : Type} {x : Op Error ReadArchive α} {b b' : ReadArchive} {e : Error}
    (run : x b = .error e b') : verdict (releasing number x b) = .error e := by
  simp only [releasing, run, verdict]

theorem releasing_ok {α : Type} {x : Op Error ReadArchive α} {b b' : ReadArchive} {r : α}
    (run : x b = .ok r b') {file : FileCache} (held : Held b' number file) :
    verdict (releasing number x b) = .ok r := by
  have member : ¬ number ≥ b'.files := Nat.not_le.mpr held.member
  simp only [releasing, run, offsetsRelease]
  rw [bind_run, bind_of_ok (get_run _), bind_of_ok (failIf_false member _ _), held.cached]
  rfl

theorem Agree.definite {b d : ReadArchive} (agree : Agree number b d) {i : Nat}
    (definite : Definite codecs b number i) : Definite codecs d number i := by
  intro packed stored
  rw [agree.packedBlock_eq] at stored
  rw [agree.unpackedBlockSize_eq, agree.entry_eq, agree.header]
  exact definite packed stored

theorem Agree.whole_of {b d : ReadArchive} (agree : Agree number b d) (whole : Whole codecs b number) :
    Whole codecs d number := by
  intro i below
  rw [agree.countFileBlocks_eq] at below
  obtain ⟨definite, content⟩ := whole i below
  refine ⟨agree.definite definite, ?_⟩
  rw [agree.blockData_eq, agree.unpackedBlockSize_eq]
  exact content

theorem Agree.packedAt_eq {b d : ReadArchive} (agree : Agree number b d) (i : Nat) :
    packedAt d number i = packedAt b number i := by
  rw [packedAt, agree.packedBlock_eq, packedAt]

theorem Agree.contentUpTo_eq {b d : ReadArchive} (agree : Agree number b d) (codecs : Codecs) (k : Nat) :
    contentUpTo codecs d number k = contentUpTo codecs b number k := by
  have each : dataAt codecs d number = dataAt codecs b number := by
    funext i
    rw [dataAt, agree.blockData_eq, dataAt]
  rw [contentUpTo, each, contentUpTo]

theorem Agree.mismatchUpTo_eq {b d : ReadArchive} (agree : Agree number b d)
    (checksums : Option (Nat → UInt32)) (k : Nat) :
    mismatchUpTo d number checksums k = mismatchUpTo b number checksums k := by
  have each : packedAt d number = packedAt b number := funext agree.packedAt_eq
  rw [mismatchUpTo, each, mismatchUpTo]

theorem sectorChecksums_none {b : ReadArchive} {file : FileCache} (held : Held b number file)
    (quiet : b.plan = Faults.healthy)
    (absent : ¬ sectorized (entry b number).flags ∨ countFileBlocks b number = 0) :
    sectorChecksums codecs number b = .ok none b := by
  have skipped : countFileBlocks (shared number file b) number = 0 ∨
      has (entry (shared number file b) number).flags Flag.sectorCrc = false ∨
      serialized (entry (shared number file b) number).flags = false := by
    change countFileBlocks b number = 0 ∨ has (entry b number).flags Flag.sectorCrc = false ∨
      serialized (entry b number).flags = false
    unfold sectorized at absent
    rcases absent with unflagged | empty
    · simp only [not_and_or, Bool.not_eq_true] at unflagged
      exact .inr unflagged
    · exact .inl empty
  rw [sectorChecksums, holding_shared (sectorTableOf_only codecs number) held quiet]
  unfold sectorTableOf
  rw [bind_of_ok (get_run _), if_pos skipped]
  rfl

theorem verifyAvailable_unopened {c a' : ReadArchive} {flags : UInt32} {row : FileAttributes} {e : Error}
    (agree : Agree number a c) (same : c.plan = a.plan) (some : flags ≠ 0)
    (refused : offsetsAcquire number none a = .error e a') :
    verdict (verifyAvailable codecs number flags row c) = .error e := by
  have alike := offsetsAcquire_twin none a c ⟨agree, same, rfl⟩
  rw [refused] at alike
  unfold verifyAvailable
  rw [bind_of_ok (get_run c), if_neg some, bind_run]
  generalize offsetsAcquire number none c = q at alike ⊢
  cases alike
  rfl

def mismatchBits (codecs : Codecs) (b : ReadArchive) (number : Nat) (flags : UInt32)
    (row : FileAttributes) (checksums : Option (Nat → UInt32)) (blocks : Nat) : UInt32 :=
  let s := verified codecs b number flags checksums [] blocks
  compareFile row flags s.crc s.md5.finish (sectorBits s.mismatch)

theorem verifyBlocks_held {d : ReadArchive} {file : FileCache}
    (held : Held d number file) (positive : 0 < d.blockSize.toNat) (quiet : d.plan = Faults.healthy)
    (whole : Whole codecs d number) {checksums : Option (Nat → UInt32)}
    (table : sectorChecksums codecs number d = .ok checksums d) {flags : UInt32} {row : FileAttributes}
    (checks : Checks flags (entry d number).flags row) :
    verifyBlocks codecs number flags row (memberSize d number) (countFileBlocks d number) d =
      if checksums.isNone ∧ filed row = false then .ok 0 d
      else if Countable d number then
        .ok (mismatchBits codecs d number flags row checksums (countFileBlocks d number)) d
      else .error .read d := by
  have looked : (if has flags verifySectorCrc then sectorChecksums codecs number else pure none) d =
      .ok checksums d := by
    rw [checks.sector]
    by_cases stored : sectorized (entry d number).flags
    · rw [decide_eq_true stored, if_pos rfl, table]
    · rw [sectorChecksums_none held quiet (.inl stored)] at table
      cases table
      rw [decide_eq_false stored]
      rfl
  have requested : has flags (verifyFileCrc32 ||| verifyFileMd5) = filed row := by
    rw [has_or, checks.crc32, checks.md5, filed]
  obtain ⟨buffer, run⟩ := verifyLoop_healthy positive held.member whole quiet flags
    checksums le_rfl
  have total := contentUpTo_length positive whole le_rfl
  unfold verifyBlocks
  rw [bind_of_ok looked, requested]
  by_cases idle : checksums.isNone = true ∧ filed row = false
  · rw [if_pos idle, if_pos idle]
    rfl
  rw [if_neg idle, if_neg idle, bind_of_ok run]
  by_cases countable : Countable d number
  · rw [Nat.min_eq_right (memberSize_le_blocks positive countable)] at total
    have equal : ¬ (verified codecs d number flags checksums buffer (countFileBlocks d number)).total ≠
        memberSize d number := not_not.mpr total
    rw [if_pos countable, bind_of_ok (failIf_false equal _ _)]
    rfl
  · have differ : (verified codecs d number flags checksums buffer (countFileBlocks d number)).total ≠
        memberSize d number := by
      rw [countFileBlocks_overflow positive countable]
      exact (memberSize_pos_of_overflow countable).ne
    rw [if_neg countable, bind_of_error (failIf_true differ _ _)]

theorem Spares.sectorized_iff {b : ReadArchive} (spares : Spares number a b) :
    sectorized (entry b number).flags ↔ sectorized (entry a number).flags := by
  unfold sectorized serialized
  rw [spares.has_own (by decide), spares.has_own (by decide), spares.has_own (by decide)]

theorem Checks.congr {flags storage storage' : UInt32} {row : FileAttributes}
    (checks : Checks flags storage row) (same : sectorized storage' ↔ sectorized storage) :
    Checks flags storage' row where
  sector := by rw [checks.sector, decide_eq_decide.mpr same]
  crc32 := checks.crc32
  md5 := checks.md5
  none := by rw [checks.none, same]

theorem Agree.countable_iff {b d : ReadArchive} (agree : Agree number b d) :
    Countable d number ↔ Countable b number := by
  rw [Countable, memberSize, agree.entry_eq, agree.blockSize, Countable, memberSize]

theorem Agree.mismatchBits_eq {b d : ReadArchive} (agree : Agree number b d) (codecs : Codecs)
    (flags : UInt32) (row : FileAttributes) (checksums : Option (Nat → UInt32)) (blocks : Nat) :
    mismatchBits codecs d number flags row checksums blocks =
      mismatchBits codecs b number flags row checksums blocks := by
  simp only [mismatchBits, verified, agree.contentUpTo_eq, agree.mismatchUpTo_eq]

theorem verifyAvailable_loaded (handle : Handle a)
    (quiet : a.plan = Faults.healthy) {b c : ReadArchive} {checksums : Option (Nat → UInt32)}
    (loaded : Loaded codecs a number b checksums) {flags : UInt32} {row : FileAttributes}
    (agree : Agree number a c) (calm : c.plan = Faults.healthy)
    (checks : Checks flags (entry a number).flags row) (some : flags ≠ 0) :
    verdict (verifyAvailable codecs number flags row c) =
      if checksums.isNone ∧ filed row = false then .ok 0
      else if Countable a number then
        .ok (mismatchBits codecs b number flags row checksums (countFileBlocks a number))
      else .error .read := by
  have alike := offsetsAcquire_twin none a c ⟨agree, calm.trans quiet.symm, rfl⟩
  rw [loaded.acquired] at alike
  have spares := (offsetsAcquire_spares none).ok loaded.acquired
  unfold verifyAvailable
  rw [bind_of_ok (get_run c), if_neg some, bind_run]
  generalize ran : offsetsAcquire number none c = q at alike ⊢
  cases alike with
  | @ok _ d _ twin =>
  have spare : Spare c number := fun file cached => loaded.spare file (agree.cache ▸ cached)
  obtain ⟨file, held⟩ := offsetsAcquire_held spare ran
  have positive : 0 < d.blockSize.toNat := by
    rw [twin.blockSize, spares.blockSize]
    exact handle.blockSize_pos
  have calm' : d.plan = Faults.healthy := twin.plan.trans (spares.steady quiet)
  have table : sectorChecksums codecs number d = .ok checksums d := by
    have still := @sectorChecksums_still d number codecs file held calm'
    have same := sectorChecksums_twin codecs b d twin
    rw [loaded.table] at same
    generalize sectorChecksums codecs number d = q at same still ⊢
    cases same with
    | ok _ _ => exact congrArg _ still
  have size : (entry c number).unpackedSize.toNat = memberSize d number := by
    rw [memberSize, twin.toAgree.entry_eq, spares.own_size, agree.entry_eq]
  have count : countFileBlocks d number = countFileBlocks a number := by
    rw [twin.toAgree.countFileBlocks_eq, spares.countFileBlocks_eq]
  have checks' : Checks flags (entry d number).flags row := by
    rw [twin.toAgree.entry_eq]
    exact checks.congr spares.sectorized_iff
  have run := verifyBlocks_held held positive calm' (twin.toAgree.whole_of loaded.whole) table
    checks'
  have countable : Countable d number ↔ Countable a number := by
    rw [twin.toAgree.countable_iff, spares.countable_iff]
  rw [if_congr countable rfl rfl, twin.toAgree.mismatchBits_eq, count] at run
  simp only [size, agree.countFileBlocks_eq]
  by_cases idle : checksums.isNone = true ∧ filed row = false
  · rw [if_pos idle] at run ⊢
    exact releasing_ok run held
  rw [if_neg idle] at run ⊢
  by_cases counts : Countable a number
  · rw [if_pos counts] at run ⊢
    exact releasing_ok run held
  · rw [if_neg counts] at run ⊢
    exact releasing_error run

def bitsOf (sector crc md5 : Bool) : UInt32 :=
  let bits := if crc then sectorBits sector ||| verifyFileCrc32 else sectorBits sector
  if md5 then bits ||| verifyFileMd5 else bits

theorem compareFile_eq (row : FileAttributes) (flags crc : UInt32) (digest : Digest) (m : Bool) :
    compareFile row flags crc digest (sectorBits m) = bitsOf m
      (has flags verifyFileCrc32 ∧ has row.flags attributeCrc32 ∧ crc ≠ row.crc32)
      (has flags verifyFileMd5 ∧ has row.flags attributeMd5 ∧ digest ≠ row.md5) := by
  simp only [compareFile, bitsOf, decide_eq_true_eq]

theorem compareFile_zero (row : FileAttributes) (flags crc : UInt32) (digest : Digest) (m : Bool) :
    compareFile row flags crc digest (sectorBits m) = 0 ↔ m = false ∧
      ¬ (has flags verifyFileCrc32 = true ∧ has row.flags attributeCrc32 = true ∧ crc ≠ row.crc32) ∧
      ¬ (has flags verifyFileMd5 = true ∧ has row.flags attributeMd5 = true ∧ digest ≠ row.md5) := by
  have bits : ∀ sector crc md5 : Bool,
      bitsOf sector crc md5 = 0 ↔ sector = false ∧ crc = false ∧ md5 = false := by decide
  rw [compareFile_eq, bits, decide_eq_false_iff_not, decide_eq_false_iff_not]

theorem compareFile_sector (row : FileAttributes) (flags crc : UInt32) (digest : Digest) (m : Bool) :
    has (compareFile row flags crc digest (sectorBits m)) verifySectorCrc = m := by
  have bits : ∀ sector crc md5 : Bool, has (bitsOf sector crc md5) verifySectorCrc = sector := by decide
  rw [compareFile_eq, bits]

theorem mismatchBits_zero {b : ReadArchive} {flags storage : UInt32} {row : FileAttributes}
    (checks : Checks flags storage row) (checksums : Option (Nat → UInt32)) (blocks : Nat) :
    mismatchBits codecs b number flags row checksums blocks = 0 ↔
      mismatchUpTo b number checksums blocks = false ∧
        matchesAttributes row (contentUpTo codecs b number blocks) = true := by
  simp only [mismatchBits, compareFile_zero, verified, checks.crc32, checks.md5, matchesAttributes]
  cases has row.flags attributeCrc32 <;> cases has row.flags attributeMd5 <;> simp

theorem mismatchBits_sector {b : ReadArchive} (flags : UInt32) (row : FileAttributes)
    (checksums : Option (Nat → UInt32)) (blocks : Nat) :
    has (mismatchBits codecs b number flags row checksums blocks) verifySectorCrc =
      mismatchUpTo b number checksums blocks := by
  simp only [mismatchBits, compareFile_sector, verified]

theorem readAcquired_only (codecs : Codecs) (number block : Nat) (checksum : Option UInt32) (buffer : Bytes)
    (mismatch : Bool) : Keeps OnlyPlan (readAcquired codecs number block checksum buffer mismatch) := by
  intro a
  have kept := blockReadAcquired_steady codecs a number block checksum
    { plan := a.plan, buffer, mismatch, lossy := false }
  unfold readAcquired
  split
  next run =>
    rw [run] at kept
    exact ⟨_, rfl, kept⟩
  next run =>
    rw [run] at kept
    exact ⟨_, rfl, kept⟩

section sector

variable {b : ReadArchive} {file : FileCache} (held : Held b number file)
include held

theorem packedBlock_shared (i : Nat) :
    packedBlock (shared number file b) number i = packedBlock b number i := by
  have cached : (shared number file b).cache number =
      some { file with openCount := file.openCount + 1 } := by
    simp only [shared, storeCache, if_true]
  rw [packedBlock, cached, packedBlock, held.cached]
  rfl

theorem blockData_shared (i : Nat) :
    blockData codecs (shared number file b) number i = blockData codecs b number i := by
  rw [blockData, packedBlock_shared held, blockData]
  rfl

theorem blockRead_held (quiet : b.plan = Faults.healthy)
    (whole : Whole codecs b number) {i : Nat} (below : i < countFileBlocks b number)
    (checksum : Option UInt32) :
    ∃ w, blockRead codecs number i checksum (Bytes.zeros (unpackedBlockSize b number i)) b =
        .ok (unpackedBlockSize b number i, w) b ∧
      w.mismatch = mismatched checksum (packedAt b number i) := by
  have packed : packedAt (shared number file b) number i = packedAt b number i := by
    rw [packedAt, packedBlock_shared held, packedAt]
  have whole' : Whole codecs (shared number file b) number := by
    intro j inside
    obtain ⟨definite, content⟩ := whole j inside
    refine ⟨fun packed stored => ?_, ?_⟩
    · rw [packedBlock_shared held] at stored
      exact definite packed stored
    · rw [blockData_shared held]
      exact content
  obtain ⟨w, run, mismatch, -⟩ := readAcquired_whole whole' quiet below checksum
    (Bytes.zeros_length _) false
  refine ⟨w, ?_, by rw [mismatch, packed, Bool.false_or]⟩
  unfold blockRead
  rw [bind_of_ok (get_run b), bind_of_ok (failIf_false (Nat.not_le.mpr below) _ _),
    holding_shared (readAcquired_only _ _ _ _ _ _) held quiet]
  exact congrArg (mapState fun _ => b) run

end sector

def BlockMismatch (codecs : Codecs) (a : ReadArchive) (number i : Nat) : Prop :=
  ∃ v, verdict (verifyBlock codecs number i a) = .ok v ∧ v.mismatches ≠ 0

theorem verifyStored_run {b : ReadArchive} {file : FileCache}
    (held : Held b number file) (quiet : b.plan = Faults.healthy) (whole : Whole codecs b number)
    {i : Nat} (below : i < countFileBlocks b number) {table : Nat → UInt32} (loaded : sectorChecksums codecs number b = .ok (some table) b) :
    verifyStored codecs number i b =
      if table i = 0 ∨ table i = 0xFFFFFFFF then .error .exist b
      else .ok ⟨table i, sectorBits (mismatched (some (table i)) (packedAt b number i))⟩ b := by
  have sized : blockSizeUnpacked b number i = .ok (unpackedBlockSize b number i) := by
    rw [blockSizeUnpacked, if_neg (not_or.mpr ⟨Nat.not_le.mpr held.member, Nat.not_le.mpr below⟩)]
  obtain ⟨w, read, mismatch⟩ := blockRead_held held quiet whole below (some (table i))
  unfold verifyStored
  rw [bind_of_ok loaded]
  simp only [Option.map_some]
  by_cases unrecorded : table i = 0 ∨ table i = 0xFFFFFFFF
  · rw [if_pos unrecorded, bind_of_error (failIf_true unrecorded _ _)]
  · rw [if_neg unrecorded, bind_of_ok (failIf_false unrecorded _ _), bind_of_ok (get_run b), sized,
      bind_of_ok (fromExcept_ok.mpr ⟨rfl, rfl⟩), bind_of_ok (onPlan_healthy quiet (request_healthy _)),
      bind_of_ok read]
    simp only
    rw [bind_of_ok (failIf_false (by simp) _ _), mismatch]
    rfl

theorem blockMismatch_iff (quiet : a.plan = Faults.healthy) {b : ReadArchive}
    {checksums : Option (Nat → UInt32)} (loaded : Loaded codecs a number b checksums) (i : Nat) :
    BlockMismatch codecs a number i ↔
      i < countFileBlocks a number ∧ mismatched (checksums.map (· i)) (packedAt b number i) = true := by
  have spares := (offsetsAcquire_spares none).ok loaded.acquired
  obtain ⟨file, held⟩ := offsetsAcquire_held loaded.spare loaded.acquired
  have calm := spares.steady quiet
  unfold BlockMismatch
  by_cases below : i < countFileBlocks a number
  swap
  · have refused : number ≥ a.files ∨ i ≥ countFileBlocks a number := .inr (Nat.not_lt.mp below)
    unfold verifyBlock
    rw [bind_of_ok (get_run a), bind_of_error (failIf_true refused _ _)]
    exact ⟨fun ⟨v, run, _⟩ => (nomatch run), fun both => absurd both.1 below⟩
  have valid : ¬ (number ≥ a.files ∨ i ≥ countFileBlocks a number) :=
    not_or.mpr ⟨Nat.not_le.mpr (spares.files ▸ held.member), Nat.not_le.mpr below⟩
  by_cases stored : sectorized (entry a number).flags
  swap
  · have none := @sectorChecksums_none codecs number b file held calm
      (.inl fun flagged => stored (spares.sectorized_iff.mp flagged))
    rw [loaded.table] at none
    cases none
    unfold verifyBlock
    rw [bind_of_ok (get_run a), bind_of_ok (failIf_false valid _ _),
      bind_of_error (failIf_true stored _ _)]
    exact ⟨fun ⟨v, run, _⟩ => (nomatch run), fun both => (nomatch both.2)⟩
  have start : verifyBlock codecs number i a = releasing number (verifyStored codecs number i) b := by
    unfold verifyBlock
    rw [bind_of_ok (get_run a), bind_of_ok (failIf_false valid _ _),
      bind_of_ok (failIf_false (not_not.mpr stored) _ _), bind_of_ok loaded.acquired]
  rw [start]
  cases checksums with
  | none =>
    have run : verifyStored codecs number i b = .error .exist b := by
      unfold verifyStored
      rw [bind_of_ok loaded.table]
      rfl
    rw [releasing_error run]
    exact ⟨fun ⟨v, run, _⟩ => (nomatch run), fun both => (nomatch both.2)⟩
  | some table =>
    have run := verifyStored_run held calm loaded.whole
      (spares.countFileBlocks_eq.symm ▸ below) loaded.table
    by_cases unrecorded : table i = 0 ∨ table i = 0xFFFFFFFF
    · rw [if_pos unrecorded] at run
      rw [releasing_error run]
      refine ⟨fun ⟨v, run, _⟩ => (nomatch run), fun both => ?_⟩
      have bad := of_decide_eq_true both.2
      exact absurd unrecorded (not_or.mpr ⟨bad.1, bad.2.1⟩)
    · rw [if_neg unrecorded] at run
      rw [releasing_ok run held]
      simp only [below, true_and, Option.map_some, Except.ok.injEq, exists_eq_left']
      cases mismatched (some (table i)) (packedAt b number i) <;> decide

-- The plain text of a table without sectors, if it is plain or its key can be derived.
def emptyTable (a : ReadArchive) (number size : Nat) : Option Bytes :=
  let raw := a.source.read (payloadOffset a (entryIndex a number)) size
  if has (entry a number).flags Flag.encrypted ∨ looksEncrypted raw size then
    (Crypto.deriveBlockTableSeed raw a.blockSize).map fun seed => Crypto.decryptBlock raw (seed - 1)
  else some raw

def OwnSize (a : ReadArchive) (number size : Nat) : Prop :=
  size ≤ (entry a number).packedSize.toNat ∧ payloadRange a (entryIndex a number) 0 size ∧
    (emptyTable a number size).any (fun plain => Crypto.loadLe32 plain = UInt32.ofNat size) = true

def OffsetsLoad (a : ReadArchive) (number : Nat) : Prop :=
  (a.cache number).isSome = true ∨
    if serialized (entry a number).flags then OwnSize a number (tableSize a number)
    else ¬ ((entry a number).flags &&& (Flag.encrypted ||| Flag.compressed) = Flag.encrypted ∧
      4 ≤ (entry a number).packedSize.toNat)

section empty

variable {a : ReadArchive} {number : Nat}

theorem decryptTable_empty (b : ReadArchive) (size : Nat) (raw : Bytes) :
    decryptTable a size raw none b = .error .decrypt b ∧
      ((Crypto.deriveBlockTableSeed raw a.blockSize).map fun seed =>
        Crypto.decryptBlock raw (seed - 1)).any (fun plain => Crypto.loadLe32 plain = UInt32.ofNat size) = false ∨
    ∃ seed, Crypto.deriveBlockTableSeed raw a.blockSize = some seed ∧
      Crypto.loadLe32 (Crypto.decryptBlock raw (seed - 1)) = UInt32.ofNat size ∧
      decryptTable a size raw none b = .ok ⟨Crypto.decryptBlock raw (seed - 1), some seed⟩ b := by
  unfold decryptTable
  rw [show (none.orElse fun _ => Crypto.deriveBlockTableSeed raw a.blockSize) =
    Crypto.deriveBlockTableSeed raw a.blockSize from rfl]
  cases Crypto.deriveBlockTableSeed raw a.blockSize with
  | none => exact .inl ⟨rfl, rfl⟩
  | some seed =>
    by_cases right : Crypto.loadLe32 (Crypto.decryptBlock raw (seed - 1)) = UInt32.ofNat size
    · refine .inr ⟨seed, rfl, right, ?_⟩
      simp only
      rw [bind_of_ok (failIf_false (not_not.mpr right) _ _)]
      rfl
    · refine .inl ⟨bind_of_error (failIf_true right _ _) _, ?_⟩
      simpa using right

theorem loadTable_empty (quiet : a.plan = Faults.healthy) (size : Nat) :
    succeeded (loadTable number size 1 none a) = true ↔ OwnSize a number size := by
  unfold loadTable OwnSize emptyTable
  rw [bind_of_ok (get_run a)]
  by_cases outside : (a.block (entryIndex a number)).packedSize.toNat < size ∨
      ¬ payloadRange a (entryIndex a number) 0 size
  · simp only
    rw [bind_of_error (failIf_true outside _ _)]
    constructor
    · intro done
      cases done
    · intro sound
      exact absurd outside (not_or.mpr ⟨Nat.not_lt.mpr sound.1, not_not.mpr sound.2.1⟩)
  obtain ⟨fits, range⟩ := not_or.mp outside
  have range := not_not.mp range
  have sound : size ≤ (entry a number).packedSize.toNat ∧ payloadRange a (entryIndex a number) 0 size :=
    ⟨Nat.not_lt.mp fits, range⟩
  simp only [sound, true_and]
  have inside : payloadOffset a (entryIndex a number) + size ≤ a.source.size := by
    obtain ⟨starts, ends⟩ := range
    rw [Nat.add_zero] at starts ends
    exact Nat.add_le_of_le_sub' starts ends
  rw [bind_of_ok (failIf_false outside _ _), bind_of_ok (onPlan_healthy quiet (request_healthy _)),
    bind_of_ok (onPlan_healthy quiet (sourceReadAt_healthy inside))]
  generalize a.source.read (payloadOffset a (entryIndex a number)) size = raw
  -- Whatever happened to the flags, what is left is the comparison of the first offset.
  have left : ∀ (loaded : LoadedTable) (b : ReadArchive), succeeded ((do
      failIf (Wire.le32.decodeTable loaded.raw 0 ≠ UInt32.ofNat size) .format
      failIf (ascending (Wire.le32.decodeTable loaded.raw) (a.block (entryIndex a number)).packedSize 1 = false)
        .format
      pure { table := Wire.le32.decodeTable loaded.raw, seed := loaded.seed } : Op Error ReadArchive Offsets) b) =
      decide (Crypto.loadLe32 loaded.raw = UInt32.ofNat size) := by
    intro loaded b
    have first : Wire.le32.decodeTable loaded.raw 0 = Crypto.loadLe32 loaded.raw := by
      rw [Wire.decodeTable, Nat.zero_mul, List.drop_zero]
      rfl
    have alone : ¬ ascending (Wire.le32.decodeTable loaded.raw) (a.block (entryIndex a number)).packedSize 1 = false := by
      simp [ascending]
    rw [first]
    by_cases right : Crypto.loadLe32 loaded.raw = UInt32.ofNat size
    · rw [bind_of_ok (failIf_false (not_not.mpr right) _ _), bind_of_ok (failIf_false alone _ _),
        decide_eq_true right]
      rfl
    · rw [bind_of_error (failIf_true right _ _), decide_eq_false right]
      rfl
  have flags : (a.block (entryIndex a number)).flags = (entry a number).flags := rfl
  rw [flags]
  -- The state after a dropped flag was noticed.
  obtain ⟨b, noticed, marked⟩ : ∃ b, (if looksEncrypted raw size then
      modify (setFlags (entryIndex a number) ((entry a number).flags ||| Flag.encrypted)) else pure () :
        Op Error ReadArchive Unit) a = .ok () b ∧
      (has (b.block (entryIndex a number)).flags Flag.encrypted = true ↔
        has (entry a number).flags Flag.encrypted = true ∨ looksEncrypted raw size) := by
    by_cases looks : looksEncrypted raw size
    · rw [if_pos looks]
      refine ⟨_, rfl, fun _ => .inr looks, fun _ => ?_⟩
      simp only [setFlags, if_true, or_has]
      rw [show has Flag.encrypted Flag.encrypted = true from rfl, Bool.or_true]
    · rw [if_neg looks]
      exact ⟨a, rfl, .inl, fun either => either.resolve_right looks⟩
  rw [bind_of_ok noticed, bind_of_ok (get_run b)]
  by_cases encrypted : has (entry a number).flags Flag.encrypted = true ∨ looksEncrypted raw size
  · rw [if_pos (marked.mpr encrypted), if_pos encrypted]
    rcases decryptTable_empty b size raw with ⟨failed, none⟩ | ⟨seed, derived, right, run⟩
    · rw [bind_of_error failed, none]
      exact Iff.of_eq rfl
    · rw [bind_of_ok run, left, derived]
      simp [right]
  · rw [if_neg fun set => encrypted (marked.mp set), if_neg encrypted, bind_of_ok (pure_run _ _), left]
    simp

-- Only raw members have a key to look for in their first words.
theorem detectSeed_codec {offsets : Offsets} (count : Nat) (codec : has (entry a number).flags Flag.compressed = true) :
    detectSeed number count offsets a = .ok offsets a := by
  have other : ¬ (entry a number).flags &&& (Flag.encrypted ||| Flag.compressed) = Flag.encrypted := by
    intro raw
    have clear : has ((entry a number).flags &&& (Flag.encrypted ||| Flag.compressed)) Flag.compressed = false := by
      rw [raw]
      decide
    rw [has, UInt32.and_assoc, show (Flag.encrypted ||| Flag.compressed) &&& Flag.compressed = Flag.compressed
      from by decide] at clear
    rw [has, clear] at codec
    cases codec
  unfold detectSeed
  rw [bind_of_ok (get_run a), if_neg fun all => other all.1]
  rfl

theorem detectSeed_raw (table : Nat → UInt32) :
    succeeded (detectSeed number 1 { table, seed := none } a) = true ↔
      ¬ ((entry a number).flags &&& (Flag.encrypted ||| Flag.compressed) = Flag.encrypted ∧
        4 ≤ (entry a number).packedSize.toNat) := by
  unfold detectSeed
  rw [bind_of_ok (get_run a)]
  by_cases keyed : (entry a number).flags &&& (Flag.encrypted ||| Flag.compressed) = Flag.encrypted ∧
      4 ≤ (entry a number).packedSize.toNat
  · rw [if_pos ⟨keyed.1, rfl, keyed.2⟩, bind_of_error (failIf_true (by decide) _ _)]
    refine ⟨fun done => ?_, fun without => absurd keyed without⟩
    cases done
  · rw [if_neg fun all => keyed ⟨all.1, all.2.2⟩]
    exact ⟨fun _ => keyed, fun _ => rfl⟩

theorem offsetsAcquire_empty (quiet : a.plan = Faults.healthy) (member : number < a.files)
    (empty : countFileBlocks a number = 0) :
    succeeded (offsetsAcquire number none a) = true ↔ OffsetsLoad a number := by
  unfold offsetsAcquire OffsetsLoad
  rw [bind_of_ok (get_run a), bind_of_ok (failIf_false (Nat.not_le.mpr member) _ _)]
  cases cached : a.cache number with
  | some file => exact ⟨fun _ => .inl rfl, fun _ => rfl⟩
  | none =>
    have loads : succeeded ((loadOffsets number none >>= fun file => modify (storeCache number (some file))) a) =
        succeeded (loadOffsets number none a) := by
      cases run : loadOffsets number none a with
      | ok file b => rw [bind_of_ok run]; rfl
      | error e b => rw [bind_of_error run]; rfl
    simp only [loads, Option.isSome_none, Bool.false_eq_true, false_or]
    unfold loadOffsets
    rw [bind_of_ok (get_run a), empty, bind_of_ok (failIf_false (by decide) _ _),
      bind_of_ok (onPlan_healthy quiet (request_healthy _)), bind_of_ok (onPlan_healthy quiet (request_healthy _))]
    simp only [Option.map_none]
    by_cases serial : serialized (entry a number).flags = true
    · have same : 4 * (0 + 1) + (if has (entry a number).flags Flag.sectorCrc then 4 else 0) =
          tableSize a number := by
        rw [tableSize, empty]
      rw [if_pos serial, if_pos serial, ← loadTable_empty quiet, same]
      have spares := loadTable_spares member serial 1 none
      cases run : loadTable number (tableSize a number) 1 none a with
      | error e b =>
        rw [bind_of_error run]
        exact Iff.rfl
      | ok offsets b =>
        rw [run] at spares
        have spares : Spares number a b := spares
        have codec : has (entry b number).flags Flag.compressed = true := by
          rw [spares.has_own (by decide)]
          rw [serialized, show Flag.compressed ||| Flag.compressPkzip = Flag.compressed from by decide] at serial
          exact (Bool.and_eq_true_iff.mp serial).1
        rw [bind_of_ok run, bind_of_ok (detectSeed_codec 1 codec)]
        exact ⟨fun _ => rfl, fun _ => rfl⟩
    · rw [if_neg serial, if_neg serial, bind_of_ok (pure_run _ _), ← detectSeed_raw (synthesized a number)]
      cases run : detectSeed number 1 { table := synthesized a number, seed := none } a with
      | error e b =>
        rw [bind_of_error run]
        exact Iff.rfl
      | ok offsets b =>
        rw [bind_of_ok run]
        exact ⟨fun _ => rfl, fun _ => rfl⟩

end empty

/-- An archive whose optional metadata parses, and a lossless member whose blocks all decode. -/
structure Checkable (codecs : Codecs) (a : ReadArchive) (number : Nat) : Prop where
  ordinary : Ordinary a number
  spare : Spare a number
  blocks : ∀ i, i < countFileBlocks a number → ∃ b data, offsetsAcquire number none a = .ok () b ∧
    Definite codecs b number i ∧ blockData codecs b number i = some data ∧
    data.length = unpackedBlockSize a number i ∧
    lossyBlock (entry b number).flags (packedAt b number i) (unpackedBlockSize a number i) = false
  table : ∀ b, offsetsAcquire number none a = .ok () b →
    succeeded (sectorChecksums codecs number b) = true
  attributes : ∀ e, verdict (attributesLoad codecs a) = .error e → e = .exist

structure IntegrityLaw (codecs : Codecs) (a : ReadArchive) (number : Nat) (buffer : Bytes) : Prop where
  reads : succeeded (fileRead codecs number buffer a) = true ↔
    verdict (verifyFile codecs number (applicable codecs a) a) = .ok 0
  sectors : (∃ bits, verdict (verifyFile codecs number (applicable codecs a) a) = .ok bits ∧
    has bits verifySectorCrc = true) ↔ ∃ i, BlockMismatch codecs a number i

-- There is something to look at: a checksum of the file, a block, or else sectors that can be counted.
-- Offsets that do not load are noticed only on the way to a sector table.
def Examined (codecs : Codecs) (a : ReadArchive) (number : Nat) : Prop :=
  filed (rowOf codecs a number) = true ∨ 0 < countFileBlocks a number ∨
    (OffsetsLoad a number ∧ Countable a number) ∨
    (¬ OffsetsLoad a number ∧ sectorized (entry a number).flags)

theorem Checkable.loaded {b : ReadArchive} (checkable : Checkable codecs a number)
    (quiet : a.plan = Faults.healthy) (acquired : offsetsAcquire number none a = .ok () b) :
    lossyUpTo b number (countFileBlocks a number) = false ∧
      ∃ checksums, Loaded codecs a number b checksums := by
  have spares := (offsetsAcquire_spares none).ok acquired
  obtain ⟨file, held⟩ := offsetsAcquire_held checkable.spare acquired
  have still := @sectorChecksums_still b number codecs file held (spares.steady quiet)
  have parsed := checkable.table b acquired
  cases run : sectorChecksums codecs number b with
  | error e c =>
    rw [run] at parsed
    cases parsed
  | ok checksums c =>
    rw [run, final_ok] at still
    rw [still] at run
    have each : ∀ i, i < countFileBlocks a number → Definite codecs b number i ∧
        (∃ data, blockData codecs b number i = some data ∧ data.length = unpackedBlockSize b number i) ∧
        lossyAt b number i = false := by
      intro i below
      obtain ⟨b', data, acquired', definite, content, length, lossless⟩ := checkable.blocks i below
      rw [acquired] at acquired'
      cases acquired'
      rw [lossyAt, spares.unpackedBlockSize_eq]
      exact ⟨definite, ⟨data, content, length⟩, lossless⟩
    refine ⟨?_, checksums, checkable.spare, acquired, fun i below => ?_, run⟩
    · rw [lossyUpTo, List.any_eq_false]
      intro i inside
      obtain ⟨-, -, lossless⟩ := each i (List.mem_range.mp inside)
      rw [lossless]
      decide
    · rw [spares.countFileBlocks_eq] at below
      obtain ⟨definite, content, -⟩ := each i below
      exact ⟨definite, content⟩

theorem matches_of_unfiled {row : FileAttributes} (unfiled : filed row = false) (data : Bytes) :
    matchesAttributes row data = true := by
  obtain ⟨crc, md5⟩ := Bool.or_eq_false_iff.mp unfiled
  simp [matchesAttributes, crc, md5]

theorem attested_eq (codecs : Codecs) (a : ReadArchive) (number : Nat) (data : Bytes) :
    attested codecs a number data = matchesAttributes (rowOf codecs a number) data := by
  unfold attested rowOf
  cases verdict (attributesLoad codecs a) with
  | ok view => rfl
  | error e =>
    have unfiled : filed .none = false := by decide
    exact (matches_of_unfiled unfiled data).symm

theorem succeeded_iff {α : Type} (result : EStateM.Result Error ReadArchive α) :
    succeeded result = true ↔ ∃ r, verdict result = .ok r := by
  cases result with
  | ok r a => exact ⟨fun _ => ⟨r, rfl⟩, fun _ => rfl⟩
  | error e a => exact ⟨fun refused => (nomatch refused), fun ⟨_, returned⟩ => (nomatch returned)⟩

theorem mismatchUpTo_true (a : ReadArchive) (number : Nat) (checksums : Option (Nat → UInt32)) (k : Nat) :
    mismatchUpTo a number checksums k = true ↔
      ∃ i, i < k ∧ mismatched (checksums.map (· i)) (packedAt a number i) = true := by
  simp only [mismatchUpTo, List.any_eq_true, List.mem_range]

theorem verifyFile_loaded (handle : Handle a)
    (quiet : a.plan = Faults.healthy) (ordinary : Ordinary a number) {b : ReadArchive}
    {checksums : Option (Nat → UInt32)} (loaded : Loaded codecs a number b checksums) :
    ∃ flags storage, Checks flags storage (rowOf codecs a number) ∧
      verdict (verifyFile codecs number (applicable codecs a) a) =
        if checksums.isNone ∧ filed (rowOf codecs a number) = false then .ok 0
        else if Countable a number then
          .ok (mismatchBits codecs b number flags (rowOf codecs a number) checksums
            (countFileBlocks a number))
        else .error .read := by
  obtain ⟨c, flags, agree, calm, checks, start⟩ := @verifyFile_start codecs a number handle quiet ordinary
  refine ⟨flags, _, checks, ?_⟩
  rw [start]
  by_cases idle : flags = 0
  · obtain ⟨unflagged, unfiled⟩ := checks.none.mp idle
    have spares := (offsetsAcquire_spares none).ok loaded.acquired
    obtain ⟨file, held⟩ := offsetsAcquire_held loaded.spare loaded.acquired
    have absent := @sectorChecksums_none codecs number b file held (spares.steady quiet)
      (.inl fun flagged => unflagged (spares.sectorized_iff.mp flagged))
    rw [loaded.table] at absent
    cases absent
    rw [if_pos ⟨rfl, unfiled⟩, idle]
    rfl
  · exact verifyAvailable_loaded handle quiet loaded agree calm checks idle

theorem integrityLaw_loaded (handle : Handle a)
    (quiet : a.plan = Faults.healthy) (ordinary : Ordinary a number) {b : ReadArchive}
    {checksums : Option (Nat → UInt32)} (loaded : Loaded codecs a number b checksums)
    (lossless : lossyUpTo b number (countFileBlocks a number) = false) {buffer : Bytes}
    (room : memberSize a number ≤ buffer.length) :
    IntegrityLaw codecs a number buffer ↔
      filed (rowOf codecs a number) = true ∨ Countable a number := by
  obtain ⟨filled, -, read⟩ := fileRead_loaded handle quiet ordinary loaded room
  obtain ⟨flags, storage, checks, verified⟩ := verifyFile_loaded handle quiet ordinary loaded
  have spares := (offsetsAcquire_spares none).ok loaded.acquired
  obtain ⟨file, held⟩ := offsetsAcquire_held loaded.spare loaded.acquired
  have reads : succeeded (fileRead codecs number buffer a) = true ↔ Countable a number ∧
      mismatchUpTo b number checksums (countFileBlocks a number) = false ∧
      matchesAttributes (rowOf codecs a number)
        (contentUpTo codecs b number (countFileBlocks a number)) = true := by
    rw [succeeded_iff, read, ← attested_eq, lossless, Bool.false_or]
    split
    next all => exact ⟨fun _ => all, fun _ => ⟨_, rfl⟩⟩
    next failed => exact ⟨fun ⟨_, returned⟩ => (nomatch returned), fun all => absurd all failed⟩
  have sectors : (∃ i, BlockMismatch codecs a number i) ↔
      mismatchUpTo b number checksums (countFileBlocks a number) = true := by
    rw [mismatchUpTo_true]
    exact exists_congr fun i => blockMismatch_iff quiet loaded i
  by_cases idle : checksums.isNone = true ∧ filed (rowOf codecs a number) = false
  · -- Nothing is compared, so only the count of the sectors is left to decide.
    obtain ⟨absent, unfiled⟩ := idle
    rw [if_pos ⟨absent, unfiled⟩] at verified
    rw [Option.isNone_iff_eq_none] at absent
    subst absent
    have clean : ∀ k, mismatchUpTo b number none k = false := by
      intro k
      rw [Bool.eq_false_iff, Ne, mismatchUpTo_true]
      exact fun ⟨i, _, bad⟩ => (nomatch bad)
    rw [clean] at reads sectors
    rw [matches_of_unfiled unfiled] at reads
    constructor
    · intro law
      exact .inr (reads.mp (law.reads.mpr verified)).1
    · intro examined
      have countable : Countable a number := examined.resolve_left (by simp [unfiled])
      refine ⟨?_, ?_⟩
      · rw [reads, verified]
        exact ⟨fun _ => rfl, fun _ => ⟨countable, rfl, rfl⟩⟩
      · rw [sectors, verified]
        exact ⟨fun ⟨bits, same, set⟩ => by cases same; exact absurd set (by decide), fun bad => (nomatch bad)⟩
  · rw [if_neg idle] at verified
    have examined : filed (rowOf codecs a number) = true ∨ Countable a number := by
      by_cases wraps : Countable a number
      · exact .inr wraps
      refine .inl ?_
      by_contra unfiled
      have empty := countFileBlocks_overflow handle.blockSize_pos wraps
      rw [← spares.countFileBlocks_eq] at empty
      have absent := @sectorChecksums_none codecs number b file held (spares.steady quiet) (.inr empty)
      rw [loaded.table] at absent
      cases absent
      exact idle ⟨rfl, by simpa using unfiled⟩
    refine ⟨fun _ => examined, fun _ => ⟨?_, ?_⟩⟩
    · rw [reads, verified]
      split
      next counts =>
        rw [Except.ok.injEq, mismatchBits_zero checks]
        exact ⟨fun all => all.2, fun both => ⟨counts, both⟩⟩
      next wraps => exact ⟨fun all => absurd all.1 wraps, fun returned => (nomatch returned)⟩
    · rw [sectors, verified]
      split
      next counts =>
        rw [← mismatchBits_sector flags (rowOf codecs a number)]
        exact ⟨fun ⟨bits, same, set⟩ => by cases same; exact set, fun set => ⟨_, rfl, set⟩⟩
      next wraps =>
        refine ⟨fun ⟨bits, returned, _⟩ => (nomatch returned), fun bad => ?_⟩
        obtain ⟨i, below, -⟩ := (mismatchUpTo_true b number checksums _).mp bad
        exact absurd (countable_of_count handle.blockSize_pos below) wraps

theorem fileRead_unopened {a' : ReadArchive} {e : Error} {buffer : Bytes} (member : number < a.files)
    (room : memberSize a number ≤ buffer.length)
    (refused : offsetsAcquire number none a = .error e a') :
    succeeded (fileRead codecs number buffer a) = false := by
  have roomy : ¬ (entry a number).unpackedSize.toNat > buffer.length := Nat.not_lt.mpr room
  have run : readMember codecs number buffer a = .error e a' := by
    unfold readMember
    rw [bind_of_ok (get_run a), bind_of_ok (failIf_false (Nat.not_le.mpr member) _ _),
      bind_of_ok (failIf_false roomy _ _), bind_of_error refused]
  unfold fileRead fileReadWith
  rw [bind_of_error run]
  rfl

theorem integrityLaw_unopened (handle : Handle a) (quiet : a.plan = Faults.healthy)
    (ordinary : Ordinary a number) {a' : ReadArchive} {e : Error}
    (refused : offsetsAcquire number none a = .error e a') (empty : countFileBlocks a number = 0)
    {buffer : Bytes} (room : memberSize a number ≤ buffer.length) :
    IntegrityLaw codecs a number buffer ↔
      filed (rowOf codecs a number) = true ∨ sectorized (entry a number).flags := by
  obtain ⟨c, flags, agree, calm, checks, start⟩ := @verifyFile_start codecs a number handle quiet ordinary
  have unread := @fileRead_unopened codecs a number a' e buffer ordinary.member room refused
  have noBlock : ∀ i, ¬ BlockMismatch codecs a number i := by
    rintro i ⟨v, run, -⟩
    have outside : number ≥ a.files ∨ i ≥ countFileBlocks a number := .inr (by rw [empty]; exact Nat.zero_le i)
    unfold verifyBlock at run
    rw [bind_of_ok (get_run a), bind_of_error (failIf_true outside _ _)] at run
    cases run
  by_cases idle : flags = 0
  · have verified : verdict (verifyFile codecs number (applicable codecs a) a) = .ok 0 := by
      rw [start, idle]
      rfl
    obtain ⟨unflagged, unfiled⟩ := checks.none.mp idle
    constructor
    · intro law
      have read := law.reads.mpr verified
      rw [unread] at read
      cases read
    · rintro (filed | flagged)
      · rw [unfiled] at filed
        cases filed
      · exact absurd flagged unflagged
  · have verified : verdict (verifyFile codecs number (applicable codecs a) a) = .error e := by
      rw [start]
      exact verifyAvailable_unopened agree (calm.trans quiet.symm) idle refused
    refine ⟨fun _ => ?_, fun _ => ⟨?_, ?_⟩⟩
    · by_contra neither
      obtain ⟨unfiled, unflagged⟩ := not_or.mp neither
      exact idle (checks.none.mpr ⟨unflagged, by simpa using unfiled⟩)
    · rw [unread, verified]
      exact ⟨fun read => (nomatch read), fun returned => (nomatch returned)⟩
    · rw [verified]
      exact ⟨fun ⟨_, returned, _⟩ => (nomatch returned), fun ⟨i, bad⟩ => absurd bad (noBlock i)⟩

theorem three_paths_agree (handle : Handle a) (quiet : a.plan = Faults.healthy)
    (checkable : Checkable codecs a number) {buffer : Bytes}
    (room : memberSize a number ≤ buffer.length) :
    IntegrityLaw codecs a number buffer ↔ Examined codecs a number := by
  unfold Examined
  by_cases empty : countFileBlocks a number = 0
  · have loads := @offsetsAcquire_empty a number quiet checkable.ordinary.member empty
    cases acquired : offsetsAcquire number none a with
    | ok _ b =>
      rw [acquired] at loads
      have loads : OffsetsLoad a number := loads.mp rfl
      obtain ⟨lossless, checksums, loaded⟩ := checkable.loaded quiet acquired
      rw [integrityLaw_loaded handle quiet checkable.ordinary loaded lossless room]
      simp [empty, loads]
    | error e a' =>
      rw [acquired] at loads
      have fails : ¬ OffsetsLoad a number := fun sound => Bool.noConfusion (loads.mpr sound)
      rw [integrityLaw_unopened handle quiet checkable.ordinary acquired empty room]
      simp [empty, fails]
  · have some := Nat.pos_of_ne_zero empty
    obtain ⟨b, data, acquired, -⟩ := checkable.blocks 0 some
    obtain ⟨lossless, checksums, loaded⟩ := checkable.loaded quiet acquired
    rw [integrityLaw_loaded handle quiet checkable.ordinary loaded lossless room]
    have countable := countable_of_count handle.blockSize_pos some
    simp [countable, some]

end verdicts

def unnamed (source : File) (shift : UInt16) (e : BlockEntry) : ReadArchive where
  source := source
  plan := Faults.healthy
  archiveOffset := 0
  blockSize := 512 <<< shift.toUInt32
  header :=
    { magic := headerMagic, headerSize := 32, archiveSize := 0, version := 0, blockSize := shift
      hashTableOffset := 0, blockTableOffset := 0, hashTableCount := 0, blockTableCount := 1 }
  headerEx := { extendedOffset := 0, hashTableOffsetHigh := 0, blockTableOffsetHigh := 0 }
  hash _ := { hashA := 0, hashB := 0, locale := 0, platform := 0, blockTableIndex := hashFree }
  block _ := e
  blockEx _ := 0
  blockTableIndices := (buildMap (fun _ => e) 1).indices
  blockTableDiff := (buildMap (fun _ => e) 1).diff
  files := (buildMap (fun _ => e) 1).files
  cache _ := none
  attributes := none
  attributesError := none

theorem unnamed_handle (source : File) (e : BlockEntry) {shift : UInt16} (small : shift ≤ 22) :
    Handle (unnamed source shift e) where
  blocks := show 1 * 16 ≤ 2 ^ 32 - 1 by decide
  files := rfl
  diff := rfl
  indices := rfl
  sectors := ⟨shift.toUInt32, by simpa [UInt32.le_iff_toNat_le] using UInt16.le_iff_toNat_le.mp small, rfl⟩

/-- Three bytes, stored raw. -/
def trio : ReadArchive :=
  unnamed (File.ofBytes [1, 2, 3]) 0
    { offset := 0, packedSize := 3, unpackedSize := 3, flags := Flag.exists_ }

def trioOffsets : FileCache where
  packedOffset := synthesized trio 0
  packedOffsetCount := 2
  openCount := 1
  seed := none

theorem trio_acquired : offsetsAcquire 0 none trio = .ok () (storeCache 0 (some trioOffsets) trio) := rfl

theorem trio_content :
    blockData Compression.zeroRunCodecs (storeCache 0 (some trioOffsets) trio) 0 0 = some [1, 2, 3] := by
  decide +kernel

theorem trio_checkable : Checkable Compression.zeroRunCodecs trio 0 where
  ordinary := ⟨by decide, rfl, rfl⟩
  spare := .of_none rfl
  blocks := by
    intro i below
    have first : i = 0 := Nat.lt_one_iff.mp below
    subst first
    exact ⟨_, [1, 2, 3], trio_acquired,
      definite_of_reporting Compression.zeroRunCodecs_reporting _ _ _, trio_content, rfl, rfl⟩
  table := by
    intro b acquired
    cases acquired
    rfl
  attributes := by
    intro e absent
    cases absent
    rfl

theorem three_paths_agree_three_bytes :
    Checkable Compression.zeroRunCodecs trio 0 ∧
      (IntegrityLaw Compression.zeroRunCodecs trio 0 (Bytes.zeros 3) ↔
        Examined Compression.zeroRunCodecs trio 0) :=
  ⟨trio_checkable, three_paths_agree (unnamed_handle _ _ (by decide)) rfl
    trio_checkable (by decide)⟩

/-- A member one byte larger than the largest sector, stored raw. -/
def oversized : ReadArchive :=
  unnamed File.empty 22
    { offset := 0, packedSize := 0x80000001, unpackedSize := 0x80000001, flags := Flag.exists_ }

theorem oversized_checkable : Checkable Compression.zeroRunCodecs oversized 0 where
  ordinary := ⟨by decide, rfl, rfl⟩
  spare := .of_none rfl
  blocks := by
    intro i below
    have none : countFileBlocks oversized 0 = 0 := by decide
    rw [none] at below
    exact absurd below (Nat.not_lt_zero i)
  table := by
    intro b acquired
    cases acquired
    rfl
  attributes := by
    intro e absent
    cases absent
    rfl

theorem oversized_paths_differ :
    Handle oversized ∧ Checkable Compression.zeroRunCodecs oversized 0 ∧
      ¬ IntegrityLaw Compression.zeroRunCodecs oversized 0 (Bytes.zeros 0x80000001) := by
  have handle : Handle oversized := unnamed_handle _ _ (by decide)
  refine ⟨handle, oversized_checkable, ?_⟩
  obtain ⟨lossless, checksums, loaded⟩ := oversized_checkable.loaded rfl rfl
  have room : memberSize oversized 0 ≤ (Bytes.zeros 0x80000001).length := by
    rw [Bytes.zeros_length]
    decide
  rw [integrityLaw_loaded handle rfl oversized_checkable.ordinary
    loaded lossless room]
  have unfiled : filed (rowOf Compression.zeroRunCodecs oversized 0) = false := by decide
  have wraps : ¬ Countable oversized 0 := by decide
  simp [unfiled, wraps]

end Reading

end LibMpq
