import LibMpq.CompressionOutput
import LibMpq.Reader

set_option autoImplicit false

namespace LibMpq

open Effect Bits

namespace Reading

def packedRange (a : ReadArchive) (number block : Nat) (file : FileCache) : Prop :=
  number < a.files ∧ block < countFileBlocks a number ∧ block + 1 < file.packedOffsetCount ∧
    file.packedOffset block ≤ file.packedOffset (block + 1) ∧
    file.packedOffset (block + 1) ≤ (entry a number).packedSize ∧
    payloadRange a (entryIndex a number) (file.packedOffset block).toNat
      (file.packedOffset (block + 1) - file.packedOffset block).toNat

instance (a : ReadArchive) (number block : Nat) (file : FileCache) :
    Decidable (packedRange a number block file) :=
  inferInstanceAs (Decidable (_ ∧ _ ∧ _ ∧ _ ∧ _ ∧ _))

def storedBlock (a : ReadArchive) (number block : Nat) (file : FileCache) : Bytes :=
  a.source.read (payloadOffset a (entryIndex a number) + (file.packedOffset block).toNat)
    (file.packedOffset (block + 1) - file.packedOffset block).toNat

def decryptStored (a : ReadArchive) (number block : Nat) (file : FileCache) (stored : Bytes) :
    Option Bytes :=
  if has (entry a number).flags Flag.encrypted ∧
      (file.packedOffset (block + 1) - file.packedOffset block).toNat ≥ 4 then
    file.seed.map fun seed => Crypto.decryptBlock stored (seed + UInt32.ofNat block)
  else some stored

def packedBlock (a : ReadArchive) (number block : Nat) : Option Bytes :=
  match a.cache number with
  | none => none
  | some file =>
    if packedRange a number block file then
      decryptStored a number block file (storedBlock a number block file)
    else none

def blockMethod (flags : UInt32) : UInt32 :=
  if has flags Flag.compress then Flag.compressMulti
  else if has flags Flag.implode then Flag.compressPkzip
  else Flag.compressNone

def unpacked (codecs : Codecs) (flags version : UInt32) (packed : Bytes) (size : Nat) :
    Option Bytes :=
  let result := Compression.decompressBlock codecs true packed (Bytes.zeros size) (UInt32.ofNat size)
    (blockMethod flags) version
  if has flags Flag.compress ∧ has flags Flag.implode then none
  else if result.status < 0 then none
  else some (result.out.take result.status.toNatClampNeg)

-- For the stored bytes of a block the decoder stores what it reports: nothing of the result comes
-- from the buffer. (A zlib stage that asks for a dictionary reports two bytes and stores none.)
def Definite (codecs : Codecs) (a : ReadArchive) (number block : Nat) : Prop :=
  ∀ packed, packedBlock a number block = some packed → Compression.Determined fun granted out =>
    Compression.decompressBlock codecs granted packed out (UInt32.ofNat (unpackedBlockSize a number block))
      (blockMethod (entry a number).flags) a.header.version.toUInt32

theorem definite_of_reporting {codecs : Codecs} (reports : codecs.Reporting) (a : ReadArchive)
    (number block : Nat) : Definite codecs a number block :=
  fun packed _ => Compression.decompressBlock_determined reports packed _ _ _

def blockData (codecs : Codecs) (a : ReadArchive) (number block : Nat) : Option Bytes :=
  (packedBlock a number block).bind fun packed =>
    unpacked codecs (entry a number).flags a.header.version.toUInt32 packed
      (unpackedBlockSize a number block)

theorem fetch_ok {source : File} {offset size : Nat} {plan rest : Faults} {stored : Bytes}
    (run : fetch source offset size plan = (⟨stored, none⟩, rest)) :
    stored = source.read offset size := by
  unfold fetch at run
  split at run
  · cases run
  split at run
  next none =>
    cases run
    simp [none, File.read]
  next =>
    split at run
    · cases run
    · split at run <;> cases run
      rfl

theorem sourceReadAt_ok {source : File} {offset size : Nat} {plan rest : Faults} {stored : Bytes}
    (run : sourceReadAt source offset size plan = .ok stored rest) :
    stored = source.read offset size := by
  unfold sourceReadAt at run
  cases result : fetch source offset size plan with
  | mk got left =>
    obtain ⟨bytes, error⟩ := got
    rw [result] at run
    cases error with
    | none =>
      cases run
      exact fetch_ok result
    | some e => cases run

theorem readDirect_ok {source : File} {offset size : Nat} {w w' : Window} {packed : Bytes}
    (run : readDirect source offset size w = .ok packed w') : packed = source.read offset size := by
  unfold readDirect at run
  cases result : fetch source offset size w.plan with
  | mk got left =>
    obtain ⟨bytes, error⟩ := got
    rw [result] at run
    cases error with
    | none =>
      cases run
      exact fetch_ok result
    | some e => cases run

theorem readPacked_ok {a : ReadArchive} {number block : Nat} {file : FileCache} {w w' : Window}
    {packed : Bytes}
    (run : readPacked a number block file
      (file.packedOffset (block + 1) - file.packedOffset block).toNat w = .ok packed w') :
    decryptStored a number block file (storedBlock a number block file) = some packed := by
  obtain ⟨raw, _, read, run⟩ := bind_ok.mp run
  obtain ⟨_, read, -⟩ := zoom_ok.mp read
  have raw := sourceReadAt_ok read
  unfold decryptStored storedBlock
  rw [← raw]
  split at run
  next encrypted =>
    rw [if_pos encrypted]
    cases known : file.seed with
    | none =>
      rw [known] at run
      cases run
    | some seed =>
      rw [known] at run
      rw [(pure_ok.mp run).1]
      rfl
  next plain => rw [if_neg plain, (pure_ok.mp run).1]

theorem decodeInto_ok {codecs : Codecs} {packed : Bytes} {size : Nat} {method version : UInt32}
    {w w' : Window} {status : Int32}
    (run : decodeInto codecs packed size method version w = .ok status w') :
    ∃ granted, 0 ≤ status ∧ ∃ result, result = Compression.decompressBlock codecs granted packed
      w.buffer (UInt32.ofNat size) method version ∧ status = result.status ∧
        w'.buffer = result.out := by
  obtain ⟨granted, v, asked, run⟩ := bind_ok.mp run
  cases asked
  rw [bind_of_ok (get_run _)] at run
  simp only [bind_run, set_run] at run
  refine ⟨decide (w.plan 0 = none), ?_, _, rfl, ?_⟩
  all_goals
    split at run
    next step =>
      obtain ⟨nonneg, rfl⟩ := failIf_ok.mp step
      obtain ⟨rfl, rfl⟩ := pure_ok.mp run
      first | exact Int32.not_lt.mp nonneg | exact ⟨rfl, rfl⟩
    next => cases run

theorem unpackBlock_ok {codecs : Codecs} {flags version : UInt32} {packed : Bytes} {size : Nat}
    {w w' : Window} {status : Int32}
    (run : unpackBlock codecs flags version packed size w = .ok status w') :
    ¬ (has flags Flag.compress = true ∧ has flags Flag.implode = true) ∧
      decodeInto codecs packed size (blockMethod flags) version w = .ok status w' := by
  unfold unpackBlock at run
  unfold blockMethod
  cases compressed : has flags Flag.compress <;> cases imploded : has flags Flag.implode <;>
    simp only [compressed, imploded, Bool.false_eq_true, if_true, if_false] at run ⊢
  · rw [bind_of_ok (pure_run _ _), bind_of_ok (pure_run _ _),
      bind_of_ok (failIf_false (by simp [compressed]) _ _)] at run
    exact ⟨by simp, by simpa using run⟩
  · rw [bind_of_ok (pure_run _ _)] at run
    obtain ⟨status', v, decoded, run⟩ := bind_ok.mp run
    obtain ⟨-, run⟩ := failIf_bind_ok.mp run
    simp only [reduceCtorEq, and_false, if_false] at run
    obtain ⟨rfl, rfl⟩ := pure_ok.mp run
    exact ⟨by simp, decoded⟩
  · obtain ⟨status', v, decoded, run⟩ := bind_ok.mp run
    rw [bind_of_ok (pure_run _ _)] at run
    obtain ⟨-, run⟩ := failIf_bind_ok.mp run
    simp only [reduceCtorEq, false_and, if_false] at run
    obtain ⟨rfl, rfl⟩ := pure_ok.mp run
    exact ⟨by simp, decoded⟩
  · obtain ⟨_, _, _, run⟩ := bind_ok.mp run
    obtain ⟨_, _, _, run⟩ := bind_ok.mp run
    obtain ⟨conflict, -⟩ := failIf_bind_ok.mp run
    exact absurd ⟨compressed, imploded⟩ conflict

theorem packedBlock_of_read {a : ReadArchive} {number block outSize : Nat} {file : FileCache} {w w' : Window}
    {packed : Bytes} (cached : a.cache number = some file) (valid : packedRange a number block file)
    (read : (if (!has (entry a number).flags (Flag.encrypted ||| Flag.compress ||| Flag.implode) &&
          decide ((file.packedOffset (block + 1) - file.packedOffset block).toNat ≤ outSize)) = true then
        readDirect a.source (payloadOffset a (entryIndex a number) + (file.packedOffset block).toNat)
          (file.packedOffset (block + 1) - file.packedOffset block).toNat
      else do
        windowPlan (request .malloc)
        readPacked a number block file (file.packedOffset (block + 1) - file.packedOffset block).toNat) w =
      .ok packed w') : packedBlock a number block = some packed := by
  rw [packedBlock, cached]
  simp only [if_pos valid]
  split at read
  next direct =>
    have plain : has (entry a number).flags Flag.encrypted = false := by
      simp only [Bool.and_eq_true, Bool.not_eq_true', has_or, Bool.or_eq_false_iff] at direct
      exact direct.1.1.1
    rw [decryptStored, if_neg (by simp [plain]), readDirect_ok read, storedBlock]
  next =>
    obtain ⟨_, _, -, read⟩ := bind_ok.mp read
    exact readPacked_ok read

theorem blockReadAcquired_packed {codecs : Codecs} {a : ReadArchive} {number block : Nat}
    {checksum : Option UInt32} {w w' : Window} {status : Int32}
    (run : blockReadAcquired codecs a number block checksum w = .ok status w') :
    ∃ packed v, packedBlock a number block = some packed ∧
      unpackBlock codecs (entry a number).flags a.header.version.toUInt32 packed
        (unpackedBlockSize a number block) v = .ok status w' := by
  unfold blockReadAcquired at run
  obtain ⟨member, run⟩ := failIf_bind_ok.mp run
  obtain ⟨inside, run⟩ := failIf_bind_ok.mp run
  cases cached : a.cache number with
  | none =>
    rw [cached] at run
    cases run
  | some file =>
    rw [cached] at run
    simp only at run
    obtain ⟨count, run⟩ := failIf_bind_ok.mp run
    rw [bind_of_ok (get_run w)] at run
    obtain ⟨room, run⟩ := failIf_bind_ok.mp run
    obtain ⟨order, run⟩ := failIf_bind_ok.mp run
    obtain ⟨range, run⟩ := failIf_bind_ok.mp run
    obtain ⟨packed, v, read, run⟩ := bind_ok.mp run
    rw [bind_of_ok (modify_run _ _), bind_of_ok (modify_run _ _)] at run
    have valid : packedRange a number block file := by
      rw [not_or] at order
      exact ⟨Nat.not_le.mp member, Nat.not_le.mp inside, Nat.not_le.mp count,
        UInt32.not_lt.mp order.1, UInt32.not_lt.mp order.2, not_not.mp range⟩
    exact ⟨packed, _, packedBlock_of_read cached valid read, run⟩

theorem blockReadAcquired_ok {codecs : Codecs} {a : ReadArchive} {number block : Nat}
    (definite : Definite codecs a number block) {checksum : Option UInt32} {w w' : Window} {status : Int32}
    (run : blockReadAcquired codecs a number block checksum w = .ok status w') :
    ∃ data, blockData codecs a number block = some data ∧ data.length = status.toNatClampNeg ∧
      w'.buffer.take data.length = data := by
  obtain ⟨packed, v, stored, run⟩ := blockReadAcquired_packed run
  obtain ⟨exclusive, run⟩ := unpackBlock_ok run
  obtain ⟨granted, nonneg, result, decoded, returned, buffer⟩ := decodeInto_ok run
  rw [returned, decoded] at nonneg
  have determined := definite packed stored granted v.buffer
    (Bytes.zeros (unpackedBlockSize a number block)) nonneg
  simp only [← decoded, ← returned] at determined
  obtain ⟨same, fits, bytes⟩ := determined
  refine ⟨w'.buffer.take status.toNatClampNeg, ?_, ?_, ?_⟩
  · rw [blockData, stored, Option.bind_some, unpacked]
    rw [← decoded, ← returned] at nonneg
    rw [if_neg exclusive, same, if_neg (Int32.not_lt.mpr nonneg), bytes, buffer]
  · rw [buffer, List.length_take, Nat.min_eq_left fits]
  · rw [buffer, List.length_take, Nat.min_eq_left fits]

def Wider (w w' : Window) : Prop := w.buffer.length ≤ w'.buffer.length

instance : Std.Refl Wider := ⟨fun _ => le_rfl⟩

instance : IsTrans Window Wider := ⟨fun _ _ _ first second => Nat.le_trans first second⟩

theorem windowPlan_wider {α : Type} (x : Op Error Faults α) : Keeps Wider (windowPlan x) :=
  Keeps.zoom (Keeps.of_true x) fun _ _ _ => le_rfl

theorem readDirect_wider (source : File) (offset size : Nat) :
    Keeps Wider (readDirect source offset size) := by
  intro w
  have grows : ∀ stored : Bytes, w.buffer.length ≤ (Bytes.overlay stored w.buffer).length := fun _ =>
    Compression.length_le_overlay _ _
  unfold readDirect
  simp only
  split <;> exact grows _

theorem readPacked_wider (a : ReadArchive) (number block : Nat) (file : FileCache) (size : Nat) :
    Keeps Wider (readPacked a number block file size) := by
  refine Keeps.bind (windowPlan_wider _) fun packed => ?_
  split
  · cases file.seed with
    | none => exact Keeps.throw _
    | some seed => exact Keeps.pure _
  · exact Keeps.pure _

theorem decodeInto_wider (codecs : Codecs) (packed : Bytes) (size : Nat) (method version : UInt32) :
    Keeps Wider (decodeInto codecs packed size method version) := by
  intro w
  have grows := Compression.decompressBlock_length_le codecs (decide (w.plan 0 = none)) packed
    w.buffer (UInt32.ofNat size) method version
  unfold decodeInto
  simp only [bind_run, granted, get_run, set_run]
  by_cases failed : (Compression.decompressBlock codecs (decide (w.plan 0 = none)) packed w.buffer
      (UInt32.ofNat size) method version).status < 0
  · rw [failIf_true failed]
    exact grows
  · rw [failIf_false failed]
    exact grows

theorem unpackBlock_wider (codecs : Codecs) (flags version : UInt32) (packed : Bytes) (size : Nat) :
    Keeps Wider (unpackBlock codecs flags version packed size) := by
  unfold unpackBlock
  refine Keeps.bind ?_ fun _ => Keeps.bind ?_ fun _ => Keeps.bind (Keeps.failIf _ _) fun _ => ?_
  all_goals
    split
    · exact decodeInto_wider _ _ _ _ _
    · exact Keeps.pure _

theorem noteLossy_wider (flags : UInt32) (packed : Bytes) (size : Nat) :
    Keeps Wider (modify (noteLossy flags packed size) : Op Error Window PUnit) := by
  refine Keeps.modify fun w => ?_
  unfold noteLossy
  split <;> exact Nat.le_refl w.buffer.length

theorem noteMismatch_wider (checksum : Option UInt32) (packed : Bytes) :
    Keeps Wider (modify (noteMismatch checksum packed) : Op Error Window PUnit) := by
  refine Keeps.modify fun w => ?_
  unfold noteMismatch
  cases checksum with
  | none => exact Nat.le_refl w.buffer.length
  | some sum =>
    simp only
    split <;> exact Nat.le_refl w.buffer.length

theorem blockReadAcquired_wider (codecs : Codecs) (a : ReadArchive) (number block : Nat)
    (checksum : Option UInt32) : Keeps Wider (blockReadAcquired codecs a number block checksum) := by
  refine Keeps.bind (Keeps.failIf _ _) fun _ => Keeps.bind (Keeps.failIf _ _) fun _ => ?_
  cases a.cache number with
  | none => exact Keeps.throw _
  | some file =>
    refine Keeps.bind (Keeps.failIf _ _) fun _ => Keeps.bind Keeps.get fun _ => ?_
    refine Keeps.bind (Keeps.failIf _ _) fun _ => Keeps.bind (Keeps.failIf _ _) fun _ => ?_
    refine Keeps.bind (Keeps.failIf _ _) fun _ => Keeps.bind ?_ fun packed => ?_
    · split
      · exact readDirect_wider _ _ _
      · exact Keeps.bind (windowPlan_wider _) fun _ => readPacked_wider _ _ _ _ _
    · refine Keeps.bind (noteLossy_wider _ _ _) fun _ => ?_
      exact Keeps.bind (noteMismatch_wider _ _) fun _ => unpackBlock_wider _ _ _ _ _

end Reading

end LibMpq
