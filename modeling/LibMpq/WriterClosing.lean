import LibMpq.RsaPower
import LibMpq.WriterOrder
import LibMpq.WriterServing

set_option autoImplicit false

namespace LibMpq

open Effect Bits Chunked

namespace Writing

section signatures

variable {a : WriteArchive} {size : Nat}

theorem md5Range_serves (excluded fuel pos : Nat) (context : Md5) :
    Disk.Serves size (md5Range excluded size fuel pos context) := by
  induction fuel generalizing pos context with
  | zero => exact Disk.Serves.pure _
  | succ fuel ih =>
    unfold md5Range
    split
    · exact (Disk.serves_readAt _ _ (by omega)).bind fun chunk => ih _ _
    · exact Disk.Serves.pure _

theorem sha1Range_serves (fuel pos : Nat) (context : Sha1) :
    Disk.Serves size (sha1Range size fuel pos context) := by
  induction fuel generalizing pos context with
  | zero => exact Disk.Serves.pure _
  | succ fuel ih =>
    unfold sha1Range
    split
    · exact (Disk.serves_readAt _ _ (by omega)).bind fun chunk => ih _ _
    · exact Disk.Serves.pure _

theorem weakFinish_serves (weak : a.signature = true → Rsa.keyValidate a.signatureKey Rsa.rsaSize = true ∧
    a.signatureOffset + signatureSize ≤ size) : Disk.Serves size (weakFinish a size) := by
  unfold weakFinish
  split
  next signed =>
    obtain ⟨valid, inside⟩ := weak signed
    have digests : Disk.Serves size (digestArchive size a.signatureOffset) := by
      intro d calm least
      rw [digestArchive, bind_of_ok (failIf_false (by omega) _ _)]
      exact ((md5Range_serves _ _ _ _).bind fun _ => Disk.Serves.pure _) d calm least
    refine (Disk.serves_alloc _).bind fun _ => digests.bind fun digest => ?_
    have length : (Rsa.md5Encode digest).length = Rsa.rsaSize := by
      simp [Rsa.md5Encode, digest.2]
    have less := Rsa.less_of_top valid length (show (0 : UInt8) < 0x80 by decide)
    refine (Disk.Serves.fromExcept (Rsa.weakOperation_pow valid less)).bind fun _ => ?_
    refine (Disk.serves_seek _ _).bind fun _ => ?_
    exact (Disk.serves_write _ _).bind fun _ => Disk.serves_sync _
  next => exact Disk.Serves.pure _

theorem sha1_finish_length (s : Sha1) : s.finish.length = 20 := by
  simp [Sha1.finish, Sha1.storeBe32]

theorem strongFinish_serves
    (strong : a.strongSignature = true → Rsa.keyValidate a.strongSignatureKey Rsa.rsaStrongSize = true) :
    Disk.Serves size (strongFinish a size) := by
  unfold strongFinish
  split
  next signed =>
    have valid := strong signed
    refine (Disk.serves_alloc _).bind fun _ => (sha1Range_serves _ _ _).bind fun context => ?_
    have length : (strongEncoded context.finish).length = Rsa.rsaStrongSize := by
      simp [strongEncoded, sha1_finish_length]
      rfl
    have less := Rsa.less_of_top valid length (show (0x0B : UInt8) < 0x80 by decide)
    refine (Disk.Serves.fromExcept (Rsa.strongPrivateOperation_pow valid less)).bind fun _ => ?_
    refine (Disk.serves_seek _ _).bind fun _ => (Disk.serves_write _ _).bind fun _ => ?_
    exact (Disk.serves_write _ _).bind fun _ => Disk.serves_sync _
  next => exact Disk.Serves.pure _

end signatures

theorem reserveRows_calm {a : WriteArchive} (calm : a.disk.Calm) (plain : PlainRows a.attributes) :
    ∃ rows, reserveRows a = .ok () { a with attributes := rows } ∧ PlainRows rows := by
  unfold reserveRows
  rw [bind_of_ok (get_run a)]
  split
  · rw [bind_of_ok (onDisk_alloc calm _), modify_run]
    refine ⟨_, rfl, fun table same i => ?_⟩
    cases same
    rfl
  · exact ⟨a.attributes, rfl, plain⟩

theorem reserveAttributes_internal {a : WriteArchive} (calm : a.disk.Calm) (internal : a.internal = true)
    (name : Bytes) : ∃ rows, reserveAttributes name a = .ok () { a with attributes := rows } := by
  unfold reserveAttributes
  rw [bind_of_ok (get_run a)]
  split
  · rw [bind_of_ok (failIf_false (by rw [internal]; simp) _ _), bind_of_ok (failIf_false (by rw [internal]; simp) _ _)]
    cases known : a.attributes with
    | some rows =>
      have same : { a with attributes := some rows } = a := by rw [← known]
      exact ⟨some rows, by rw [same]; rfl⟩
    | none => exact ⟨some fun _ => .none, (bind_of_ok (onDisk_alloc calm _) _).trans (modify_run _ _)⟩
  · exact ⟨a.attributes, rfl⟩

theorem effectiveOptions_self {a : WriteArchive} {size : Nat} {options : FileOptions}
    (noCrc : options.flags &&& ~~~Flag.sectorCrc = options.flags)
    (noWave : options.compressionFirst &&& ~~~Compression.waveMasks = options.compressionFirst)
    (allowed_ : Compression.allowed a.header.version.toUInt32 options.compressionFirst (compressionPolicy a) = true)
    (next : options.compressionNext = 0 → options.compressionFirst = 0) :
    effectiveOptions a size options = options := by
  unfold effectiveOptions
  simp only [noCrc, noWave, allowed_, if_true, ite_self]
  split
  next zero =>
    have same : options.compressionFirst = options.compressionNext := (next zero).trans zero.symm
    cases options
    cases same
    rfl
  next => rfl

theorem allowed_own {a : WriteArchive} (sound : Sound a) {mask : UInt32}
    (own : mask = 0 ∨ mask = Stage.mask .zlib) :
    Compression.allowed a.header.version.toUInt32 mask (compressionPolicy a) = true := by
  unfold compressionPolicy
  rcases sound.version with one | two
  · rw [one]
    rcases own with rfl | rfl <;> split <;> decide
  · rw [two]
    rcases own with rfl | rfl <;> split <;> decide

-- The list of names holds each of them and a newline.
def listfileSize (a : WriteArchive) : Nat :=
  ((List.range a.nextBlock).map fun i => (a.names i).length + 1).sum +
    (if a.attributesFlags ≠ 0 then attributesName.length + 1 else 0)

theorem listfileContent_length (a : WriteArchive) : (listfileContent a).length = listfileSize a := by
  rw [listfileContent, listfileSize, List.length_append, List.length_flatMap]
  congr 1
  · simp [line]
  · split <;> simp [line]

-- What the close asks of the archive before it adds the list of names.
structure Listable (a : WriteArchive) : Prop where
  short : listfileSize a ≤ a.sectorSize
  room : a.nextBlock < a.capacity
  unique : ¬ Duplicates a listfileName listfileOptions

def Closable (a : WriteArchive) : Prop := has a.flags createListfile = true → Listable a

section own

variable {codecs : Codecs} {a : WriteArchive}

theorem duplicate_none {name : Bytes} {options : FileOptions} (indexed : Indexed a)
    (unique : ¬ Duplicates a name options) : duplicate a name options a.hashCapacity 0 = false := by
  by_contra hit
  exact unique (duplicates_of_duplicate indexed (by simpa using hit))

theorem effectiveOptions_listfile (sound : Sound a) (size : Nat) :
    effectiveOptions a size listfileOptions = listfileOptions :=
  effectiveOptions_self (by decide) (by decide) (allowed_own sound (.inl rfl)) fun _ => rfl

theorem effectiveOptions_attributes (sound : Sound a) (size : Nat) :
    effectiveOptions a size attributesOptions = attributesOptions :=
  effectiveOptions_self (by decide) (by decide) (allowed_own sound (.inr rfl)) fun zero => absurd zero (by decide)

theorem Listable.addable (listable : Listable a) (orderly : Orderly a) (idle : a.current = none)
    (internal : a.internal = true) (place : a.disk.pos + listfileSize a ≤ uint32Max) :
    Addable codecs a listfileName (listfileContent a) listfileOptions := by
  have sound := orderly.inv.sound
  have length := listfileContent_length a
  constructor
  case toAcceptable =>
    constructor
    case idle => exact idle
    case notSignature => exact fun _ => by decide +kernel
    case noMarker => decide
    case room => exact listable.room
    case methods =>
      intro b
      unfold checkOptions
      rw [bind_of_ok (failIf_false (by decide) _ _), bind_of_ok (failIf_false (fun compressed => absurd compressed.1 (by decide)) _ _)]
      exact failIf_false (by decide) _ _
    case unique => exact duplicate_none orderly.indexed listable.unique
    case sectorSize => exact sound.sectorSize.ne'
  case sound => exact sound
  case calm => exact orderly.calm
  case reserves => exact reserveAttributes_internal orderly.calm internal _
  case packs =>
    rw [effectiveOptions_listfile sound]
    exact packs_raw (by decide) (by decide)
  case plain =>
    rw [effectiveOptions_listfile sound]
    decide
  case unit =>
    rw [length]
    exact fun _ => listable.short
  case place => omega
  case fits =>
    rw [effectiveOptions_listfile sound, storedBound, if_neg (by decide), length]
    omega

theorem blockCountOf_le (sector : 512 ≤ a.sectorSize) (size : Nat) (flags : UInt32) :
    blockCountOf a size flags ≤ size / 512 + 1 := by
  have count : (size + a.sectorSize - 1) / a.sectorSize ≤ size / 512 + 1 := by
    have upper : size / a.sectorSize ≤ size / 512 := Nat.div_le_div_left sector (by decide)
    have step : (size + a.sectorSize) / a.sectorSize = size / a.sectorSize + 1 :=
      Nat.add_div_right _ (by omega)
    have below := Nat.div_le_div_right (c := a.sectorSize) (Nat.sub_le (size + a.sectorSize) 1)
    omega
  have wrapped := Nat.mod_le ((size + a.sectorSize - 1) / a.sectorSize) (2 ^ 32)
  unfold blockCountOf
  simp only
  split <;> split <;> omega

theorem payload_bound {rows : Nat → FileAttributes} {self : Nat} (sound : Sound a)
    (sector : 512 ≤ a.sectorSize) (tables : a.hashCapacity * hashEntryWireSize ≤ uint32Max) :
    storedBound a (Attributes.payload rows a.capacity self a.attributesFlags).length attributesOptions.flags ≤
      uint32Max := by
  have half := sound.capacity
  have columns : Attributes.columnsSize a.capacity a.attributesFlags ≤ a.capacity * 28 := by
    unfold Attributes.columnsSize
    split <;> split <;> split <;> omega
  have bits : (if has a.attributesFlags attributePatchBit then (a.capacity + 6) / 8 else 0) ≤
      (a.capacity + 6) / 8 := by
    split <;> omega
  have length := Attributes.payload_length rows a.capacity self a.attributesFlags
  have blocks := blockCountOf_le sector (Attributes.payload rows a.capacity self a.attributesFlags).length
    attributesOptions.flags
  rw [storedBound, if_pos (by decide), if_neg (by decide)]
  simp only [show hashEntryWireSize = 16 from rfl, uint32Max] at tables ⊢
  omega

theorem serialize_calm {rows : Nat → FileAttributes} {count self : Nat} {flags : UInt32} (room : self < count)
    (known : flags &&& ~~~attributesAll = 0) (plain : ∀ i, (rows i).patchBit = false)
    (fits : (Attributes.payload rows count self flags).length ≤ uint32Max) :
    Attributes.serialize rows count self flags Faults.healthy =
      .ok (Attributes.payload rows count self flags) Faults.healthy := by
  rw [Attributes.payload_length] at fits
  have valid : ¬ (count = 0 ∨ count ≤ self ∨ flags &&& ~~~attributesAll ≠ 0) := by
    simp only [known, ne_eq, not_true_eq_false, or_false]
    omega
  unfold Attributes.serialize
  rw [bind_of_ok (failIf_false valid _ _), bind_of_ok (failIf_false (Nat.not_lt.mpr fits) _ _),
    bind_of_ok (failIf_false (by simp [plain]) _ _), bind_of_ok (request_healthy _), pure_run]

-- What is left of the archive when a member of the close has been added.
structure Adds (a b : WriteArchive) (name : Bytes) : Prop where
  orderly : Orderly b
  internal : b.internal = a.internal
  idle : b.current = none
  same : Continues a b
  kept : ∀ i, i < a.nextBlock → b.names i = a.names i
  inserts : Inserts (some name) a b

theorem Orderly.adds {name data : Bytes} {options : FileOptions} {b : WriteArchive} (orderly : Orderly a)
    (run : fileAdd codecs name data options a = .ok () b) : Adds a b name := by
  obtain ⟨orderly', internal⟩ := ((stable_orders codecs).add name data options).ok run orderly
  have built := ((stable_extends codecs).add name data options).ok run orderly.inv orderly.indexed
  have inserted : Inserts (some name) a (final (addWith codecs name data.length options (fileWrite codecs data) a)) :=
    addWith_inserts (fileWrite_writesOn codecs data) (fileWrite_extends codecs data) orderly.inv orderly.indexed
  have run' : addWith codecs name data.length options (fileWrite codecs data) a = .ok () b := run
  rw [run', final_ok] at inserted
  refine ⟨orderly', internal, ?_, ((stable_continues codecs).add name data options).ok run, built.names, inserted⟩
  obtain ⟨_, _, _, _, -, -, -, rfl⟩ := fileAdd_ok run
  rfl

-- The archive once the list of names is in it, if one was asked for.
structure Listed (a b : WriteArchive) : Prop where
  orderly : Orderly b
  internal : b.internal = true
  idle : b.current = none
  same : Continues a b
  place : b.disk.pos ≤ uint32Max
  few : b.nextBlock ≤ a.nextBlock + (if has a.flags createListfile then 1 else 0)
  names : ∀ i, i < b.nextBlock → (i < a.nextBlock ∧ b.names i = a.names i) ∨ b.names i = listfileName

theorem addListfile_calm (orderly : Orderly a) (idle : a.current = none) (internal : a.internal = true)
    (closable : Closable a)
    (place : a.disk.pos + (if has a.flags createListfile then listfileSize a else 0) ≤ uint32Max) :
    ∃ b, addListfile codecs a = .ok () b ∧ Listed a b := by
  unfold addListfile
  rw [bind_of_ok (get_run a)]
  by_cases wanted : has a.flags createListfile = true
  · rw [if_pos wanted] at place
    have listable := closable wanted
    have addable : Addable codecs a listfileName (listfileContent a) listfileOptions :=
      listable.addable orderly idle internal place
    obtain ⟨b, total, run, -, short, -, pos⟩ := fileAdd_calm addable
    have added := orderly.adds run
    rw [effectiveOptions_listfile orderly.inv.sound, storedBound, if_neg (by decide),
      listfileContent_length] at short
    refine ⟨b, ?_, ?_⟩
    · rw [if_pos wanted, bind_of_ok (onDisk_alloc orderly.calm _), run]
    · refine ⟨added.orderly, added.internal.trans internal, added.idle, added.same, by omega, ?_, fun i below => ?_⟩
      · rw [if_pos wanted]
        rcases added.inserts with same | ⟨next, -⟩ <;> omega
      · by_cases old : i < a.nextBlock
        · exact .inl ⟨old, added.kept i old⟩
        · rcases added.inserts with same | ⟨next, named⟩
          · omega
          · obtain rfl : i = a.nextBlock := by omega
            exact .inr (Option.some.inj named)
  · rw [if_neg wanted] at place ⊢
    refine ⟨a, rfl, orderly, internal, idle, refl_of Continues a, place, Nat.le_add_right _ _, fun i below => ?_⟩
    exact .inl ⟨below, rfl⟩

theorem attributes_addable (orderly : Orderly a) (idle : a.current = none) (internal : a.internal = true)
    (place : a.disk.pos ≤ uint32Max) (room : a.nextBlock < a.capacity)
    (foreign : ∀ i, i < a.nextBlock → fileHash (a.names i) ≠ fileHash attributesName)
    (tables : a.hashCapacity * hashEntryWireSize ≤ uint32Max) (rows : Nat → FileAttributes) :
    Addable codecs a attributesName (Attributes.payload rows a.capacity a.nextBlock a.attributesFlags)
      attributesOptions := by
  have sound := orderly.inv.sound
  have zlib := allowed_own sound (.inr rfl)
  constructor
  case toAcceptable =>
    constructor
    case idle => exact idle
    case notSignature => exact fun _ => by decide +kernel
    case noMarker => decide
    case room => exact room
    case methods =>
      intro b
      unfold checkOptions
      rw [bind_of_ok (failIf_false (by decide) _ _), bind_of_ok (failIf_false (fun refused => ?_) _ _)]
      · exact failIf_false (by decide) _ _
      · have same : attributesOptions.compressionFirst = Stage.mask .zlib ∧
            attributesOptions.compressionNext = Stage.mask .zlib := ⟨rfl, rfl⟩
        rw [same.1, same.2, zlib] at refused
        simp at refused
    case unique =>
      refine duplicate_none orderly.indexed fun duplicates => ?_
      obtain ⟨pos, used, same, -⟩ := duplicates
      exact foreign _ (sound.index pos used) same
    case sectorSize => exact sound.sectorSize.ne'
  case sound => exact sound
  case calm => exact orderly.calm
  case reserves => exact reserveAttributes_internal orderly.calm internal _
  case packs =>
    rw [effectiveOptions_attributes sound]
    exact packs_chain (by decide) zlib zlib (by decide) (by decide)
  case plain =>
    rw [effectiveOptions_attributes sound]
    decide
  case unit => exact fun single => absurd single (by decide)
  case place => exact place
  case fits =>
    rw [effectiveOptions_attributes sound]
    exact payload_bound sound orderly.furnished.sector tables

theorem addAttributes_calm (orderly : Orderly a) (idle : a.current = none) (internal : a.internal = true)
    (place : a.disk.pos ≤ uint32Max) (room : a.attributesFlags ≠ 0 → a.nextBlock < a.capacity)
    (foreign : a.attributesFlags ≠ 0 → ∀ i, i < a.nextBlock → fileHash (a.names i) ≠ fileHash attributesName)
    (tables : a.hashCapacity * hashEntryWireSize ≤ uint32Max) :
    ∃ b, addAttributes codecs a = .ok () b ∧ Orderly b := by
  unfold addAttributes
  rw [bind_of_ok (get_run a)]
  by_cases used : a.attributesFlags ≠ 0
  · have ordinary := orderly.furnished.ordinary
    obtain ⟨rows, known, plain⟩ : ∃ rows, markPatches a (a.attributes.getD fun _ => .none) = rows ∧
        ∀ i, (rows i).patchBit = false := by
      refine ⟨_, rfl, fun i => ?_⟩
      rw [markPatches, if_neg (by simp [ordinary])]
      cases present : a.attributes with
      | some table => exact orderly.spared.rows table present i
      | none => rfl
    have orderly' : Orderly { a with attributes := some rows } := by
      have plainly : PlainRows (some rows) := fun table same => by
        cases same
        exact plain
      have marked := orderly.marked idle plainly
      rwa [← internal] at marked
    have addable := @attributes_addable codecs { a with attributes := some rows } orderly' idle internal place
      (room used) (foreign used) tables rows
    have serial := serialize_calm (room used) orderly.furnished.mask plain
      ((Nat.le_add_right _ _).trans addable.fits)
    obtain ⟨b, total, run, -⟩ := fileAdd_calm addable
    have written : onDisk (Disk.onPlan (Attributes.serialize rows a.capacity a.nextBlock a.attributesFlags))
        { a with attributes := some rows } =
          .ok (Attributes.payload rows a.capacity a.nextBlock a.attributesFlags) { a with attributes := some rows } :=
      onDisk_run (Disk.onPlan_calm orderly.calm serial)
    refine ⟨b, ?_, (orderly'.adds run).orderly⟩
    rw [if_pos used]
    simp only [known, ordinary, Bool.false_eq_true, if_false]
    rw [bind_of_ok (modify_run _ _), bind_of_ok written, run]
  · exact ⟨a, by rw [if_neg used, pure_run], orderly⟩

theorem writeHeader_oversize (a : WriteArchive) {d : Disk} (calm : d.Calm) (big : uint32Max < d.file.size) :
    writeHeader a d = .error .size { d with pos := d.file.size } := by
  have sought : ({ d with pos := d.file.size } : Disk).Calm := calm
  unfold writeHeader
  rw [bind_of_ok (Disk.seekEnd_calm calm _), bind_of_ok (Disk.tell_calm sought _),
    bind_of_error (failIf_true big _ _)]

theorem signatureFinish_calm (furnished : Furnished a) (calm : a.disk.Calm) {size : Nat}
    (below : size ≤ a.disk.file.size)
    (weak : a.signature = true → a.signatureOffset + signatureSize ≤ size) :
    ∃ c, signatureFinish size a = .ok () c ∧ c.disk.Calm := by
  have serves : Disk.Serves size (do
      weakFinish a size
      strongFinish a size) :=
    (weakFinish_serves fun signed => ⟨(furnished.weak signed).1, weak signed⟩).bind fun _ =>
      strongFinish_serves furnished.strong
  obtain ⟨_, disk, run, calm', -⟩ := serves a.disk calm below
  refine ⟨{ a with disk }, ?_, calm'⟩
  unfold signatureFinish
  rw [bind_of_ok (get_run a)]
  exact onDisk_run run

-- The archive below 4 GiB: its hash table, the payloads that are there with the list behind them,
-- and the file that is left.
structure Below (codecs : Codecs) (a : WriteArchive) : Prop where
  tables : a.hashCapacity * hashEntryWireSize ≤ uint32Max
  payloads : a.disk.pos + (if has a.flags createListfile then listfileSize a else 0) ≤ uint32Max
  whole : (final (archiveClose codecs a)).disk.file.size ≤ uint32Max

theorem archiveClose_calm (orderly : Orderly a) (internal : a.internal = false) (idle : a.current = none)
    (below : Below codecs a) (closable : Closable a) : succeeded (archiveClose codecs a) = true := by
  have calm : ({ a with internal := true } : WriteArchive).disk.Calm := orderly.calm
  obtain ⟨rows, reserved, plain⟩ := reserveRows_calm calm orderly.spared.rows
  have marked := orderly.marked idle plain
  obtain ⟨b, listed, after⟩ := @addListfile_calm codecs _ marked idle rfl
    (fun wanted => ⟨(closable wanted).short, (closable wanted).room, (closable wanted).unique⟩) below.payloads
  have described : ∃ c, addAttributes codecs b = .ok () c ∧ Orderly c := by
    obtain ⟨orderly', internal', idle', ⟨⟨_, _, _, _, _, _, _, _, rfl⟩, -⟩, place, few, names⟩ := after
    refine addAttributes_calm orderly' idle' internal' place (fun used => ?_) (fun used i inside => ?_) below.tables
    · have room := orderly.spared.room ⟨internal, used⟩
      unfold reservedSlots at room
      simp only at few ⊢
      omega
    · rcases names i inside with ⟨old, same⟩ | named
      · rw [same]
        exact orderly.spared.foreign ⟨internal, used⟩ i old
      · rw [named]
        decide +kernel
  obtain ⟨c, described, orderly'⟩ := described
  obtain ⟨_, disk, written, calm', grown⟩ := writeTables_serves c c.disk.file.size c.disk orderly'.calm le_rfl
  have steps : finalizeArchive codecs a = (do
      let size ← onDisk (writeHeader c)
      signatureFinish size) { c with disk } := by
    unfold finalizeArchive
    rw [bind_of_ok (get_run a), bind_of_ok (failIf_false (by rw [idle]; decide) _ _), bind_of_ok (modify_run _ _),
      bind_of_ok reserved, bind_of_ok listed, bind_of_ok described, bind_of_ok (get_run c),
      bind_of_ok (onDisk_run written)]
  have whole := below.whole
  rw [archiveClose] at whole ⊢
  by_cases fits : disk.file.size ≤ uint32Max
  · obtain ⟨disk', header, calm''⟩ := writeHeader_calm c calm' fits
    obtain ⟨-, -, file⟩ := writeHeader_ok header
    have kept : disk.file.size ≤ disk'.file.size := by
      rw [file]
      exact File.size_le_write _ _ _
    have furnished : Furnished { c with disk := disk' } :=
      orderly'.furnished.continues ⟨⟨disk', c.hash, c.block, c.blockEx, c.nextBlock, c.names, c.attributes,
        c.current, rfl⟩, grown.trans kept⟩
    obtain ⟨d, signed, calm₃⟩ := signatureFinish_calm furnished calm'' kept fun signed =>
      ((orderly'.furnished.weak signed).2).trans grown
    have done : finalizeArchive codecs a = .ok () d := by
      rw [steps, bind_of_ok (onDisk_run header), signed]
    rw [bind_of_ok done, onDisk_run (Disk.sync_calm calm₃ _)]
    rfl
  · have stopped : finalizeArchive codecs a =
        .error .size { c with disk := { disk with pos := disk.file.size } } := by
      rw [steps]
      refine bind_of_error ?_ _
      simp only [onDisk, zoom, writeHeader_oversize c calm' (Nat.not_le.mp fits)]
    rw [bind_of_error stopped] at whole
    exact absurd whole fits

-- The sectors that are written and the rest that waits for the next one.
structure Sliced (a : WriteArchive) (x : Bytes) (s : Active) : Prop where
  sector : s.archive.sectorSize = a.sectorSize
  plain : has s.writer.options.flags Flag.encrypted = false
  cut : s.writer.sectorIndex * a.sectorSize + s.writer.data.length = x.length
  rest : s.writer.data.length < a.sectorSize

theorem flushSector_next {s s' : Active} (run : flushSector codecs s = .ok () s')
    (plain : has s.writer.options.flags Flag.encrypted = false) :
    s'.writer.data = [] ∧ s'.writer.sectorIndex = s.writer.sectorIndex + 1 := by
  obtain ⟨_, _, _, _, -, -, -, rfl, -⟩ := flushSector_ok run fun encrypted => by
    rw [plain] at encrypted
    cases encrypted
  exact ⟨rfl, rfl⟩

theorem Sliced.step {x part : Bytes} {s s' : Active} (sliced : Sliced a x s)
    (fits : part.length ≤ (sectorBuffer codecs).room s) (run : (sectorBuffer codecs).step part s = .ok () s') :
    Sliced a (x ++ part) s' := by
  obtain ⟨sector, plain, cut, rest⟩ := sliced
  change part.length ≤ s.archive.sectorSize - s.writer.data.length at fits
  have left : (sectorBuffer codecs).room ((sectorBuffer codecs).push part s) =
      s.archive.sectorSize - (s.writer.data ++ part).length := rfl
  rw [Buffer.step_run, left, List.length_append] at run
  split at run
  next full =>
    have run : flushSector codecs { s with writer := absorb part s.writer } = .ok () s' := run
    have follows := (flushSector_follows codecs).ok run
    obtain ⟨disk, archive⟩ := follows.archive
    obtain ⟨data, next⟩ := flushSector_next run plain
    have next : s'.writer.sectorIndex = s.writer.sectorIndex + 1 := next
    constructor
    case sector =>
      rw [archive]
      exact sector
    case plain =>
      rw [follows.flags]
      exact plain
    case cut =>
      rw [next, data, Nat.add_mul, Nat.one_mul, List.length_nil, List.length_append]
      omega
    case rest =>
      rw [data, List.length_nil]
      omega
  next more =>
    cases run
    refine ⟨sector, plain, ?_, ?_⟩
    · change s.writer.sectorIndex * a.sectorSize + (s.writer.data ++ part).length = _
      rw [List.length_append, List.length_append]
      omega
    · change (s.writer.data ++ part).length < _
      rw [List.length_append]
      omega

-- A member that is stored as one unit fits into one sector.
theorem fileAdd_single {name data : Bytes} {options : FileOptions} {b : WriteArchive}
    (single : has options.flags Flag.single = true) (plain : has options.flags Flag.encrypted = false)
    (sector : 0 < a.sectorSize) (run : fileAdd codecs name data options a = .ok () b) :
    data.length ≤ a.sectorSize := by
  obtain ⟨w, c, s, s', prepared, wrote, ended, rfl⟩ := fileAdd_ok run
  have begun := prepareWriter_begun prepared
  have follows := (streamWrite_follows codecs data).ok wrote
  obtain ⟨disk, rows, rfl⟩ := begun.ready.archive
  obtain ⟨offsets, checksums, writer⟩ := begun.writer
  have buffer : w.sectorIndex = 0 ∧ w.data = [] := by
    rw [writer]
    exact ⟨rfl, rfl⟩
  have count : w.blockCount = 1 := by
    rw [writer]
    exact blockCountOf_single (by rw [effectiveOptions_has _ _ _ (by decide), single])
  have start : Sliced a [] ⟨w, { a with disk, attributes := rows, current := some w }⟩ := by
    constructor
    case sector => rfl
    case plain =>
      rw [writer]
      exact (effectiveOptions_has _ _ _ (by decide)).trans plain
    case cut => rw [buffer.1, buffer.2, Nat.zero_mul, Nat.zero_add]
    case rest =>
      rw [buffer.2]
      exact sector
  have sliced : Sliced a data s := by
    unfold streamWrite at wrote
    rw [bind_of_ok (get_run _)] at wrote
    obtain ⟨-, feed⟩ := failIf_bind_ok.mp wrote
    exact Buffer.feed_ok (P := Sliced a) (fun x part s s' sliced fits run => sliced.step fits run)
      (fun x s sliced => Nat.sub_pos_of_lt (by rw [sliced.sector]; exact sliced.rest)) start (Nat.le_succ _) feed
  have blocks : s.writer.blockCount = 1 := follows.blockCount.trans count
  unfold streamEnd at ended
  rw [bind_of_ok (get_run _)] at ended
  obtain ⟨_, t, flushed, finished⟩ := bind_ok.mp ended
  obtain ⟨total, u, closed, -⟩ := bind_ok.mp finished
  obtain ⟨-, index, -⟩ := closePayload_complete closed
  have cut := sliced.cut
  split at flushed
  next some_ =>
    have follows' := (flushSector_follows codecs).ok flushed
    obtain ⟨-, next⟩ := flushSector_next flushed sliced.plain
    have first : s.writer.sectorIndex = 0 := by
      have blocks' : t.writer.blockCount = s.writer.blockCount := follows'.blockCount
      have next : t.writer.sectorIndex = s.writer.sectorIndex + 1 := next
      omega
    rw [first, Nat.zero_mul, Nat.zero_add] at cut
    have := sliced.rest
    omega
  next none_ =>
    obtain ⟨-, rfl⟩ := pure_ok.mp flushed
    have index : s.writer.sectorIndex = s.writer.blockCount := index
    have empty : s.writer.data = [] := by
      by_contra some_
      exact none_ (.inl some_)
    rw [index, blocks, Nat.one_mul, empty, List.length_nil] at cut
    omega

theorem closable_of_closed {c : WriteArchive} (orderly : Orderly a) (run : archiveClose codecs a = .ok () c) :
    Closable a := by
  intro wanted
  obtain ⟨b₁, b₂, b, c, ⟨idle, reserved, listed, -⟩, -⟩ := archiveClose_steps run
  have calm : ({ a with internal := true } : WriteArchive).disk.Calm := orderly.calm
  obtain ⟨rows, reserves, plain⟩ := reserveRows_calm calm orderly.spared.rows
  cases reserved.symm.trans reserves
  have marked := orderly.marked idle plain
  have sound := marked.inv.sound
  unfold addListfile at listed
  rw [bind_of_ok (get_run _), if_pos (show has a.flags createListfile = true from wanted),
    bind_of_ok (onDisk_alloc marked.calm _)] at listed
  obtain ⟨w, d, s, s', prepared, -⟩ := fileAdd_ok listed
  obtain ⟨-, room, unique, -⟩ := prepareWriter_steps prepared
  have short := fileAdd_single (by decide) (by decide) sound.sectorSize listed
  rw [listfileContent_length] at short
  refine ⟨short, room, fun duplicates => ?_⟩
  have found := duplicate_of_published sound marked.indexed duplicates
  rw [unique] at found
  cases found

end own

/-- The close of a writer without an active member succeeds exactly if no list of names was asked for,
or the list fits into one sector and finds an entry and its name free. -/
theorem archiveClose_succeeds_iff {codecs : Codecs} {o : CreateOptions} {start : WriteArchive}
    (created : archiveCreate o Faults.healthy = .ok start) (requests : List Request)
    (idle : (serve codecs requests start).current = none) (below : Below codecs (serve codecs requests start)) :
    succeeded (archiveClose codecs (serve codecs requests start)) = true ↔
      Closable (serve codecs requests start) := by
  obtain ⟨orderly, public_⟩ := archiveCreate_orderly created
  obtain ⟨orderly', same⟩ := serve_orders codecs requests start orderly
  constructor
  · intro success
    cases run : archiveClose codecs (serve codecs requests start) with
    | ok _ c => exact closable_of_closed orderly' run
    | error e c =>
      rw [run] at success
      cases success
  · exact archiveClose_calm orderly' (same.trans public_) idle below

def described : CreateOptions where
  version := versionTwo
  maxFiles := 4
  sectorSize := 512
  flags := createListfile
  attributes := attributeCrc32 ||| attributeMd5

-- Two members, of which the second arrives in two writes.
def served : WriteArchive :=
  serve Compression.zeroRunCodecs
    [.member (.add [0x61] [0x78, 0x79] .default), .member (.begin [0x62] 3 .default), .member (.write [0x31]),
      .member (.write [0x32, 0x33]), .member .finish] (newArchive described (reserved described))

theorem archiveClose_succeeds_iff_two :
    Closable served ∧ succeeded (archiveClose Compression.zeroRunCodecs served) = true := by
  have created := archiveCreate_calm (o := described) (by decide) fun one => absurd one (by decide)
  have idle : served.current = none := by decide +kernel
  have below : Below Compression.zeroRunCodecs served := by
    constructor
    all_goals decide +kernel
  have closable : Closable served := by
    refine fun _ => ⟨by decide +kernel, by decide +kernel, fun duplicates => ?_⟩
    obtain ⟨pos, used, same, -⟩ := duplicates
    obtain ⟨orderly, -⟩ := archiveCreate_orderly created
    have index : _ < served.nextBlock := (serve_orders _ _ _ orderly).1.inv.sound.index pos used
    have other : ∀ i, i < served.nextBlock → fileHash (served.names i) ≠ fileHash listfileName := by
      decide +kernel
    exact other _ index same
  exact ⟨closable, (archiveClose_succeeds_iff created _ idle below).mpr closable⟩

def listing : CreateOptions where
  version := versionOne
  maxFiles := 4
  sectorSize := 512
  flags := createListfile
  attributes := 0

-- One member whose name alone is longer than a sector.
def longName : Request := .member (.add (List.replicate 600 0x61) [0x78] .default)

theorem listfile_too_long :
    ∃ start, archiveCreate listing Faults.healthy = .ok start ∧
      succeeded (longName.run Compression.zeroRunCodecs start) = true ∧
      (serve Compression.zeroRunCodecs [longName] start).current = none ∧
      Below Compression.zeroRunCodecs (serve Compression.zeroRunCodecs [longName] start) ∧
      succeeded (archiveClose Compression.zeroRunCodecs (serve Compression.zeroRunCodecs [longName] start)) =
        false := by
  have created := archiveCreate_calm (o := listing) (by decide) fun _ => by decide +kernel
  refine ⟨_, created, ?_, ?_, ⟨?_, ?_, ?_⟩, ?_⟩
  · decide +kernel
  · decide +kernel
  · decide +kernel
  · decide +kernel
  · decide +kernel
  · decide +kernel

end Writing

end LibMpq
