import LibMpq.WriterContents

set_option autoImplicit false

namespace LibMpq

open Effect Bits

namespace Writing

structure CreatedWith (o : CreateOptions) (a : WriteArchive) : Prop where
  valid : validateOptions o = true
  header : a.header = newHeader o
  headerEx : a.headerEx = newHeaderEx o
  capacity : a.capacity = capacityOf o
  hashCapacity : a.hashCapacity = hashCapacityOf o
  sectorSize : a.sectorSize = sectorSizeOf o
  flags : a.flags = o.flags
  attributesFlags : a.attributesFlags = o.attributes
  patchMode : a.patchMode = false

structure MadeWith (o : CreateOptions) (a : WriteArchive) : Prop extends CreatedWith o a where
  signature : a.signature = false
  strongSignature : a.strongSignature = false

theorem CreatedWith.same {o : CreateOptions} {a a' : WriteArchive} (made : CreatedWith o a)
    (same : SameParameters a a') : CreatedWith o a' := by
  obtain ⟨_, _, _, _, _, _, _, rfl⟩ := same
  exact ⟨made.valid, made.header, made.headerEx, made.capacity, made.hashCapacity, made.sectorSize, made.flags,
    made.attributesFlags, made.patchMode⟩

theorem reserveTables_ok {o : CreateOptions} {plan : Faults} {disk : Disk}
    (run : reserveTables o ⟨File.empty, 0, plan⟩ = .ok () disk) :
    disk.file = File.empty.write 0 (Bytes.zeros (min 4096 (firstPayloadOf o))) ∧
      disk.pos = firstPayloadOf o ∧ (plan = Faults.healthy → disk.Calm) ∧
      ¬ (o.version = versionOne ∧ firstPayloadOf o > uint32Max) := by
  unfold reserveTables at run
  obtain ⟨_, d, grant, run⟩ := bind_ok.mp run
  obtain ⟨_, e, grant', run⟩ := bind_ok.mp run
  obtain ⟨fits, run⟩ := failIf_bind_ok.mp run
  obtain ⟨_, f, grant'', run⟩ := bind_ok.mp run
  obtain ⟨_, g, grant''', run⟩ := bind_ok.mp run
  obtain ⟨_, h, write, run⟩ := bind_ok.mp run
  obtain ⟨file, pos⟩ := Disk.write_ok write
  have same : g.file = File.empty ∧ g.pos = 0 := by
    rw [Disk.alloc_ok grant''', Disk.alloc_ok grant'', Disk.alloc_ok grant', Disk.alloc_ok grant]
    exact ⟨rfl, rfl⟩
  have steady : plan = Faults.healthy → disk.Calm := fun calm =>
    (Disk.steady_seek _ _).ok run ((Disk.steady_write _ _).ok write
      ((Disk.steady_alloc _).ok grant''' ((Disk.steady_alloc _).ok grant''
        ((Disk.steady_alloc _).ok grant' ((Disk.steady_alloc _).ok grant calm)))))
  rw [Disk.seek_ok run] at steady ⊢
  rw [same.1, same.2] at file
  exact ⟨file, rfl, steady, fits⟩

theorem archiveCreate_contains {codecs : Codecs} {o : CreateOptions} {plan : Faults}
    {a : WriteArchive} (run : archiveCreate o plan = .ok a) :
    MadeWith o a ∧ Sound a ∧ a.current = none ∧ a.disk.pos = firstPayloadOf o ∧
      a.disk.file = File.empty.write 0 (Bytes.zeros (min 4096 (firstPayloadOf o))) ∧
      (plan = Faults.healthy → a.disk.Calm) ∧ (∀ pos, taken a pos = false) ∧
      Contains a (firstPayloadOf o) ([] : List (StoredMember codecs)) := by
  obtain ⟨valid, disk, reserved, rfl⟩ := archiveCreate_ok run
  obtain ⟨file, pos, calm, -⟩ := reserveTables_ok reserved
  have free : ∀ p, taken (newArchive o disk) p = false := fun _ => rfl
  refine ⟨⟨⟨valid, rfl, rfl, rfl, rfl, rfl, rfl, rfl, rfl⟩, rfl, rfl⟩, newArchive_sound valid disk, rfl, pos,
    file, calm, free, ?_⟩
  constructor
  case count => rfl
  case pos => exact pos.ge
  case member => exact fun i m mem => nomatch mem
  case free => exact fun _ _ => rfl
  case slots =>
    intro p used
    rw [free] at used
    cases used
  case reserved => exact fun _ some => absurd some (Nat.lt_irrefl 0)
  case rows => exact fun _ _ i m mem _ => nomatch mem

structure Grown {codecs : Codecs} (low : Nat) (a : WriteArchive) (members : List (StoredMember codecs))
    (a' : WriteArchive) (members' : List (StoredMember codecs)) : Prop where
  made : ∀ o, CreatedWith o a → CreatedWith o a'
  signed : a'.signature = a.signature ∧ a'.strongSignature = a.strongSignature
  sound : Sound a'
  contains : Contains a' low members'
  grows : members <+: members'
  names : ∀ i, i < members.length → a'.names i = a.names i
  block : ∀ i, i < members.length → a'.block i = a.block i
  hash : ∀ pos, taken a pos = true → a'.hash pos = a.hash pos
  agrees : File.Agrees a.disk.pos a.disk.file a'.disk.file
  pos : a.disk.pos ≤ a'.disk.pos
  rows : a.attributes.isSome = true → a'.attributes.isSome = true

theorem Grown.trans {codecs : Codecs} {low : Nat} {a b c : WriteArchive}
    {members members' members'' : List (StoredMember codecs)} (first : Grown low a members b members')
    (second : Grown low b members' c members'') : Grown low a members c members'' where
  made o made := second.made o (first.made o made)
  signed := ⟨second.signed.1.trans first.signed.1, second.signed.2.trans first.signed.2⟩
  sound := second.sound
  contains := second.contains
  grows := first.grows.trans second.grows
  names i inside := by
    have more := first.grows.length_le
    rw [second.names i (by omega), first.names i inside]
  block i inside := by
    have more := first.grows.length_le
    rw [second.block i (by omega), first.block i inside]
  hash pos used := by
    have kept : taken b pos = true := by
      rw [taken, first.hash pos used]
      exact used
    rw [second.hash pos kept, first.hash pos used]
  agrees := first.agrees.trans (second.agrees.mono first.pos)
  pos := first.pos.trans second.pos
  rows some := second.rows (first.rows some)

theorem Grown.settle {codecs : Codecs} {low : Nat} {a : WriteArchive}
    {members : List (StoredMember codecs)} (sound : Sound a) (contains : Contains a low members)
    (disk : Disk) (rows : Option (Nat → FileAttributes)) (internal : Bool)
    (file : disk.file = a.disk.file) (pos : disk.pos = a.disk.pos)
    (known : ∀ old, a.attributes = some old → rows = some old) :
    Grown low a members { a with disk, attributes := rows, internal } members where
  made o made := ⟨made.valid, made.header, made.headerEx, made.capacity, made.hashCapacity, made.sectorSize,
    made.flags, made.attributesFlags, made.patchMode⟩
  signed := ⟨rfl, rfl⟩
  sound := ⟨sound.version, sound.hashCapacity, sound.capacity, sound.sectorSize, sound.nextBlock,
    sound.index, sound.used⟩
  contains := by
    have moved : Contains { a with disk, attributes := rows } low members := by
      refine contains.moved rfl known ?_ pos.ge
      rw [file]
      exact File.Agrees.refl _ _
    exact ⟨moved.count, moved.pos, fun i m mem => by
      have holding := moved.member i m mem
      exact ⟨holding.holds, holding.above, holding.below, holding.high, holding.packedSize,
        holding.unpackedSize, holding.flags, holding.key, holding.version, holding.sectorSize⟩,
      moved.free, moved.slots, moved.reserved, moved.rows⟩
  grows := List.prefix_refl _
  names _ _ := rfl
  block _ _ := rfl
  hash _ _ := rfl
  agrees := by
    change File.Agrees _ _ disk.file
    rw [file]
    exact File.Agrees.refl _ _
  pos := pos.ge
  rows some := by
    obtain ⟨old, row⟩ := Option.isSome_iff_exists.mp some
    change rows.isSome = true
    rw [known old row]
    rfl

theorem freeSlot_free {a : WriteArchive} {hash1 : UInt32} {fuel slot pos : Nat}
    (found : freeSlot a hash1 fuel slot = some pos) : taken a pos = false := by
  induction fuel generalizing slot with
  | zero => cases found
  | succ fuel ih =>
    rw [freeSlot] at found
    split at found
    next free =>
      cases found
      simpa [taken] using free
    next => exact ih found

theorem fileAdd_grown {codecs : Codecs} (lossless : codecs.Lossless) {low : Nat}
    {members : List (StoredMember codecs)} {name data : Bytes} {options : FileOptions}
    {a a' : WriteArchive} (sound : Sound a) (contains : Contains a low members)
    (known : options.flags &&& ~~~storageFlags = 0) (masks : LosslessMasks options)
    (calm : has options.flags Flag.encrypted = true → a.disk.Calm) (idle : a.current = none)
    (run : fileAdd codecs name data options a = .ok () a') :
    ∃ members', Grown low a members a' members' ∧ a'.current = none ∧
      (data ≠ [] → low < a'.disk.file.size) ∧
      ((∃ m : StoredMember codecs, Added a a' name data options m ∧ members' = members ++ [m]) ∨
        ∃ m : StoredMember codecs, Skipped a a' data m ∧ members' = members) := by
  have inv : Inv a := ⟨sound, fun w active => by rw [idle] at active; cases active⟩
  have sound' := (@fileAdd_inv codecs name data options a inv).sound
  rw [run] at sound'
  obtain ⟨same, agrees, pos, rows, outcome⟩ := fileAdd_contains lossless sound contains known masks calm run
  have made := fun o (made : CreatedWith o a) => made.same same
  have signed : a'.signature = a.signature ∧ a'.strongSignature = a.strongSignature := by
    obtain ⟨_, _, _, _, _, _, _, rfl⟩ := same
    exact ⟨rfl, rfl⟩
  have current : a'.current = none := by
    obtain ⟨_, _, _, _, _, _, _, rfl⟩ := same
    rfl
  rcases outcome with ⟨m, added, grown⟩ | ⟨m, skipped, kept⟩
  · refine ⟨members ++ [m], ⟨made, signed, sound', grown, List.prefix_append _ _, fun i inside => ?_,
      fun i inside => ?_, fun p used => ?_, agrees, pos, rows⟩, current, fun some => ?_, .inl ⟨m, added, rfl⟩⟩
    · rw [contains.count] at inside
      rw [added.names, storeAt_of_ne (by omega)]
    · rw [contains.count] at inside
      obtain ⟨entry, block⟩ := added.block
      rw [block, storeAt_of_ne (by omega)]
    · obtain ⟨free, found, hash⟩ := added.hash
      have other : p ≠ free := by
        rintro rfl
        rw [freeSlot_free found] at used
        cases used
      rw [hash, storeAt_of_ne other]
    · have holding := grown.member members.length m List.getElem?_concat_length
      have image := m.image_ne_nil (added.content ▸ some)
      have inside := holding.holds.1 image
      have above := holding.above
      have more := List.length_pos_iff.mpr image
      omega
  · refine ⟨members, ⟨made, signed, sound', kept, List.prefix_refl _, fun i inside => ?_, fun i inside => ?_,
      fun p used => ?_, agrees, pos, rows⟩, current, fun some => ?_, .inr ⟨m, skipped, rfl⟩⟩
    · rw [skipped.names]
    · rw [skipped.block]
    · rw [skipped.hash]
    · have image := m.image_ne_nil (skipped.content ▸ some)
      have inside := skipped.holds.1 image
      have above := contains.pos
      have more := List.length_pos_iff.mpr image
      omega

theorem reserveRows_grown {codecs : Codecs} {low : Nat} {a a' : WriteArchive}
    {members : List (StoredMember codecs)} (sound : Sound a) (contains : Contains a low members)
    (run : reserveRows a = .ok () a') :
    Grown low a members a' members ∧ a'.current = a.current ∧ a'.disk.file = a.disk.file ∧
      (a.attributesFlags ≠ 0 → a'.attributes.isSome = true) := by
  unfold reserveRows at run
  rw [bind_of_ok (get_run a)] at run
  split at run
  next missing =>
    obtain ⟨used, none⟩ := missing
    obtain ⟨_, b, grant, run⟩ := bind_ok.mp run
    obtain ⟨disk, granted, rfl⟩ := onDisk_ok.mp grant
    have file := Disk.alloc_ok granted
    cases run
    refine ⟨Grown.settle sound contains disk _ a.internal (by rw [file]) (by rw [file])
      fun old known => ?_, rfl, by rw [file], fun _ => rfl⟩
    rw [known] at none
    cases none
  next present =>
    obtain ⟨-, same⟩ := pure_ok.mp run
    subst same
    refine ⟨Grown.settle sound contains a'.disk a'.attributes a'.internal rfl rfl fun _ => id, rfl,
      rfl, fun used => ?_⟩
    cases known : a'.attributes with
    | some rows => rfl
    | none => exact absurd ⟨used, by rw [known]; rfl⟩ present

theorem listfileContent_ne_nil {a : WriteArchive} (some : 0 < a.nextBlock) :
    listfileContent a ≠ [] := by
  rw [listfileContent, Ne, List.append_eq_nil_iff, List.flatMap_eq_nil_iff]
  rintro ⟨none, -⟩
  exact List.append_ne_nil_of_right_ne_nil _ (List.cons_ne_nil _ _)
    (none 0 (List.mem_range.mpr some))

theorem addListfile_grown {codecs : Codecs} (lossless : codecs.Lossless) {low : Nat}
    {members : List (StoredMember codecs)} {a a' : WriteArchive} (sound : Sound a)
    (contains : Contains a low members) (idle : a.current = none)
    (run : addListfile codecs a = .ok () a') :
    ∃ members', Grown low a members a' members' ∧ a'.current = none ∧
      (∀ i m, members.length ≤ i → members'[i]? = some m →
        a'.names i = listfileName ∧ m.flags = Flag.single) ∧
      (has a.flags createListfile = true → 0 < a.nextBlock → low < a'.disk.file.size) ∧
      (has a.flags createListfile = false → a' = a) := by
  unfold addListfile at run
  rw [bind_of_ok (get_run a)] at run
  split at run
  next wanted =>
    obtain ⟨_, b, grant, run⟩ := bind_ok.mp run
    obtain ⟨disk, granted, rfl⟩ := onDisk_ok.mp grant
    have file := Disk.alloc_ok granted
    have settled := Grown.settle sound contains disk a.attributes a.internal (by rw [file])
      (by rw [file]) fun _ => id
    obtain ⟨members', grown, current, reach, outcome⟩ := fileAdd_grown lossless settled.sound
      settled.contains (by decide) (fun compressed => absurd compressed (by decide))
      (fun encrypted => absurd encrypted (by decide)) idle run
    refine ⟨members', settled.trans grown, current, fun i m past mem => ?_,
      fun _ some => reach (listfileContent_ne_nil some), fun off => ?_⟩
    · rcases outcome with ⟨m', added, rfl⟩ | ⟨m', skipped, rfl⟩
      · have here : i = members.length := by
          have inside := (List.getElem?_eq_some_iff.mp mem).1
          rw [List.length_append, List.length_singleton] at inside
          omega
        rw [here, List.getElem?_concat_length, Option.some.injEq] at mem
        subst mem
        rw [here, contains.count, added.names, added.flags]
        refine ⟨storeAt_self _ _ _, ?_⟩
        rcases effectiveOptions_flags _ _ listfileOptions with same | cleared
        · exact same
        · exact cleared
      · have inside := (List.getElem?_eq_some_iff.mp mem).1
        omega
    · rw [wanted] at off
      cases off
  next off =>
    obtain ⟨-, same⟩ := pure_ok.mp run
    subst same
    refine ⟨members, Grown.settle sound contains a'.disk a'.attributes a'.internal rfl rfl fun _ => id,
      idle, fun i m past mem => ?_, fun wanted => absurd wanted off, fun _ => rfl⟩
    have inside := (List.getElem?_eq_some_iff.mp mem).1
    omega

theorem serialize_ok {entries : Nat → FileAttributes} {count self : Nat} {flags : UInt32} {raw : Bytes}
    {plan plan' : Faults}
    (run : Attributes.serialize entries count self flags plan = .ok raw plan') :
    raw = Attributes.payload entries count self flags ∧ raw.length ≤ uint32Max ∧ self < count := by
  unfold Attributes.serialize at run
  obtain ⟨valid, run⟩ := failIf_bind_ok.mp run
  obtain ⟨fits, run⟩ := failIf_bind_ok.mp run
  obtain ⟨-, run⟩ := failIf_bind_ok.mp run
  obtain ⟨_, _, -, run⟩ := bind_ok.mp run
  obtain ⟨rfl, -⟩ := pure_ok.mp run
  refine ⟨rfl, ?_, by omega⟩
  rw [Attributes.payload_length]
  simp only [uint32Max]
  omega

def Describes {codecs : Codecs} (o : CreateOptions) (a : WriteArchive)
    (members : List (StoredMember codecs)) (i : Nat) (content : Bytes) : Prop :=
  ∃ rows, content = Attributes.payload rows (capacityOf o) i o.attributes ∧ i < capacityOf o ∧
    ∀ j m, j < i → members[j]? = some m →
      (a.signature = true → sameIdentity (a.names j) signatureName = false) →
      RowOf o.attributes m.content (rows j).crc32 (rows j).md5

theorem addAttributes_grown {codecs : Codecs} (lossless : codecs.Lossless) {o : CreateOptions}
    {low : Nat} {members : List (StoredMember codecs)} {a a' : WriteArchive} (made : CreatedWith o a)
    (sound : Sound a) (contains : Contains a low members) (idle : a.current = none)
    (reserved : a.attributesFlags ≠ 0 → a.attributes.isSome = true)
    (run : addAttributes codecs a = .ok () a') :
    ∃ members', Grown low a members a' members' ∧
      (∀ i m, members.length ≤ i → members'[i]? = some m →
        a'.names i = attributesName ∧ m.flags = Flag.compress ∧ Describes o a' members' i m.content) ∧
      (a.attributesFlags ≠ 0 → low < a'.disk.file.size) ∧ (a.attributesFlags = 0 → a' = a) := by
  unfold addAttributes at run
  rw [bind_of_ok (get_run a)] at run
  split at run
  next wanted =>
    obtain ⟨old, known⟩ := Option.isSome_iff_exists.mp (reserved wanted)
    have rows : markPatches a (a.attributes.getD fun _ => .none) = old := by
      rw [known]
      funext i
      exact if_neg (by simp [made.patchMode])
    simp only [rows, made.patchMode] at run
    rw [bind_of_ok (modify_run _ _)] at run
    obtain ⟨raw, b, serialized, run⟩ := bind_ok.mp run
    obtain ⟨disk, onPlan, rfl⟩ := onDisk_ok.mp serialized
    obtain ⟨plan, serial, rfl⟩ := Disk.onPlan_ok onPlan
    obtain ⟨rfl, -, room⟩ := serialize_ok serial
    have settled := Grown.settle sound contains { a.disk with plan } (some old) a.internal rfl rfl
      fun old' known' => by rw [known] at known'; exact known'
    obtain ⟨members', grown, current, reach, outcome⟩ := fileAdd_grown lossless settled.sound
      settled.contains (by decide) (fun _ => by decide)
      (fun encrypted => absurd encrypted (by decide)) idle run
    refine ⟨members', settled.trans grown, fun i m past mem => ?_, fun _ => reach nofun,
      fun off => absurd off wanted⟩
    have inside := (List.getElem?_eq_some_iff.mp mem).1
    rcases outcome with ⟨m', added, rfl⟩ | ⟨m', skipped, rfl⟩
    · rw [List.length_append, List.length_singleton] at inside
      obtain rfl : i = members.length := by omega
      rw [List.getElem?_concat_length, Option.some.injEq] at mem
      subst mem
      refine ⟨?_, ?_, old, ?_, ?_, fun j m before mem signed => ?_⟩
      · rw [contains.count, added.names]
        exact storeAt_self _ _ _
      · rw [added.flags]
        rcases effectiveOptions_flags _ _ attributesOptions with same | cleared
        · exact same
        · exact cleared
      · rw [added.content, contains.count, made.capacity, made.attributesFlags]
      · rw [contains.count, ← made.capacity]
        exact room
      · rw [List.getElem?_append_left before] at mem
        rw [grown.signed.1, grown.names j before] at signed
        rw [← made.attributesFlags]
        exact contains.rows old known j m mem signed
    · omega
  next off =>
    obtain ⟨-, same⟩ := pure_ok.mp run
    subst same
    refine ⟨members, Grown.settle sound contains a'.disk a'.attributes a'.internal rfl rfl fun _ => id,
      fun i m past mem => ?_, fun some => absurd some off, fun _ => rfl⟩
    have inside := (List.getElem?_eq_some_iff.mp mem).1
    omega

def withTables (a : WriteArchive) : File :=
  (a.disk.file.write a.header.hashTableOffset.toNat (hashTableBytes a)).write
    a.header.blockTableOffset.toNat (blockTableBytes a)

def tabled (a : WriteArchive) : File :=
  if a.header.version.toUInt32 = versionTwo then
    (withTables a).write a.headerEx.extendedOffset.toNat (blockExTableBytes a)
  else withTables a

def closedFile (a : WriteArchive) : File := (tabled a).write 0 (wireHeader a (tabled a).size)

theorem writeTables_ok {a : WriteArchive} {d' : Disk} (run : writeTables a a.disk = .ok () d') :
    d'.file = tabled a := by
  unfold writeTables at run
  obtain ⟨_, d₁, grant, run⟩ := bind_ok.mp run
  obtain ⟨_, d₂, hash, run⟩ := bind_ok.mp run
  obtain ⟨_, d₃, grant', run⟩ := bind_ok.mp run
  obtain ⟨_, d₄, block, run⟩ := bind_ok.mp run
  have blocked := (Disk.writeAt_ok block).1
  rw [Disk.alloc_ok grant', (Disk.writeAt_ok hash).1, Disk.alloc_ok grant] at blocked
  unfold tabled
  split at run
  next two =>
    obtain ⟨_, d₅, grant, run⟩ := bind_ok.mp run
    rw [if_pos two, (Disk.writeAt_ok run).1, Disk.alloc_ok grant, blocked]
    rfl
  next one =>
    obtain ⟨-, rfl⟩ := pure_ok.mp run
    rw [if_neg one, blocked]
    rfl

theorem writeHeader_ok {a : WriteArchive} {d d' : Disk} {size : Nat}
    (run : writeHeader a d = .ok size d') :
    size = d.file.size ∧ d.file.size ≤ uint32Max ∧
      d'.file = d.file.write 0 (wireHeader a d.file.size) := by
  unfold writeHeader at run
  obtain ⟨_, d₁, sought, run⟩ := bind_ok.mp run
  obtain ⟨_, d₂, told, run⟩ := bind_ok.mp run
  obtain ⟨rfl, moved⟩ := Disk.tell_ok told
  obtain ⟨fits, run⟩ := failIf_bind_ok.mp run
  obtain ⟨_, d₃, written, run⟩ := bind_ok.mp run
  obtain ⟨_, d₄, synced, run⟩ := bind_ok.mp run
  obtain ⟨rfl, rfl⟩ := pure_ok.mp run
  rw [Disk.seekEnd_ok sought] at moved fits written ⊢
  rw [Disk.sync_ok synced, (Disk.writeAt_ok written).1, moved]
  exact ⟨rfl, Nat.not_lt.mp fits, rfl⟩

theorem signatureFinish_unsigned {a a' : WriteArchive} {size : Nat}
    (run : signatureFinish size a = .ok () a') (weak : a.signature = false)
    (strong : a.strongSignature = false) : a' = a := by
  unfold signatureFinish at run
  rw [bind_of_ok (get_run a)] at run
  obtain ⟨disk, finished, rfl⟩ := onDisk_ok.mp run
  rw [weakFinish, strongFinish, weak, strong] at finished
  have same : disk = a.disk := (EStateM.Result.ok.inj finished).2.symm
  rw [same]

structure Closed {codecs : Codecs} (o : CreateOptions) (low : Nat) (a : WriteArchive)
    (members : List (StoredMember codecs)) (b : WriteArchive) (members' : List (StoredMember codecs)) :
    Prop where
  grown : Grown low a members b members'
  fits : (tabled b).size ≤ uint32Max
  extras : ∀ i m, members.length ≤ i → members'[i]? = some m →
    (b.names i = listfileName ∧ m.flags = Flag.single) ∨
      (b.names i = attributesName ∧ m.flags = Flag.compress ∧ Describes o b members' i m.content)
  reach : has o.flags createListfile = true ∨ o.attributes ≠ 0 → 0 < a.nextBlock →
    low < b.disk.file.size
  quiet : has o.flags createListfile = false → o.attributes = 0 → b.disk.file = a.disk.file

structure CloseSteps (codecs : Codecs) (a b₁ b₂ b c : WriteArchive) : Prop where
  idle : a.current = none
  reserved : reserveRows { a with internal := true } = .ok () b₁
  listed : addListfile codecs b₁ = .ok () b₂
  described : addAttributes codecs b₂ = .ok () b
  fits : (tabled b).size ≤ uint32Max
  written : ∃ disk, disk.file = closedFile b ∧ signatureFinish (tabled b).size { b with disk } = .ok () c

theorem archiveClose_steps {codecs : Codecs} {a a' : WriteArchive}
    (run : archiveClose codecs a = .ok () a') :
    ∃ b₁ b₂ b c, CloseSteps codecs a b₁ b₂ b c ∧ a'.disk.file = c.disk.file := by
  unfold archiveClose at run
  obtain ⟨_, c, finalized, synced⟩ := bind_ok.mp run
  obtain ⟨disk'', flushed, rfl⟩ := onDisk_ok.mp synced
  unfold finalizeArchive at finalized
  rw [bind_of_ok (get_run a)] at finalized
  obtain ⟨idle, run⟩ := failIf_bind_ok.mp finalized
  rw [bind_of_ok (modify_run _ _)] at run
  obtain ⟨_, b₁, reserved, run⟩ := bind_ok.mp run
  obtain ⟨_, b₂, listed, run⟩ := bind_ok.mp run
  obtain ⟨_, b, described, run⟩ := bind_ok.mp run
  rw [bind_of_ok (get_run b)] at run
  obtain ⟨_, d, tables, run⟩ := bind_ok.mp run
  obtain ⟨disk, written, rfl⟩ := onDisk_ok.mp tables
  have tables := writeTables_ok written
  obtain ⟨size, e, header, run⟩ := bind_ok.mp run
  obtain ⟨disk', written, rfl⟩ := onDisk_ok.mp header
  obtain ⟨rfl, fits, header⟩ := writeHeader_ok written
  change disk.file.size ≤ uint32Max at fits
  change disk'.file = disk.file.write 0 (wireHeader b disk.file.size) at header
  change signatureFinish disk.file.size _ = _ at run
  rw [tables] at fits header run
  refine ⟨b₁, b₂, b, c, ⟨by simpa using idle, reserved, listed, described, fits, disk', header, run⟩, ?_⟩
  change disk''.file = _
  rw [Disk.sync_ok flushed]

theorem CloseSteps.closed {codecs : Codecs} (lossless : codecs.Lossless) {o : CreateOptions}
    {low : Nat} {members : List (StoredMember codecs)} {a b₁ b₂ b c : WriteArchive}
    (steps : CloseSteps codecs a b₁ b₂ b c) (made : CreatedWith o a) (sound : Sound a)
    (contains : Contains a low members) : ∃ members', Closed o low a members b members' := by
  have marked := Grown.settle sound contains a.disk a.attributes true rfl rfl fun _ => id
  obtain ⟨grown₁, current, file₁, rows⟩ := reserveRows_grown marked.sound marked.contains steps.reserved
  have grown₁ := marked.trans grown₁
  have made₁ := grown₁.made o made
  obtain ⟨members₂, grown₂, idle₂, names, reach₂, quiet₂⟩ := addListfile_grown lossless grown₁.sound
    grown₁.contains (current.trans steps.idle) steps.listed
  have made₂ := grown₂.made o made₁
  have rows₂ : b₂.attributesFlags ≠ 0 → b₂.attributes.isSome = true := by
    intro used
    rw [made₂.attributesFlags] at used
    exact grown₂.rows (rows (made.attributesFlags ▸ used))
  obtain ⟨members', grown₃, describes, reach₃, quiet₃⟩ := addAttributes_grown lossless made₂
    grown₂.sound grown₂.contains idle₂ rows₂ steps.described
  refine ⟨members', grown₁.trans (grown₂.trans grown₃), steps.fits, fun i m past mem => ?_,
    fun wanted some => ?_, fun plain off => ?_⟩
  · by_cases listed : i < members₂.length
    · obtain ⟨rest, rfl⟩ := grown₃.grows
      rw [List.getElem?_append_left listed] at mem
      rw [grown₃.names i listed]
      exact .inl (names i m past mem)
    · exact .inr (describes i m (Nat.not_lt.mp listed) mem)
  · by_cases attributed : o.attributes = 0
    · have same := quiet₃ (made₂.attributesFlags.trans attributed)
      have flag := wanted.resolve_right (not_not.mpr attributed)
      rw [same]
      refine reach₂ (by rw [made₁.flags]; exact flag) ?_
      rw [← grown₁.contains.count, contains.count]
      exact some
    · exact reach₃ (by rw [made₂.attributesFlags]; exact attributed)
  · rw [quiet₃ (made₂.attributesFlags.trans off), quiet₂ (by rw [made₁.flags]; exact plain), file₁]

theorem archiveClose_ok {codecs : Codecs} (lossless : codecs.Lossless) {o : CreateOptions}
    {low : Nat} {members : List (StoredMember codecs)} {a a' : WriteArchive} (made : MadeWith o a)
    (sound : Sound a) (contains : Contains a low members)
    (run : archiveClose codecs a = .ok () a') :
    ∃ b members', Closed o low a members b members' ∧ a'.disk.file = closedFile b := by
  obtain ⟨b₁, b₂, b, c, steps, file⟩ := archiveClose_steps run
  obtain ⟨members', closed⟩ := steps.closed lossless made.toCreatedWith sound contains
  obtain ⟨disk, written, finished⟩ := steps.written
  have unsigned := signatureFinish_unsigned finished (closed.grown.signed.1.trans made.signature)
    (closed.grown.signed.2.trans made.strongSignature)
  refine ⟨b, members', closed, ?_⟩
  rw [file, unsigned]
  exact written

end Writing

end LibMpq
