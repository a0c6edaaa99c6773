import LibMpq.Base.Probing
import LibMpq.WriterAccounting
import LibMpq.WriterHealthy

set_option autoImplicit false

namespace LibMpq

open Effect Bits Chunked

namespace Writing

def taken (a : WriteArchive) (pos : Nat) : Bool := (a.hash pos).blockTableIndex ≠ hashFree

structure Sound (a : WriteArchive) : Prop where
  version : a.header.version.toUInt32 = versionOne ∨ a.header.version.toUInt32 = versionTwo
  hashCapacity : ∃ k, k ≤ 31 ∧ a.hashCapacity = 2 ^ k
  capacity : 2 * a.capacity ≤ a.hashCapacity
  sectorSize : 0 < a.sectorSize
  nextBlock : a.nextBlock ≤ a.capacity
  index : ∀ pos, taken a pos = true → (a.hash pos).blockTableIndex.toNat < a.nextBlock
  used : (Probing.usedSlots a.hashCapacity (taken a)).card ≤ a.nextBlock

theorem Sound.congr {a : WriteArchive} (sound : Sound a) (disk : Disk)
    (rows : Option (Nat → FileAttributes)) (current : Option Writer) :
    Sound { a with disk, attributes := rows, current } :=
  ⟨sound.version, sound.hashCapacity, sound.capacity, sound.sectorSize, sound.nextBlock, sound.index,
    sound.used⟩

theorem Sound.follows {s s' : Active} (sound : Sound s.archive) (follows : Follows s s') :
    Sound s'.archive := by
  obtain ⟨disk, archive⟩ := follows.archive
  rw [archive]
  exact sound.congr disk s.archive.attributes s.archive.current

theorem slotPosition_eq {a : WriteArchive} {k : Nat} (small : k ≤ 31) (power : a.hashCapacity = 2 ^ k)
    (hash1 : UInt32) {slot : Nat} (bound : slot < 2 ^ 32) :
    slotPosition a hash1 slot = Probing.slot a.hashCapacity hash1.toNat slot := by
  have divides : 2 ^ k ∣ 2 ^ 32 := Nat.pow_dvd_pow 2 (by omega)
  have mask : 2 ^ k - 1 < 2 ^ 32 := by
    have := Nat.pow_le_pow_right (n := 2) (by omega) (show k ≤ 32 by omega)
    omega
  have low : (UInt32.ofNat (2 ^ k - 1)).toNat = 2 ^ k - 1 := UInt32.toNat_ofNat_of_lt' mask
  have step : (UInt32.ofNat slot).toNat = slot := UInt32.toNat_ofNat_of_lt' bound
  rw [slotPosition, power, UInt32.toNat_and, UInt32.toNat_add, low, step,
    Nat.and_two_pow_sub_one_eq_mod, Nat.mod_mod_of_dvd _ divides, Probing.slot]

theorem freeSlot_some {a : WriteArchive} {hash1 : UInt32} {fuel slot i : Nat} (low : slot ≤ i)
    (high : i < slot + fuel) (free : taken a (slotPosition a hash1 i) = false) :
    ∃ j, j < slot + fuel ∧ freeSlot a hash1 fuel slot = some (slotPosition a hash1 j) ∧
      taken a (slotPosition a hash1 j) = false := by
  induction fuel generalizing slot with
  | zero => omega
  | succ fuel ih =>
    rw [freeSlot]
    by_cases here : taken a (slotPosition a hash1 slot) = false
    · refine ⟨slot, by omega, ?_, here⟩
      rw [if_pos (by simpa [taken] using here)]
    · have later : slot ≠ i := by
        rintro rfl
        exact here free
      obtain ⟨j, bound, found, unused⟩ := @ih (slot + 1) (by omega) (by omega)
      refine ⟨j, by omega, ?_, unused⟩
      rw [if_neg (by simpa [taken] using here), found]

theorem Sound.exists_freeSlot {a : WriteArchive} (sound : Sound a) (room : a.nextBlock < a.capacity)
    (hash1 : UInt32) :
    ∃ pos, freeSlot a hash1 a.hashCapacity 0 = some pos ∧ pos < a.hashCapacity ∧
      taken a pos = false := by
  obtain ⟨k, small, power⟩ := sound.hashCapacity
  have bound : a.hashCapacity < 2 ^ 32 := by
    rw [power]
    exact Nat.pow_lt_pow_right (by omega) (by omega)
  have spare : (Probing.usedSlots a.hashCapacity (taken a)).card < a.hashCapacity := by
    have := sound.used
    have := sound.capacity
    omega
  obtain ⟨i, inside, free⟩ := Probing.exists_free spare hash1.toNat
  rw [← slotPosition_eq small power hash1 (by omega)] at free
  obtain ⟨j, below, found, unused⟩ := freeSlot_some (Nat.zero_le i) (by simpa using inside) free
  refine ⟨_, found, ?_, unused⟩
  rw [slotPosition_eq small power hash1 (by omega)]
  exact Probing.slot_lt (by omega) _ _

def published (w : Writer) (blockOffset total pos : Nat) (a : WriteArchive) : WriteArchive :=
  publishHash w a.nextBlock pos (publishBlock w blockOffset total a)

theorem publish_run {s : Active} (sound : Sound s.archive)
    (room : s.archive.nextBlock < s.archive.capacity) (blockOffset total : Nat) :
    ∃ pos, freeSlot s.archive (fileHash s.writer.name).hash1 s.archive.hashCapacity 0 = some pos ∧
      pos < s.archive.hashCapacity ∧ taken s.archive pos = false ∧
      publish blockOffset total s =
        .ok () { s with archive := published s.writer blockOffset total pos s.archive } := by
  obtain ⟨pos, found, inside, free⟩ := sound.exists_freeSlot room (fileHash s.writer.name).hash1
  refine ⟨pos, found, inside, free, ?_⟩
  -- The search reads only the hash table, which the block entry leaves alone.
  have unmoved : ∀ fuel slot, freeSlot (publishBlock s.writer blockOffset total s.archive)
      (fileHash s.writer.name).hash1 fuel slot =
        freeSlot s.archive (fileHash s.writer.name).hash1 fuel slot := by
    intro fuel
    induction fuel with
    | zero => exact fun _ => rfl
    | succ fuel ih =>
      intro slot
      rw [freeSlot, freeSlot, ih]
      rfl
  have found' := (unmoved s.archive.hashCapacity 0).trans found
  simp only [publish, bind_run, get_run, onArchive, zoom, modify_run]
  rw [show (publishBlock s.writer blockOffset total s.archive).hashCapacity = s.archive.hashCapacity
    from rfl, found']
  rfl

theorem published_sound {w : Writer} {a : WriteArchive} (sound : Sound a)
    (room : a.nextBlock < a.capacity) (blockOffset total pos : Nat) :
    Sound (published w blockOffset total pos a) := by
  obtain ⟨k, small, power⟩ := sound.hashCapacity
  have limit : a.hashCapacity ≤ 2 ^ 31 := power ▸ Nat.pow_le_pow_right (by omega) small
  have fits := sound.capacity
  have number : (UInt32.ofNat a.nextBlock).toNat = a.nextBlock :=
    UInt32.toNat_ofNat_of_lt' (by simp only [UInt32.size]; omega)
  refine ⟨sound.version, sound.hashCapacity, sound.capacity, sound.sectorSize, room, ?_, ?_⟩
  · intro p used
    by_cases here : p = pos
    · subst here
      simp [published, publishHash, publishBlock, storeAt, hashEntry, number]
    · have same : (published w blockOffset total pos a).hash p = a.hash p := if_neg here
      simp only [taken, same] at used ⊢
      exact Nat.lt_succ_of_lt (sound.index p used)
  · refine (@Probing.card_usedSlots_le _ pos _ _ fun p other => ?_).trans
      (Nat.add_le_add_right sound.used 1)
    simp only [taken, published, publishHash, publishBlock, storeAt, if_neg other]

def TableFits (w : Writer) : Prop := w.offsets.isSome = true → tableEntries w * 4 ≤ uint32Max

theorem Follows.tableFits {s s' : Active} (follows : Follows s s') (fits : TableFits s.writer) :
    TableFits s'.writer := by
  unfold TableFits tableEntries at *
  rw [follows.offsets, follows.checksums, follows.blockCount]
  exact fits

theorem offset_setOffset {w : Writer} (some : w.offsets.isSome = true) (i : Nat) (value : UInt32) :
    (setOffset i value w).offset i = value := by
  obtain ⟨offsets, eq⟩ := Option.isSome_iff_exists.mp some
  simp [setOffset, Writer.offset, eq, storeAt]

theorem writeChecksums_total {codecs : Codecs} {sums : Nat → UInt32} {s s' : Active} {u : Unit}
    (run : writeChecksums codecs sums s = .ok u s') {table : Nat}
    (last : (s.writer.offset s.writer.blockCount).toNat = s.writer.packedTotal + table) :
    s'.writer.packedTotal + table ≤ uint32Max := by
  unfold writeChecksums at run
  rw [bind_of_ok (get_run s)] at run
  obtain ⟨_, _, granted, run⟩ := bind_ok.mp run
  obtain ⟨_, -, rfl⟩ := streamDisk_ok.mp granted
  obtain ⟨encoded, _, packed, run⟩ := bind_ok.mp run
  obtain ⟨_, -, rfl⟩ := streamDisk_ok.mp packed
  obtain ⟨fits, run⟩ := failIf_bind_ok.mp run
  obtain ⟨_, _, stored, run⟩ := bind_ok.mp run
  obtain ⟨_, -, rfl⟩ := streamDisk_ok.mp stored
  cases run
  have bound := (s.writer.offset s.writer.blockCount).toNat_lt
  rw [last] at fits bound
  simp only [setOffset, uint32Max] at *
  omega

theorem writeOffsets_total {codecs : Codecs} {s s' : Active} {table : Nat}
    (some : s.writer.offsets.isSome = true) (small : TableFits s.writer)
    (run : writeOffsets codecs s = .ok table s') : s'.writer.packedTotal + table ≤ uint32Max := by
  have size := small some
  unfold writeOffsets at run
  rw [bind_of_ok (get_run s)] at run
  obtain ⟨fits, run⟩ := failIf_bind_ok.mp run
  have total : s.writer.packedTotal + tableEntries s.writer * 4 ≤ uint32Max := by
    omega
  rw [modifyWriter, bind_of_ok (modify_run _ s)] at run
  obtain ⟨_, t, checked, run⟩ := bind_ok.mp run
  obtain ⟨_, _, granted, run⟩ := bind_ok.mp run
  obtain ⟨_, -, rfl⟩ := streamDisk_ok.mp granted
  rw [bind_of_ok (get_run _)] at run
  obtain ⟨_, _, encrypted, run⟩ := bind_ok.mp run
  obtain ⟨_, -, rfl⟩ := streamDisk_ok.mp encrypted
  obtain ⟨_, _, stored, run⟩ := bind_ok.mp run
  obtain ⟨_, -, rfl⟩ := streamDisk_ok.mp stored
  obtain ⟨rfl, rfl⟩ := pure_ok.mp run
  cases sums : s.writer.checksums with
  | none =>
    simp only [sums] at checked
    cases checked
    exact total
  | some sums' =>
    simp only [sums] at checked
    refine writeChecksums_total checked ?_
    refine (congrArg UInt32.toNat (offset_setOffset some _ _)).trans ?_
    simp only [setOffset, UInt32.toNat_add, UInt32.toNat_ofNat', uint32Max] at total ⊢
    omega

theorem closePayload_complete {codecs : Codecs} {s s' : Active} {total : Nat}
    (run : closePayload codecs s = .ok total s') :
    s.writer.written = s.writer.expected ∧ s.writer.sectorIndex = s.writer.blockCount ∧
      s'.archive.disk.pos = s.writer.payloadOffset + total := by
  have follows := (closePayload_follows codecs).ok run
  unfold closePayload at run
  rw [bind_of_ok (get_run s)] at run
  obtain ⟨complete, run⟩ := failIf_bind_ok.mp run
  obtain ⟨table, t, written, run⟩ := bind_ok.mp run
  rw [bind_of_ok (get_run t)] at run
  obtain ⟨_, _, sought, run⟩ := bind_ok.mp run
  obtain ⟨disk, seek, rfl⟩ := streamDisk_ok.mp sought
  obtain ⟨-, run⟩ := failIf_bind_ok.mp run
  obtain ⟨rfl, rfl⟩ := pure_ok.mp run
  have same : t.writer.payloadOffset = s.writer.payloadOffset := follows.payloadOffset
  refine ⟨by omega, by omega, ?_⟩
  rw [Disk.seek_ok seek, same]

theorem closePayload_untabled {codecs : Codecs} {s s' : Active} {total : Nat}
    (untabled : s.writer.offsets.isSome = false) (run : closePayload codecs s = .ok total s') :
    ∃ disk, disk.file = s.archive.disk.file ∧ s' = { s with archive := { s.archive with disk } } := by
  unfold closePayload at run
  rw [bind_of_ok (get_run s)] at run
  obtain ⟨-, run⟩ := failIf_bind_ok.mp run
  obtain ⟨size, t, tables, run⟩ := bind_ok.mp run
  rw [untabled, if_neg (by decide)] at tables
  rw [(pure_ok.mp tables).2, bind_of_ok (get_run s)] at run
  obtain ⟨_, u, sought, run⟩ := bind_ok.mp run
  obtain ⟨disk, seek, rfl⟩ := streamDisk_ok.mp sought
  obtain ⟨-, run⟩ := failIf_bind_ok.mp run
  obtain ⟨-, rfl⟩ := pure_ok.mp run
  exact ⟨disk, by rw [Disk.seek_ok seek], rfl⟩

theorem closePayload_total {codecs : Codecs} {s s' : Active} {total : Nat} (small : TableFits s.writer)
    (run : closePayload codecs s = .ok total s') :
    total ≤ s.writer.packedTotal ∨ total ≤ uint32Max := by
  unfold closePayload at run
  rw [bind_of_ok (get_run s)] at run
  obtain ⟨-, run⟩ := failIf_bind_ok.mp run
  obtain ⟨table, t, written, run⟩ := bind_ok.mp run
  rw [bind_of_ok (get_run t)] at run
  obtain ⟨_, _, -, run⟩ := bind_ok.mp run
  obtain ⟨-, run⟩ := failIf_bind_ok.mp run
  obtain ⟨rfl, -⟩ := pure_ok.mp run
  split at written
  next some => exact .inr (writeOffsets_total some small written)
  next =>
    obtain ⟨rfl, rfl⟩ := pure_ok.mp written
    exact .inl le_rfl

structure Working (s : Active) : Prop where
  sound : Sound s.archive
  room : s.archive.nextBlock < s.archive.capacity
  noPrefix : s.writer.prefixSize = 0
  table : TableFits s.writer
  accounted : Accounted s

inductive FinishOutcome (s : Active) : EStateM.Result Error Active Unit → Prop
  | failed {e : Error} {s' : Active} : Follows s s' → FinishOutcome s (.error e s')
  | skipped {s' : Active} :
      Follows s s' → s.archive.header.version.toUInt32 = versionTwo →
      uint32Max < s.writer.payloadOffset ∨ uint32Max < s.writer.expected →
      FinishOutcome s (.ok () s')
  | published {t : Active} {total pos : Nat} :
      Follows s t → t.archive.disk.pos = s.writer.payloadOffset + total →
      total ≤ uint32Max → s.writer.payloadOffset ≤ uint32Max → s.writer.expected ≤ uint32Max →
      pos < s.archive.hashCapacity → taken s.archive pos = false →
      FinishOutcome s (.ok ()
        { t with archive := published t.writer s.writer.payloadOffset total pos t.archive })

theorem streamFinish_outcome {codecs : Codecs} {s t : Active} (working : Working s)
    (follows : Follows s t) (counted : t.writer.packedTotal ≤ t.writer.written) :
    FinishOutcome s (streamFinish codecs t) := by
  unfold streamFinish
  cases run : closePayload codecs t with
  | error e s' =>
    rw [bind_of_error run]
    exact .failed (trans_of Follows follows ((closePayload_follows codecs).error run))
  | ok total t' =>
    obtain ⟨complete, -, stop⟩ := closePayload_complete run
    have stored := closePayload_total (follows.tableFits working.table) run
    have follows' := trans_of Follows follows ((closePayload_follows codecs).ok run)
    have noPrefix : t'.writer.prefixSize = 0 := follows'.prefixSize.trans working.noPrefix
    obtain ⟨disk, archive⟩ := follows'.archive
    have offset := follows'.payloadOffset
    have expected := follows'.expected
    rw [bind_of_ok run, bind_of_ok (get_run t')]
    split
    next big =>
      unfold oversized at big
      rw [offset, expected] at big
      by_cases refused : t'.archive.header.version.toUInt32 = versionOne ∨
          t'.writer.payloadOffset >>> 32 > 2 ^ 16 - 1
      · rw [failIf_true refused]
        exact .failed follows'
      · rw [failIf_false refused]
        refine .skipped follows' ?_ ?_
        · have same : t'.archive.header.version = s.archive.header.version := by rw [archive]
          rw [same] at refused
          exact working.sound.version.resolve_left fun one => refused (.inl one)
        · have := follows.expected
          omega
    next fits =>
      unfold oversized at fits
      rw [offset, expected] at fits
      have room : t'.archive.nextBlock < t'.archive.capacity := by
        rw [archive]
        exact working.room
      obtain ⟨pos, -, inside, free, done⟩ :=
        publish_run (working.sound.follows follows') room (s.writer.payloadOffset) total
      rw [noPrefix, Nat.sub_zero, offset, done]
      refine .published follows' ?_ (by omega) (by omega) (by omega) ?_ ?_
      · rw [stop, follows.payloadOffset]
      · rw [archive] at inside
        exact inside
      · rw [archive] at free
        exact free

theorem streamEnd_outcome {codecs : Codecs} {s : Active} (working : Working s) :
    FinishOutcome s (streamEnd codecs s) := by
  have sector := working.sound.sectorSize
  have accounted := working.accounted
  unfold streamEnd
  rw [bind_of_ok (get_run s)]
  split
  next =>
    have follows := flushSector_follows codecs s
    cases run : flushSector codecs s with
    | error e s' =>
      rw [bind_of_error run]
      rw [run] at follows
      exact .failed follows
    | ok _ s' =>
      rw [bind_of_ok run]
      rw [run, final_ok] at follows
      refine streamFinish_outcome working follows ?_
      cases run ▸ flushSector_outcome codecs s with
      | done usable data written total =>
        rcases accounted with counted | ⟨-, -, e, unusable⟩
        · omega
        · cases usable.symm.trans unusable
  next idle =>
    have empty : s.writer.data = [] := by
      by_contra some
      exact idle (.inl some)
    rw [bind_of_ok (pure_run () s)]
    refine streamFinish_outcome working (refl_of Follows s) ?_
    rcases accounted with counted | ⟨-, full, -⟩
    · omega
    · simp only [empty, List.length_nil] at full
      omega

structure Inv (a : WriteArchive) : Prop where
  sound : Sound a
  current : ∀ w, a.current = some w → Working ⟨w, a⟩

theorem prepareWriter_ok {name : Bytes} {size : Int} {options : FileOptions} {a a' : WriteArchive}
    {w : Writer} (run : prepareWriter name size options .none a = .ok w a') :
    Prepares a a' ∧ a.nextBlock < a.capacity ∧ TableFits w ∧
      w.prefixSize = 0 ∧ w.packedTotal = 0 ∧ w.data = [] := by
  obtain ⟨-, room, -, -, position, b, reserved⟩ := prepareWriter_steps run
  refine ⟨(prepareWriter_prepares _ _ _ _).ok run, room, ?_⟩
  replace run := reserved
  unfold reserveOffsets at run
  split at run
  next =>
    obtain ⟨entries, run⟩ := failIf_bind_ok.mp run
    obtain ⟨_, _, -, run⟩ := bind_ok.mp run
    obtain ⟨_, _, -, run⟩ := bind_ok.mp run
    obtain ⟨rfl, -⟩ := pure_ok.mp run
    refine ⟨fun _ => ?_, rfl, rfl, rfl⟩
    have same : ∀ crc : Bool, (if (if crc = true then some fun _ => 0 else none :
        Option (Nat → UInt32)).isSome = true then 1 else 0) = if crc = true then 1 else 0 := by
      rintro (_ | _) <;> rfl
    simp only [tableEntries, same]
    simp only [uint32Max] at entries ⊢
    omega
  next =>
    obtain ⟨rfl, -⟩ := pure_ok.mp run
    exact ⟨fun some => by simp [newWriter] at some, rfl, rfl, rfl⟩

theorem fileBegin_inv {name : Bytes} {size : Int} {options : FileOptions} {a : WriteArchive}
    (inv : Inv a) : Inv (final (fileBegin name size options a)) := by
  have prepares := prepareWriter_prepares name size options .none a
  unfold fileBegin fileBeginWith
  cases run : prepareWriter name size options .none a with
  | error e a' =>
    rw [run] at prepares
    rw [bind_of_error run]
    obtain ⟨disk, rows, rfl⟩ := prepares
    refine ⟨inv.sound.congr disk rows a.current, fun w active => ?_⟩
    have working := inv.current w active
    exact ⟨inv.sound.congr disk rows a.current, working.room, working.noPrefix, working.table,
      working.accounted⟩
  | ok w a' =>
    obtain ⟨prepared, room, table, noPrefix, total, data⟩ := prepareWriter_ok run
    obtain ⟨disk, rows, rfl⟩ := prepared
    rw [bind_of_ok run]
    have sound : Sound { a with disk, attributes := rows, current := some w } :=
      inv.sound.congr disk rows (some w)
    refine ⟨sound, fun w' active => ?_⟩
    cases active
    exact ⟨sound, room, noPrefix, table, .inl (by simp [total, data])⟩

theorem fileWrite_inv {codecs : Codecs} {data : Bytes} {a : WriteArchive} (inv : Inv a) :
    Inv (final (fileWrite codecs data a)) := by
  unfold fileWrite withWriter
  cases active : a.current with
  | none => exact inv
  | some w =>
    have working := inv.current w active
    have follows := streamWrite_follows codecs data ⟨w, a⟩
    have accounted := streamWrite_accounted codecs data working.accounted
    have result : ∀ s, Follows ⟨w, a⟩ s → Accounted s →
        Inv { s.archive with current := some s.writer } := by
      intro s follows accounted
      have sound := (working.sound.follows follows).congr s.archive.disk s.archive.attributes
        (some s.writer)
      refine ⟨sound, fun w' active' => ?_⟩
      cases active'
      obtain ⟨disk, archive⟩ := follows.archive
      refine ⟨sound, ?_, follows.prefixSize.trans working.noPrefix, follows.tableFits working.table,
        accounted⟩
      rw [archive]
      exact working.room
    cases run : streamWrite codecs data ⟨w, a⟩ with
    | ok _ s =>
      rw [run] at follows accounted
      simp only [run]
      exact result s follows accounted
    | error e s =>
      rw [run] at follows accounted
      simp only [run]
      exact result s follows accounted

theorem Inv.withoutWriter {a : WriteArchive} (sound : Sound a) : Inv { a with current := none } :=
  ⟨sound.congr a.disk a.attributes none, fun _ active => nomatch active⟩

theorem fileAbort_inv {a : WriteArchive} (inv : Inv a) : Inv (final (fileAbort a)) :=
  Inv.withoutWriter inv.sound

theorem streamEnd_sound {codecs : Codecs} {s : Active} (working : Working s) :
    Sound (final (streamEnd codecs s)).archive := by
  have outcome := @streamEnd_outcome codecs s working
  generalize streamEnd codecs s = result at outcome ⊢
  cases outcome with
  | failed follows => exact working.sound.follows follows
  | skipped follows => exact working.sound.follows follows
  | published follows =>
    obtain ⟨disk, archive⟩ := follows.archive
    refine published_sound (working.sound.follows follows) ?_ _ _ _
    rw [archive]
    exact working.room

theorem fileFinish_run {codecs : Codecs} {a : WriteArchive} {w : Writer}
    (active : a.current = some w) :
    fileFinish codecs a = match streamEnd codecs ⟨w, a⟩ with
      | .ok r s => .ok r { s.archive with current := none }
      | .error e s => .error e { s.archive with current := none } := by
  simp only [fileFinish, dropWriter, withWriter, active]
  cases streamEnd codecs ⟨w, a⟩ <;> rfl

theorem fileFinish_inv {codecs : Codecs} {a : WriteArchive} (inv : Inv a) :
    Inv (final (fileFinish codecs a)) := by
  cases active : a.current with
  | none =>
    simp only [fileFinish, dropWriter, withWriter, active]
    exact Inv.withoutWriter inv.sound
  | some w =>
    have sound := @streamEnd_sound codecs _ (inv.current w active)
    rw [fileFinish_run active]
    cases run : streamEnd codecs ⟨w, a⟩ <;> rw [run] at sound <;> exact Inv.withoutWriter sound

theorem orAbort_of_ok {α : Type} {x : Op Error WriteArchive α} {a a' : WriteArchive} {r : α}
    (run : x a = .ok r a') : orAbort x a = .ok r a' := by
  simp only [orAbort, run]

theorem orAbort_of_error {α : Type} {x : Op Error WriteArchive α} {a a' : WriteArchive} {e : Error}
    (run : x a = .error e a') : orAbort x a = .error e { a' with current := none } := by
  simp only [orAbort, run]

theorem fileAdd_inv {codecs : Codecs} {name data : Bytes} {options : FileOptions} {a : WriteArchive}
    (inv : Inv a) : Inv (final (fileAdd codecs name data options a)) := by
  have begun := @fileBegin_inv name data.length options a inv
  unfold fileAdd
  cases first : fileBegin name data.length options a with
  | error e a' =>
    rw [first] at begun
    rwa [bind_of_error first]
  | ok _ a' =>
    rw [first] at begun
    have written := @fileWrite_inv codecs data a' begun
    rw [bind_of_ok first]
    cases second : fileWrite codecs data a' with
    | error e b =>
      rw [second] at written
      rw [bind_of_error (orAbort_of_error second)]
      exact Inv.withoutWriter written.sound
    | ok _ b =>
      rw [second] at written
      rw [bind_of_ok (orAbort_of_ok second)]
      exact fileFinish_inv written

inductive Call where
  | begin (name : Bytes) (size : Int) (options : FileOptions)
  | write (data : Bytes)
  | finish
  | abort
  | add (name data : Bytes) (options : FileOptions)

def Call.run (codecs : Codecs) : Call → Op Error WriteArchive Unit
  | .begin name size options => fileBegin name size options
  | .write data => fileWrite codecs data
  | .finish => fileFinish codecs
  | .abort => fileAbort
  | .add name data options => fileAdd codecs name data options

theorem Call.run_inv {codecs : Codecs} (call : Call) {a : WriteArchive} (inv : Inv a) :
    Inv (final (call.run codecs a)) := by
  cases call with
  | begin name size options => exact fileBegin_inv inv
  | write data => exact fileWrite_inv inv
  | finish => exact fileFinish_inv inv
  | abort => exact fileAbort_inv inv
  | add name data options => exact fileAdd_inv inv

/-- The states that calls lead to, whatever they return and whatever the host refuses. -/
inductive Reachable (codecs : Codecs) : WriteArchive → Prop
  | create {o : CreateOptions} {plan : Faults} {a : WriteArchive} :
      archiveCreate o plan = .ok a → Reachable codecs a
  | call (call : Call) {a : WriteArchive} : Reachable codecs a →
      Reachable codecs (final (call.run codecs a))

theorem nextPowerTwo_grow {value fuel result : Nat} (enough : value ≤ result * 2 ^ fuel)
    (limit : value ≤ 0x80000000) {k : Nat} (power : result = 2 ^ k) (small : k ≤ 31) :
    value ≤ nextPowerTwo.grow value fuel result ∧
      ∃ k, k ≤ 31 ∧ nextPowerTwo.grow value fuel result = 2 ^ k := by
  induction fuel generalizing result k with
  | zero => exact ⟨by simpa [nextPowerTwo.grow] using enough, k, small, power⟩
  | succ fuel ih =>
    rw [nextPowerTwo.grow]
    split
    next again =>
      have next : k + 1 ≤ 31 := by
        by_contra last
        have : k = 31 := by omega
        subst this
        omega
      refine ih ?_ (by rw [power, pow_succ]) next
      rw [pow_succ] at enough
      calc value ≤ result * (2 ^ fuel * 2) := enough
        _ = result * 2 * 2 ^ fuel := by ring
    next stop => exact ⟨by omega, k, small, power⟩

theorem validateOptions_ok {o : CreateOptions} (valid : validateOptions o = true) :
    (o.version = versionOne ∨ o.version = versionTwo) ∧ capacityOf o ≤ 0x40000000 ∧
      0 < sectorSizeOf o := by
  simp only [validateOptions, decide_eq_true_eq] at valid
  obtain ⟨limits, sector, -, -⟩ := valid
  refine ⟨?_, ?_, ?_⟩
  · have : ¬ o.version > versionTwo := fun late => limits (.inl late)
    have bound : o.version.toNat ≤ versionTwo.toNat := UInt32.le_iff_toNat_le.mp (UInt32.not_lt.mp this)
    have one : versionTwo.toNat = 1 := rfl
    have : o.version.toNat = 0 ∨ o.version.toNat = 1 := by omega
    exact this.imp (fun h => UInt32.toNat_inj.mp h) fun h => UInt32.toNat_inj.mp h
  · unfold capacityOf
    split
    next => omega
    next some =>
      have : ¬ o.maxFiles > 0x40000000 := fun large => limits (.inr (.inr ⟨some, large⟩))
      simpa [UInt32.lt_iff_toNat_lt] using this
  · unfold sectorSizeOf
    split
    next => omega
    next some => exact Nat.pos_of_ne_zero fun zero => some (UInt32.toNat_inj.mp zero)

theorem newArchive_sound {o : CreateOptions} (valid : validateOptions o = true) (disk : Disk) :
    Sound (newArchive o disk) := by
  obtain ⟨version, capacity, sector⟩ := validateOptions_ok valid
  obtain ⟨room, power⟩ := @nextPowerTwo_grow (capacityOf o * 2) 32 4 (by omega) (by omega) 2 rfl
    (by omega)
  have unused : ∀ pos, taken (newArchive o disk) pos = false := fun _ => rfl
  refine ⟨?_, power, ?_, sector, Nat.zero_le _, ?_, ?_⟩
  · rcases version with one | two
    · exact .inl (by simp [newArchive, newHeader, one])
    · exact .inr (by simp [newArchive, newHeader, two])
  · exact (Nat.mul_comm _ _).trans_le room
  · intro pos used
    rw [unused] at used
    cases used
  · rw [Probing.card_usedSlots_none unused]
    exact Nat.zero_le _

theorem archiveCreate_ok {o : CreateOptions} {plan : Faults} {a : WriteArchive}
    (run : archiveCreate o plan = .ok a) :
    validateOptions o = true ∧ ∃ disk, reserveTables o ⟨File.empty, 0, plan⟩ = .ok () disk ∧
      a = newArchive o disk := by
  unfold archiveCreate at run
  split at run
  next valid =>
    cases reserved : reserveTables o ⟨File.empty, 0, plan⟩ with
    | ok _ disk =>
      rw [reserved] at run
      cases run
      exact ⟨valid, disk, rfl, rfl⟩
    | error e disk =>
      rw [reserved] at run
      cases run
  next => cases run

theorem Reachable.inv {codecs : Codecs} {a : WriteArchive} (reach : Reachable codecs a) : Inv a := by
  induction reach with
  | create created =>
    obtain ⟨valid, disk, -, rfl⟩ := archiveCreate_ok created
    exact ⟨newArchive_sound valid disk, fun _ active => nomatch active⟩
  | call call _ ih => exact call.run_inv ih

/-- One new member stands in the tables. The bytes of its payload end where the next one begins. -/
structure Published (a : WriteArchive) (w : Writer) (a' : WriteArchive) : Prop where
  nextBlock : a'.nextBlock = a.nextBlock + 1
  offset : (a'.block a.nextBlock).offset.toNat + 2 ^ 32 * (a'.blockEx a.nextBlock).toNat =
    w.payloadOffset
  storedSize : w.payloadOffset + (a'.block a.nextBlock).packedSize.toNat = a'.disk.pos
  unpackedSize : (a'.block a.nextBlock).unpackedSize.toNat = w.expected
  name : a'.names a.nextBlock = w.name
  others : ∀ i, i ≠ a.nextBlock →
    a'.block i = a.block i ∧ a'.blockEx i = a.blockEx i ∧ a'.names i = a.names i
  slot : ∃ pos, pos < a.hashCapacity ∧ (a.hash pos).blockTableIndex = hashFree ∧
    (∀ p, (a'.hash p).blockTableIndex.toNat = a.nextBlock ↔ p = pos) ∧
    ∀ p, p ≠ pos → a'.hash p = a.hash p

structure Unpublished (a a' : WriteArchive) : Prop where
  nextBlock : a'.nextBlock = a.nextBlock
  block : a'.block = a.block
  blockEx : a'.blockEx = a.blockEx
  hash : a'.hash = a.hash
  names : a'.names = a.names

/-- Finishing returns zero exactly when it published the member. -/
def FinishContract (codecs : Codecs) (a : WriteArchive) (w : Writer) : Prop :=
  (succeeded (fileFinish codecs a) = true ↔ Published a w (final (fileFinish codecs a))) ∧
    (succeeded (fileFinish codecs a) = false → Unpublished a (final (fileFinish codecs a)))

/-- Version 1 has no larger members; version 2 gives up on them without saying so. -/
def Fits (a : WriteArchive) (w : Writer) : Prop :=
  a.header.version.toUInt32 = versionOne ∨
    (w.payloadOffset ≤ uint32Max ∧ w.expected ≤ uint32Max)

theorem Unpublished.not_published {a a' : WriteArchive} {w : Writer} (same : Unpublished a a') :
    ¬ Published a w a' := fun new => by
  have := new.nextBlock
  have := same.nextBlock
  omega

theorem Follows.unpublished {s s' : Active} (follows : Follows s s') :
    Unpublished s.archive { s'.archive with current := none } := by
  obtain ⟨disk, archive⟩ := follows.archive
  rw [archive]
  exact ⟨rfl, rfl, rfl, rfl, rfl⟩

theorem published_spec {a : WriteArchive} {w : Writer} {t : Active} (sound : Sound a)
    (room : a.nextBlock < a.capacity) (noPrefix : w.prefixSize = 0) (follows : Follows ⟨w, a⟩ t)
    {total pos : Nat} (stop : t.archive.disk.pos = w.payloadOffset + total)
    (small : total ≤ uint32Max) (offset : w.payloadOffset ≤ uint32Max)
    (expected : w.expected ≤ uint32Max) (inside : pos < a.hashCapacity)
    (free : taken a pos = false) :
    Published a w { published t.writer w.payloadOffset total pos t.archive with current := none } := by
  obtain ⟨k, power, capacity⟩ := sound.hashCapacity
  have limit : a.hashCapacity ≤ 2 ^ 31 := capacity ▸ Nat.pow_le_pow_right (by omega) power
  have fits := sound.capacity
  have number : (UInt32.ofNat a.nextBlock).toNat = a.nextBlock :=
    UInt32.toNat_ofNat_of_lt' (by simp only [UInt32.size]; omega)
  obtain ⟨disk, archive⟩ := follows.archive
  have noPrefix' : t.writer.prefixSize = 0 := follows.prefixSize.trans noPrefix
  have expected' : t.writer.expected = w.expected := follows.expected
  have high : w.payloadOffset >>> 32 = 0 := by
    rw [Nat.shiftRight_eq_div_pow]
    exact Nat.div_eq_of_lt (by simp only [uint32Max] at offset; omega)
  rw [archive] at stop ⊢
  refine ⟨rfl, ?_, ?_, ?_, ?_, fun i other => ?_, pos, inside, ?_, fun p => ?_, fun p other => ?_⟩
  · simp only [published, publishHash, publishBlock, storeAt, blockEntry, high, if_true,
      UInt32.toNat_ofNat', uint32Max] at offset ⊢
    simp only [UInt16.toNat_ofNat', Nat.zero_mod]
    omega
  · simp only [published, publishHash, publishBlock, storeAt, blockEntry, if_true, noPrefix',
      UInt32.toNat_ofNat', uint32Max] at small stop ⊢
    omega
  · simp only [published, publishHash, publishBlock, storeAt, blockEntry, if_true,
      Writer.patchFile, noPrefix', expected', UInt32.toNat_ofNat', uint32Max] at expected ⊢
    simp only [ne_eq, not_true_eq_false, decide_false, Bool.false_eq_true, if_false]
    omega
  · simp only [published, publishHash, publishBlock, storeAt, if_true]
    exact follows.name
  · simp only [published, publishHash, publishBlock, storeAt, if_neg other, and_self]
  · simpa [taken] using free
  · by_cases here : p = pos
    · simp [published, publishHash, publishBlock, storeAt, here, hashEntry, number]
    · simp only [published, publishHash, publishBlock, storeAt, here, iff_false, if_false]
      intro same
      by_cases used : taken a p = true
      · have := sound.index p used
        omega
      · have unused : (a.hash p).blockTableIndex = hashFree := by simpa [taken] using used
        rw [unused] at same
        have : hashFree.toNat = 2 ^ 32 - 1 := rfl
        omega
  · simp only [published, publishHash, publishBlock, storeAt, if_neg other]

-- From every reachable state, finishing a member keeps its contract when the member fits; a
-- larger one is dropped behind a zero return value.
theorem fileFinish_contract {codecs : Codecs} {a : WriteArchive} {w : Writer}
    (reach : Reachable codecs a) (active : a.current = some w) :
    (Fits a w → FinishContract codecs a w) ∧
      (succeeded (fileFinish codecs a) = true → (FinishContract codecs a w ↔ Fits a w)) := by
  have inv := reach.inv
  have working := inv.current w active
  have outcome := @streamEnd_outcome codecs _ working
  unfold FinishContract
  rw [fileFinish_run active]
  generalize streamEnd codecs ⟨w, a⟩ = result at outcome
  cases outcome with
  | failed follows =>
    have same := follows.unpublished
    refine ⟨fun _ => ⟨⟨fun ok => ?_, fun new => absurd new same.not_published⟩, fun _ => same⟩,
      fun ok => ?_⟩
    · cases ok
    · cases ok
  | skipped follows two large =>
    have same := follows.unpublished
    have misfit : ¬ Fits a w := by
      rintro (one | ⟨offset, expected⟩)
      · exact absurd (one.symm.trans two) (by decide)
      · simp only at large
        omega
    refine ⟨fun fits => absurd fits misfit, fun _ => ⟨fun contract => ?_, fun fits => absurd fits misfit⟩⟩
    exact absurd (contract.1.mp rfl) same.not_published
  | published follows stop small offset expected inside free =>
    have new := published_spec working.sound working.room working.noPrefix follows stop small offset
      expected inside free
    have fits : Fits a w := .inr ⟨offset, expected⟩
    refine ⟨fun _ => ⟨⟨fun _ => new, fun _ => rfl⟩, fun ok => ?_⟩,
      fun _ => ⟨fun _ => fits, fun _ => ⟨⟨fun _ => new, fun _ => rfl⟩, fun ok => ?_⟩⟩⟩
    · cases ok
    · cases ok

-- Tables for 2^28 members: the first payload begins behind 4 GiB.
def vast : CreateOptions where
  version := versionTwo
  maxFiles := 0x10000000
  sectorSize := 4096
  flags := 0
  attributes := 0

def created (o : CreateOptions) : WriteArchive := newArchive o (reserved o)

-- An empty member of an archive with the options `o`, not yet finished.
def begun (o : CreateOptions) : WriteArchive :=
  { created o with
    current := some (newWriter (created o) [0x61] 0 .default .none (created o).disk.pos) }

set_option maxRecDepth 2000 in
theorem fileBegin_vast : fileBegin [0x61] 0 .default (created vast) = .ok () (begun vast) := rfl

-- A member of three bytes, all written.
def threeWritten : WriteArchive :=
  final (Call.run Compression.zeroRunCodecs (.write [1, 2, 3])
    (final (Call.run Compression.zeroRunCodecs (.begin [0x61] 3 .default) (created .default))))

theorem fileFinish_contract_three_bytes :
    ∃ w, Reachable Compression.zeroRunCodecs threeWritten ∧ threeWritten.current = some w ∧ w.expected = 3 ∧
      Published threeWritten w (final (fileFinish Compression.zeroRunCodecs threeWritten)) := by
  have reach : Reachable Compression.zeroRunCodecs threeWritten :=
    ((Reachable.create (archiveCreate_calm (by decide) (by decide))).call (.begin [0x61] 3 .default)).call
      (.write [1, 2, 3])
  have active : threeWritten.current.any (fun w => w.expected = 3) = true := by decide +kernel
  obtain ⟨w, current, three⟩ := (Option.any_eq_true _ _).mp active
  exact ⟨w, reach, current, of_decide_eq_true three,
    ((fileFinish_contract reach current).1 (.inl (by decide +kernel))).1.mp (by decide +kernel)⟩

theorem fileFinish_drops_distant_member :
    ∃ a w, Reachable Compression.zeroRunCodecs a ∧ a.current = some w ∧
      succeeded (fileFinish Compression.zeroRunCodecs a) = true ∧
      (final (fileFinish Compression.zeroRunCodecs a)).nextBlock = a.nextBlock ∧
      ¬ FinishContract Compression.zeroRunCodecs a w := by
  have start : Reachable Compression.zeroRunCodecs (created vast) :=
    .create (archiveCreate_calm (by decide) (by decide))
  have reach : Reachable Compression.zeroRunCodecs (begun vast) := by
    have next := start.call (.begin [0x61] 0 .default)
    rwa [Call.run, fileBegin_vast] at next
  have finished : fileFinish Compression.zeroRunCodecs (begun vast) = .ok () (created vast) := rfl
  refine ⟨begun vast, _, reach, rfl, by rw [finished]; rfl, by rw [finished]; rfl, fun contract => ?_⟩
  have new := contract.1.mp (by rw [finished]; rfl)
  have := new.nextBlock
  rw [finished] at this
  cases this

end Writing

end LibMpq
