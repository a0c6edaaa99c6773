import LibMpq.WriterJournal

set_option autoImplicit false

namespace LibMpq

open Effect Bits Chunked

namespace Writing

-- What no request but a signing one changes, and a file that never gets shorter.
def Continues (a a' : WriteArchive) : Prop :=
  (∃ disk hash block blockEx nextBlock names attributes current,
    a' = { a with disk, hash, block, blockEx, nextBlock, names, attributes, current }) ∧
    a.disk.file.size ≤ a'.disk.file.size

instance : Std.Refl Continues :=
  ⟨fun a => ⟨⟨a.disk, a.hash, a.block, a.blockEx, a.nextBlock, a.names, a.attributes, a.current, rfl⟩, le_rfl⟩⟩

instance : IsTrans WriteArchive Continues where
  trans := by
    rintro a _ _ ⟨⟨_, _, _, _, _, _, _, _, rfl⟩, grows⟩ ⟨⟨_, _, _, _, _, _, _, _, rfl⟩, grows'⟩
    exact ⟨⟨_, _, _, _, _, _, _, _, rfl⟩, grows.trans grows'⟩

theorem Continues.disk {a : WriteArchive} {disk : Disk} (above : Disk.Above 0 a.disk disk)
    (rows : Option (Nat → FileAttributes)) (current : Option Writer) :
    Continues a { a with disk, attributes := rows, current } :=
  ⟨⟨disk, a.hash, a.block, a.blockEx, a.nextBlock, a.names, rows, current, rfl⟩, (above (Nat.zero_le _)).2.1⟩

theorem Ending.continues {s s' : Active} (ending : Ending 0 s s') (current : Option Writer) :
    Continues s.archive { s'.archive with current } := by
  have behind := ending.behind (Nat.zero_le _)
  obtain ⟨disk, archive⟩ := ending.follows.archive
  unfold Behind at behind
  rw [archive] at behind ⊢
  exact Continues.disk behind s.archive.attributes current

def Carries (s : Active) (r : EStateM.Result Error Active Unit) : Prop :=
  ∀ current, Continues s.archive { (final r).archive with current }

theorem streamEnd_carries (codecs : Codecs) (s : Active) : Carries s (streamEnd codecs s) := by
  have failed : ∀ e t, Ending 0 s t → Carries s (.error e t) := fun _ _ ending => ending.continues
  refine Keeps.bind_elim (R := Ending 0) Keeps.get (refl_of _ _) failed fun _ t got same => ?_
  cases got
  refine Keeps.bind_elim (R := Ending 0) ?_ same failed fun _ t _ same => ?_
  · split
    · exact ending_of (flushSector_follows codecs) (flushSector_behind codecs)
    · exact Keeps.pure ()
  refine Keeps.bind_elim (closePayload_ending codecs) same failed fun total t _ same => ?_
  rw [bind_of_ok (get_run t)]
  split
  next => exact (trans_of (Ending 0) same (Keeps.failIf _ _ t)).continues
  next =>
    intro current
    obtain ⟨hash, rows, archive⟩ := publish_entry (t.writer.payloadOffset - t.writer.prefixSize) total t
    have before : Continues s.archive t.archive := same.continues t.archive.current
    rw [archive]
    refine trans_of Continues before ?_
    exact ⟨⟨_, _, _, _, _, _, _, _, rfl⟩, le_rfl⟩

theorem stable_continues (codecs : Codecs) : Stable codecs Continues where
  begin name size options := by
    intro a
    obtain ⟨⟨disk, rows, archive, above⟩, -⟩ :=
      @prepareWriter_prepared 0 a name size options .none (Nat.zero_le _) (Nat.zero_le _)
    unfold fileBegin fileBeginWith
    cases run : prepareWriter name size options .none a with
    | error e b =>
      rw [run, final_error] at archive
      rw [bind_of_error run, final_error, archive]
      exact Continues.disk above rows a.current
    | ok w b =>
      rw [run, final_ok] at archive
      rw [bind_of_ok run]
      subst archive
      exact Continues.disk above rows (some w)
  write data := by
    intro a
    cases active : a.current with
    | none =>
      simp only [fileWrite, withWriter, active]
      exact refl_of Continues a
    | some w =>
      have ending : Ending 0 ⟨w, a⟩ (final (streamWrite codecs data ⟨w, a⟩)) :=
        ending_of (streamWrite_follows codecs data) (streamWrite_behind codecs data) _
      have next := ending.continues (some (final (streamWrite codecs data ⟨w, a⟩)).writer)
      rw [fileWrite_run active]
      cases run : streamWrite codecs data ⟨w, a⟩ <;> rw [run] at next <;> exact next
  finish := by
    intro a
    cases active : a.current with
    | none =>
      simp only [fileFinish, dropWriter, withWriter, active]
      exact Continues.disk (refl_of (Disk.Above 0) a.disk) a.attributes none
    | some w =>
      rw [fileFinish_final active]
      exact streamEnd_carries codecs ⟨w, a⟩ none
  abort := Keeps.modify fun a => Continues.disk (refl_of (Disk.Above 0) a.disk) a.attributes none

-- What requests find as the creation left it, and what a signature will find at the close.
structure Furnished (a : WriteArchive) : Prop where
  least : signatureSize ≤ a.disk.file.size
  ordinary : a.patchMode = false
  sector : 512 ≤ a.sectorSize
  mask : a.attributesFlags &&& ~~~attributesAll = 0
  weak : a.signature = true → Rsa.keyValidate a.signatureKey Rsa.rsaSize = true ∧
    a.signatureOffset + signatureSize ≤ a.disk.file.size
  strong : a.strongSignature = true → Rsa.keyValidate a.strongSignatureKey Rsa.rsaStrongSize = true

theorem Furnished.continues {a a' : WriteArchive} (furnished : Furnished a) (continues : Continues a a') :
    Furnished a' := by
  obtain ⟨⟨_, _, _, _, _, _, _, _, rfl⟩, grows⟩ := continues
  refine ⟨furnished.least.trans grows, furnished.ordinary, furnished.sector, furnished.mask, fun signed => ?_,
    furnished.strong⟩
  obtain ⟨valid, inside⟩ := furnished.weak signed
  exact ⟨valid, inside.trans grows⟩

def PlainRows (rows : Option (Nat → FileAttributes)) : Prop :=
  ∀ table, rows = some table → ∀ i, (table i).patchBit = false

def Attributed (a : WriteArchive) : Prop := a.internal = false ∧ a.attributesFlags ≠ 0

-- With attributes an entry is left over for each member that the close adds, and none has the
-- name of the attributes. The close's own members are exempt.
def Reserves (a : WriteArchive) (name : Bytes) : Prop :=
  Attributed a → reservedSlots a + a.nextBlock < a.capacity ∧ fileHash name ≠ fileHash attributesName

structure Spared (a : WriteArchive) : Prop where
  room : Attributed a → reservedSlots a + a.nextBlock ≤ a.capacity
  foreign : Attributed a → ∀ i, i < a.nextBlock → fileHash (a.names i) ≠ fileHash attributesName
  fresh : ∀ i, a.nextBlock ≤ i → (a.block i).offset = 0
  rows : PlainRows a.attributes
  pending : ∀ w, a.current = some w → Reserves a w.name ∧ w.attributes.patchBit = false

theorem Spared.settle {a : WriteArchive} (spared : Spared a) (disk : Disk) {rows : Option (Nat → FileAttributes)}
    (plain : PlainRows rows) {current : Option Writer}
    (pending : ∀ w, current = some w → Reserves a w.name ∧ w.attributes.patchBit = false) :
    Spared { a with disk, attributes := rows, current } :=
  ⟨spared.room, spared.foreign, spared.fresh, plain, pending⟩

def KeepsPlain (a a' : WriteArchive) : Prop := PlainRows a.attributes → PlainRows a'.attributes

instance : Std.Refl KeepsPlain := ⟨fun _ => id⟩

instance : IsTrans WriteArchive KeepsPlain := ⟨fun _ _ _ first second => second ∘ first⟩

theorem reserveAttributes_keepsPlain (name : Bytes) : Keeps KeepsPlain (reserveAttributes name) := by
  refine Keeps.bind Keeps.get fun a => ?_
  split
  · refine Keeps.bind (Keeps.failIf _ _) fun _ => ?_
    refine Keeps.bind (Keeps.failIf _ _) fun _ => ?_
    split
    · exact Keeps.pure ()
    · refine Keeps.bind (Keeps.zoom (Keeps.of_true _) fun _ _ _ => id) fun _ => ?_
      refine Keeps.modify fun a plain table same i => ?_
      cases same
      rfl
  · exact Keeps.pure ()

theorem prepareWriter_keepsPlain (name : Bytes) (size : Int) (options : FileOptions) (patch : PatchPrefix) :
    Keeps KeepsPlain (prepareWriter name size options patch) :=
  prepareWriter_keeps (fun _ => Keeps.zoom (Keeps.of_true _) fun _ _ _ => id) (reserveAttributes_keepsPlain name)
    size options patch

theorem reserveAttributes_reserves {name : Bytes} {a a' : WriteArchive}
    (run : reserveAttributes name a = .ok () a') : Reserves a name := by
  rintro ⟨public_, used⟩
  unfold reserveAttributes at run
  rw [bind_of_ok (get_run a), if_pos used] at run
  obtain ⟨room, run⟩ := failIf_bind_ok.mp run
  obtain ⟨foreign, -⟩ := failIf_bind_ok.mp run
  refine ⟨?_, fun same => foreign ⟨public_, same⟩⟩
  by_contra full
  exact room ⟨public_, by omega⟩

theorem prepareWriter_reserves {name : Bytes} {size : Int} {options : FileOptions} {patch : PatchPrefix}
    {a a' : WriteArchive} {w : Writer} (run : prepareWriter name size options patch a = .ok w a') :
    Reserves a w.name ∧ w.attributes.patchBit = false := by
  obtain ⟨-, -, -, -, position, b, reserved⟩ := prepareWriter_steps run
  rw [reserveOffsets_writer reserved]
  unfold prepareWriter at run
  rw [bind_of_ok (get_run a)] at run
  obtain ⟨-, run⟩ := failIf_bind_ok.mp run
  obtain ⟨-, run⟩ := failIf_bind_ok.mp run
  obtain ⟨-, run⟩ := failIf_bind_ok.mp run
  obtain ⟨_, c, rows, -⟩ := bind_ok.mp run
  exact ⟨reserveAttributes_reserves rows, rfl⟩

theorem fileBegin_spared {a : WriteArchive} (spared : Spared a) (name : Bytes) (size : Int)
    (options : FileOptions) : Spared (final (fileBegin name size options a)) := by
  have prepares := prepareWriter_prepares name size options .none a
  have plain := prepareWriter_keepsPlain name size options .none a spared.rows
  unfold fileBegin fileBeginWith
  cases run : prepareWriter name size options .none a with
  | error e b =>
    rw [run] at prepares plain
    rw [bind_of_error run]
    obtain ⟨disk, rows, rfl⟩ := prepares
    exact spared.settle disk plain spared.pending
  | ok w b =>
    have reserves := prepareWriter_reserves run
    rw [run] at prepares plain
    rw [bind_of_ok run]
    obtain ⟨disk, rows, rfl⟩ := prepares
    refine spared.settle disk plain fun w' same => ?_
    cases same
    exact reserves

theorem fileWrite_spared {codecs : Codecs} {a : WriteArchive} (spared : Spared a) (data : Bytes) :
    Spared (final (fileWrite codecs data a)) := by
  cases active : a.current with
  | none =>
    simp only [fileWrite, withWriter, active]
    exact spared
  | some w =>
    have follows := streamWrite_follows codecs data ⟨w, a⟩
    rw [fileWrite_run active]
    have settled : ∀ s, Follows ⟨w, a⟩ s → Spared { s.archive with current := some s.writer } := by
      intro s follows
      obtain ⟨disk, archive⟩ := follows.archive
      rw [archive]
      refine spared.settle disk spared.rows fun w' same => ?_
      cases same
      rw [follows.name, follows.patchBit]
      exact spared.pending w active
    cases run : streamWrite codecs data ⟨w, a⟩ <;> rw [run] at follows <;> exact settled _ follows

theorem published_spared {a : WriteArchive} {w : Writer} (spared : Spared a) (reserves : Reserves a w.name)
    (plain : w.attributes.patchBit = false) (blockOffset total pos : Nat) (disk : Disk) :
    Spared { published w blockOffset total pos { a with disk } with current := none } where
  room used := by
    have room := (reserves used).1
    change reservedSlots a + (a.nextBlock + 1) ≤ a.capacity
    omega
  foreign used i below := by
    have below : i < a.nextBlock + 1 := below
    change fileHash (storeAt a.names a.nextBlock w.name i) ≠ fileHash attributesName
    by_cases here : i = a.nextBlock
    · rw [here, storeAt_self]
      exact (reserves used).2
    · rw [storeAt_of_ne here]
      exact spared.foreign used i (by omega)
  fresh i past := by
    have past : a.nextBlock + 1 ≤ i := past
    change (storeAt a.block a.nextBlock (blockEntry w blockOffset total) i).offset = 0
    rw [storeAt_of_ne (by omega)]
    exact spared.fresh i (by omega)
  rows table present i := by
    obtain ⟨old, known, rfl⟩ := Option.map_eq_some_iff.mp
      (show a.attributes.map (fun rows => storeAt rows a.nextBlock (finalAttributes w)) = some table from present)
    by_cases here : i = a.nextBlock
    · rw [here, storeAt_self]
      exact plain
    · rw [storeAt_of_ne here]
      exact spared.rows old known i
  pending w active := by cases active

theorem fileFinish_spared {codecs : Codecs} {a : WriteArchive} (spared : Spared a) (inv : Inv a) :
    Spared (final (fileFinish codecs a)) := by
  cases active : a.current with
  | none =>
    simp only [fileFinish, dropWriter, withWriter, active]
    exact spared.settle a.disk spared.rows fun w same => by cases same
  | some w =>
    have working := inv.current w active
    obtain ⟨reserves, plain⟩ := spared.pending w active
    have ended := @streamEnd_finishes codecs _ working.sound working.room
    rw [fileFinish_final active]
    rcases ended with follows | ⟨t, blockOffset, total, pos, follows, -, archive⟩
    · obtain ⟨disk, archive⟩ := follows.archive
      rw [archive]
      exact spared.settle disk spared.rows fun w same => by cases same
    · obtain ⟨disk, moved⟩ := follows.archive
      rw [archive, moved]
      refine published_spared spared ?_ (follows.patchBit.trans plain) blockOffset total pos disk
      rw [follows.name]
      exact reserves

structure Orderly (a : WriteArchive) : Prop where
  inv : Inv a
  indexed : Indexed a
  calm : a.disk.Calm
  furnished : Furnished a
  spared : Spared a

def Orders (a a' : WriteArchive) : Prop := Orderly a → Orderly a' ∧ a'.internal = a.internal

instance : Std.Refl Orders := ⟨fun _ orderly => ⟨orderly, rfl⟩⟩

instance : IsTrans WriteArchive Orders where
  trans _ _ _ first second orderly := by
    obtain ⟨orderly', same⟩ := first orderly
    obtain ⟨orderly'', same'⟩ := second orderly'
    exact ⟨orderly'', same'.trans same⟩

theorem stable_orders (codecs : Codecs) : Stable codecs Orders := by
  have builds : ∀ {x : Op Error WriteArchive Unit}, Keeps Extends x → Keeps Calmly x → Keeps Continues x →
      (∀ a, Orderly a → Spared (final (x a))) → Keeps Orders x := by
    intro x extends_ calmly continues spared a orderly
    have built := extends_ a orderly.inv orderly.indexed
    refine ⟨⟨built.inv, built.indexed, calmly a orderly.calm, orderly.furnished.continues (continues a),
      spared a orderly⟩, ?_⟩
    obtain ⟨⟨_, _, _, _, _, _, _, _, same⟩, -⟩ := continues a
    rw [same]
  have extends_ := stable_extends codecs
  have calmly := stable_calmly codecs
  have continues := stable_continues codecs
  constructor
  case begin =>
    intro name size options
    exact builds (extends_.begin name size options) (calmly.begin name size options)
      (continues.begin name size options) fun a orderly =>
        fileBegin_spared orderly.spared name size options
  case write =>
    intro data
    exact builds (extends_.write data) (calmly.write data) (continues.write data) fun a orderly =>
      fileWrite_spared orderly.spared data
  case finish =>
    exact builds extends_.finish calmly.finish continues.finish fun a orderly =>
      fileFinish_spared orderly.spared orderly.inv
  case abort =>
    exact builds extends_.abort calmly.abort continues.abort fun a orderly =>
      orderly.spared.settle a.disk orderly.spared.rows fun w same => by cases same

theorem streamWrite_short {codecs : Codecs} {s s' : Active} {data : Bytes} (some_ : data ≠ [])
    (room : s.writer.data.length + data.length < s.archive.sectorSize)
    (run : streamWrite codecs data s = .ok () s') : s' = { s with writer := absorb data s.writer } := by
  have fits : min data.length ((sectorBuffer codecs).room s) = data.length := by
    change min data.length (s.archive.sectorSize - s.writer.data.length) = data.length
    omega
  have open_ : (sectorBuffer codecs).room ((sectorBuffer codecs).push data s) ≠ 0 := by
    change s.archive.sectorSize - (s.writer.data ++ data).length ≠ 0
    rw [List.length_append]
    omega
  have rest : ∀ fuel t, (sectorBuffer codecs).feed fuel [] t = .ok () t := by
    intro fuel t
    cases fuel <;> rfl
  unfold streamWrite at run
  rw [bind_of_ok (get_run s)] at run
  obtain ⟨-, run⟩ := failIf_bind_ok.mp run
  rw [Buffer.feed, if_neg some_, bind_of_ok (get_run s)] at run
  simp only [fits, List.take_length, List.drop_length] at run
  rw [bind_run, Buffer.step_run, if_neg open_] at run
  simp only [rest] at run
  cases run
  rfl

theorem streamFinish_offset {codecs : Codecs} {s s' : Active} (untabled : s.writer.offsets.isSome = false)
    (noPrefix : s.writer.prefixSize = 0) (fresh : (s.archive.block s.archive.nextBlock).offset = 0)
    (run : streamFinish codecs s = .ok () s') :
    (s'.archive.block s.archive.nextBlock).offset.toNat ≤ s.writer.payloadOffset ∧
      s'.archive.disk.file = s.archive.disk.file := by
  unfold streamFinish at run
  obtain ⟨total, t, closed, run⟩ := bind_ok.mp run
  obtain ⟨disk, same, rfl⟩ := closePayload_untabled untabled closed
  rw [bind_of_ok (get_run _)] at run
  split at run
  next =>
    obtain ⟨-, rfl⟩ := failIf_ok.mp run
    refine ⟨?_, same⟩
    change (s.archive.block s.archive.nextBlock).offset.toNat ≤ _
    rw [fresh]
    exact Nat.zero_le _
  next =>
    obtain ⟨hash, rows, archive⟩ := publish_entry (s.writer.payloadOffset - s.writer.prefixSize) total
      { s with archive := { s.archive with disk } }
    rw [run, final_ok] at archive
    rw [archive]
    refine ⟨?_, same⟩
    change (storeAt s.archive.block s.archive.nextBlock (blockEntry s.writer
      (s.writer.payloadOffset - s.writer.prefixSize) total) s.archive.nextBlock).offset.toNat ≤ _
    rw [storeAt_self, noPrefix]
    exact UInt32.toNat_ofNat'.le.trans (Nat.mod_le _ _)

theorem packSector_raw {codecs : Codecs} {s : Active} {packed : Bytes} {plan plan' : Faults}
    (noCompress : has s.writer.options.flags Flag.compress = false)
    (noImplode : has s.writer.options.flags Flag.implode = false)
    (run : packSector codecs s plan = .ok packed plan') : packed = s.writer.data := by
  simp only [packSector, noCompress, noImplode, Bool.false_eq_true, if_false] at run
  obtain ⟨_, _, -, run⟩ := bind_ok.mp run
  exact (pure_ok.mp run).1

-- A member of one raw sector is written when it ends.
theorem streamEnd_raw {codecs : Codecs} {s s' : Active} (flags : s.writer.options.flags = 0)
    (untabled : s.writer.offsets.isSome = false) (noPrefix : s.writer.prefixSize = 0)
    (some_ : s.writer.data ≠ []) (place : s.archive.disk.pos = s.writer.payloadOffset)
    (fresh : (s.archive.block s.archive.nextBlock).offset = 0) (run : streamEnd codecs s = .ok () s') :
    (s'.archive.block s.archive.nextBlock).offset.toNat + s.writer.data.length ≤ s'.archive.disk.file.size := by
  unfold streamEnd at run
  rw [bind_of_ok (get_run s)] at run
  obtain ⟨_, t, flush, finish⟩ := bind_ok.mp run
  rw [if_pos (.inl some_)] at flush
  have follows := (flushSector_follows codecs).ok flush
  obtain ⟨packed, stored, next, disk, ⟨plan, plan', pack⟩, stores, -, moved, file, -⟩ := flushSector_ok flush
    fun encrypted => absurd encrypted (by rw [flags]; decide)
  have raw := packSector_raw (by rw [flags]; decide) (by rw [flags]; decide) pack
  rw [flags, if_neg (by decide), raw] at stores
  have archive : t.archive = { s.archive with disk } := by rw [moved]
  obtain ⟨below, same⟩ := streamFinish_offset (follows.offsets.trans untabled) (follows.prefixSize.trans noPrefix)
    (by rw [archive]; exact fresh) finish
  rw [archive, follows.payloadOffset] at below
  rw [archive] at same
  have size := File.write_size_of_ne_nil s.archive.disk.file s.archive.disk.pos some_
  rw [same, file, stores]
  simp only at below
  omega

theorem fileAdd_signature {codecs : Codecs} {a b : WriteArchive} (orderly : Orderly a)
    (run : fileAdd codecs signatureName (Bytes.zeros signatureSize) .default a = .ok () b) :
    (b.block a.nextBlock).offset.toNat + signatureSize ≤ b.disk.file.size := by
  obtain ⟨w, c, s, s', prepared, wrote, ended, rfl⟩ := fileAdd_ok run
  have begun := prepareWriter_begun prepared
  obtain ⟨offsets, checksums, writer⟩ := begun.writer
  have length : (Bytes.zeros signatureSize).length = signatureSize := Bytes.zeros_length _
  have flags : w.options.flags = 0 := by
    rw [writer]
    rfl
  have untabled : w.offsets.isSome = false := by
    rw [begun.offsets, flags]
    rfl
  have place : c.disk.pos = w.payloadOffset := by
    rw [begun.pos, tableSizeOf, untabled, writer]
    rfl
  have noPrefix : w.prefixSize = 0 := by
    rw [writer]
    rfl
  have buffer : w.data = [] := by
    rw [writer]
    rfl
  have sector := orderly.furnished.sector
  obtain ⟨disk, rows, archive⟩ := begun.ready.archive
  have filled := streamWrite_short (List.ne_nil_of_length_pos (by rw [length]; decide)) (by
    rw [length, buffer, archive]
    change 0 + 72 < a.sectorSize
    omega) wrote
  have data : s.writer.data = Bytes.zeros signatureSize := by
    rw [filled]
    exact (congrArg (· ++ Bytes.zeros signatureSize) buffer).trans (List.nil_append _)
  have archive : s.archive = { a with disk := c.disk, attributes := rows, current := some w } := by
    rw [filled, archive]
  have last := streamEnd_raw (by rw [filled]; exact flags) (by rw [filled]; exact untabled)
    (by rw [filled]; exact noPrefix) (List.ne_nil_of_length_pos (by rw [data, length]; decide))
    (by rw [archive, filled]; exact place) (by rw [archive]; exact orderly.spared.fresh _ le_rfl) ended
  rw [data, length, archive] at last
  exact last

theorem Orderly.signs {a : WriteArchive} (orderly : Orderly a) (idle : a.current = none)
    {rows : Option (Nat → FileAttributes)} (plain : PlainRows rows) {weak strong : Bool} {offset : Nat}
    {key strongKey : Bytes}
    (weakly : weak = true → Rsa.keyValidate key Rsa.rsaSize = true ∧ offset + signatureSize ≤ a.disk.file.size)
    (strongly : strong = true → Rsa.keyValidate strongKey Rsa.rsaStrongSize = true) :
    Orderly
      { a with
        attributes := rows
        signature := weak
        signatureOffset := offset
        signatureKey := key
        strongSignature := strong
        strongSignatureKey := strongKey } := by
  obtain ⟨⟨sound, -⟩, indexed, calm, furnished, spared⟩ := orderly
  have sound : Sound a := sound
  constructor
  case inv =>
    refine ⟨⟨sound.version, sound.hashCapacity, sound.capacity, sound.sectorSize, sound.nextBlock, sound.index,
      sound.used⟩, fun w active => ?_⟩
    rw [show _ = none from idle] at active
    cases active
  case indexed => exact ⟨indexed.present, indexed.free, indexed.slots, indexed.chain, indexed.unique⟩
  case calm => exact calm
  case furnished =>
    exact ⟨furnished.least, furnished.ordinary, furnished.sector, furnished.mask, weakly, strongly⟩
  case spared => exact ⟨spared.room, spared.foreign, spared.fresh, plain, spared.pending⟩

-- Signing adds the zero payload, and only then the key is kept.
theorem archiveSign_orders (codecs : Codecs) (type : SignatureType) (key : Bytes) :
    Keeps Orders (archiveSign codecs type key) := by
  intro a orderly
  unfold archiveSign
  rw [bind_of_ok (get_run a)]
  by_cases busy : a.current.isSome = true
  · rw [bind_of_error (failIf_true busy _ _)]
    exact ⟨orderly, rfl⟩
  rw [bind_of_ok (failIf_false busy _ _)]
  cases type with
  | strong =>
    dsimp only
    by_cases refused : a.strongSignature = true ∨ Rsa.keyValidate key Rsa.rsaStrongSize = false
    · rw [bind_of_error (failIf_true refused _ _)]
      exact ⟨orderly, rfl⟩
    · rw [bind_of_ok (failIf_false refused _ _), modify_run]
      exact ⟨orderly.signs (by simpa using busy) orderly.spared.rows orderly.furnished.weak
        fun _ => by simpa using (not_or.mp refused).2, rfl⟩
  | weak =>
    dsimp only
    by_cases refused : a.signature = true ∨ Rsa.keyValidate key Rsa.rsaSize = false
    · rw [bind_of_error (failIf_true refused _ _)]
      exact ⟨orderly, rfl⟩
    rw [bind_of_ok (failIf_false refused _ _)]
    by_cases present : hasSignature a = true
    · rw [bind_of_error (failIf_true present _ _)]
      exact ⟨orderly, rfl⟩
    rw [bind_of_ok (failIf_false present _ _)]
    have added := (stable_orders codecs).add signatureName (Bytes.zeros signatureSize) .default a orderly
    cases run : fileAdd codecs signatureName (Bytes.zeros signatureSize) .default a with
    | error e b =>
      rw [run] at added
      rw [bind_of_error run]
      exact added
    | ok _ b =>
      rw [run, final_ok] at added
      obtain ⟨added, same⟩ := added
      have idle : b.current = none := by
        obtain ⟨_, _, _, _, -, -, -, rfl⟩ := fileAdd_ok run
        rfl
      rw [bind_of_ok run, modify_run]
      refine ⟨added.signs idle (fun table known i => ?_) (fun _ => ⟨?_, fileAdd_signature orderly run⟩)
        added.furnished.strong, same⟩
      · obtain ⟨old, row, rfl⟩ := Option.map_eq_some_iff.mp known
        by_cases here : i = a.nextBlock
        · rw [here, storeAt_self]
          rfl
        · rw [storeAt_of_ne here]
          exact added.spared.rows old row i
      · simpa using (not_or.mp refused).2

-- The close marks the archive, and what is reserved for its own members is theirs.
theorem Orderly.marked {a : WriteArchive} (orderly : Orderly a) (idle : a.current = none)
    {rows : Option (Nat → FileAttributes)} (plain : PlainRows rows) :
    Orderly { a with attributes := rows, internal := true } := by
  obtain ⟨⟨sound, -⟩, indexed, calm, furnished, spared⟩ := orderly
  have sound : Sound a := sound
  constructor
  case inv =>
    refine ⟨⟨sound.version, sound.hashCapacity, sound.capacity, sound.sectorSize, sound.nextBlock, sound.index,
      sound.used⟩, fun w active => ?_⟩
    rw [show _ = none from idle] at active
    cases active
  case indexed => exact indexed.congr a.disk rows a.current true
  case calm => exact calm
  case furnished =>
    exact ⟨furnished.least, furnished.ordinary, furnished.sector, furnished.mask, furnished.weak, furnished.strong⟩
  case spared =>
    have exempt : ¬ Attributed { a with attributes := rows, internal := true } := by
      rintro ⟨public_, -⟩
      cases public_
    exact ⟨fun used => absurd used exempt, fun used => absurd used exempt, spared.fresh, plain, fun w active => by
      rw [show _ = none from idle] at active
      cases active⟩

theorem Request.run_orders (codecs : Codecs) (request : Request) : Keeps Orders (request.run codecs) := by
  have ordinary : ∀ {x : Op Error WriteArchive Unit} {e : Error},
      Keeps Orders (do
        let a ← get
        failIf (a.patchMode = false) e
        x) := by
    intro x e a orderly
    rw [bind_of_ok (get_run a), bind_of_error (failIf_true orderly.furnished.ordinary _ _)]
    exact ⟨orderly, rfl⟩
  cases request with
  | member call => exact (stable_orders codecs).call call
  | addPath name source options => exact (stable_orders codecs).addPath name source options
  | sign type key => exact archiveSign_orders codecs type key
  | patchAdd name info body resultSize options => exact ordinary
  | deleteMarker name locale platform => exact ordinary

theorem serve_orders (codecs : Codecs) (requests : List Request) (a : WriteArchive) :
    Orders a (serve codecs requests a) := by
  induction requests generalizing a with
  | nil => exact refl_of Orders a
  | cons request rest ih => exact trans_of Orders (request.run_orders codecs a) (ih _)

theorem archiveCreate_orderly {o : CreateOptions} {a : WriteArchive}
    (run : archiveCreate o Faults.healthy = .ok a) : Orderly a ∧ a.internal = false := by
  obtain ⟨valid, disk, reserved, rfl⟩ := archiveCreate_ok run
  refine ⟨?_, rfl⟩
  obtain ⟨file, -, calm, -⟩ := reserveTables_ok reserved
  have checked := valid
  simp only [validateOptions, decide_eq_true_eq] at checked
  obtain ⟨-, -, mask, rows⟩ := checked
  have first : 512 ≤ firstPayloadOf o := by
    have some_ : 0 < capacityOf o := capacityOf_pos o
    have tables : 1 ≤ extendedOffsetOf o := by
      rw [extendedOffsetOf, show blockEntryWireSize = 16 from rfl]
      omega
    unfold firstPayloadOf
    dsimp only
    split <;> omega
  constructor
  case inv =>
    refine ⟨newArchive_sound valid disk, fun w active => ?_⟩
    cases active
  case indexed => exact newArchive_indexed o disk
  case calm => exact calm rfl
  case furnished =>
    constructor
    case least =>
      have some_ : Bytes.zeros (min 4096 (firstPayloadOf o)) ≠ [] :=
        List.ne_nil_of_length_pos (by rw [Bytes.zeros_length]; omega)
      change 72 ≤ disk.file.size
      rw [file, File.write_size_of_ne_nil _ _ some_, Bytes.zeros_length]
      omega
    case sector =>
      obtain ⟨k, -, power, -⟩ := sectorSizeOf_power valid
      have := Nat.one_le_two_pow (n := k)
      change 512 ≤ sectorSizeOf o
      omega
    case mask => exact mask
    case weak =>
      intro signed
      cases signed
    case strong =>
      intro signed
      cases signed
    all_goals rfl
  case spared =>
    constructor
    case room =>
      rintro ⟨-, used⟩
      change 1 + (if has o.flags createListfile then 1 else 0) + 0 ≤ capacityOf o
      unfold capacityOf
      by_cases default_ : o.maxFiles = 0
      · rw [if_pos default_]
        split <;> decide
      · rw [if_neg default_]
        by_contra few
        refine rows ⟨used, default_, UInt32.lt_iff_toNat_lt.mpr ?_⟩
        by_cases list : has o.flags createListfile = true
        · rw [if_pos list] at few ⊢
          simp only [UInt32.reduceAdd, UInt32.reduceToNat] at few ⊢
          omega
        · rw [if_neg list] at few ⊢
          simp only [UInt32.reduceAdd, UInt32.reduceToNat] at few ⊢
          omega
    case foreign => exact fun _ i below => absurd below (Nat.not_lt_zero i)
    case fresh => exact fun _ _ => rfl
    case rows =>
      intro table known
      cases known
    case pending =>
      intro w active
      cases active

end Writing

end LibMpq
