import LibMpq.WriterArchive
import LibMpq.WriterPublish

set_option autoImplicit false

namespace LibMpq

open Effect Bits Chunked

namespace Writing

def payloadStart (a : WriteArchive) (i : Nat) : Nat :=
  (a.block i).offset.toNat + (a.blockEx i).toNat * 2 ^ 32

def payloadStop (a : WriteArchive) (i : Nat) : Nat := payloadStart a i + (a.block i).packedSize.toNat

structure Placed (limit : Nat) (w : Writer) : Prop where
  start : limit + w.prefixSize ≤ w.payloadOffset
  small : w.prefixSize ≤ uint32Max

structure Placement (base limit : Nat) (a : WriteArchive) : Prop where
  reserved : base ≤ limit
  first : ∀ i, i < a.nextBlock → base ≤ payloadStart a i
  last : ∀ i, i < a.nextBlock → payloadStop a i ≤ limit
  ordered : ∀ i j, i < j → j < a.nextBlock → payloadStop a i ≤ payloadStart a j
  pos : limit ≤ a.disk.pos
  active : ∀ w, a.current = some w → Placed limit w

structure Preserves (limit : Nat) (a a' : WriteArchive) : Prop where
  nextBlock : a.nextBlock ≤ a'.nextBlock
  block : ∀ i, i < a.nextBlock → a'.block i = a.block i
  blockEx : ∀ i, i < a.nextBlock → a'.blockEx i = a.blockEx i
  bytes : ∀ p, p < limit → a'.disk.file.byte p = a.disk.file.byte p

def Behind (limit : Nat) (s s' : Active) : Prop := Disk.Above limit s.archive.disk s'.archive.disk

variable {limit : Nat}

instance : Std.Refl (Behind limit) := ⟨fun s => refl_of (Disk.Above limit) s.archive.disk⟩

instance : IsTrans Active (Behind limit) where
  trans _ _ _ first second := trans_of (Disk.Above limit) first second

theorem streamDisk_behind {α : Type} {x : Op Error Disk α} (keeps : Keeps (Disk.Above limit) x) :
    Keeps (Behind limit) (streamDisk x) := by
  intro s
  have kept := keeps s.archive.disk
  simp only [streamDisk, onArchive, onDisk, Effect.zoom]
  cases run : x s.archive.disk <;> rw [run] at kept <;> exact kept

theorem modifyWriter_behind (f : Writer → Writer) : Keeps (Behind limit) (modifyWriter f) :=
  Keeps.modify fun s => refl_of (Disk.Above limit) s.archive.disk

theorem flushSector_behind (codecs : Codecs) : Keeps (Behind limit) (flushSector codecs) := by
  refine Keeps.bind Keeps.get fun s => ?_
  refine Keeps.bind (Keeps.failIf _ _) fun _ => ?_
  refine Keeps.bind (streamDisk_behind (Disk.keeps_onPlan _)) fun packed => ?_
  refine Keeps.bind (modifyWriter_behind _) fun _ => ?_
  refine Keeps.bind (streamDisk_behind (Disk.keeps_onPlan _)) fun stored => ?_
  refine Keeps.bind ?_ fun _ => ?_
  · refine Keeps.bind Keeps.get fun s => ?_
    split
    · exact Keeps.bind (streamDisk_behind (Disk.keeps_tell _)) fun _ => modifyWriter_behind _
    · exact Keeps.pure ()
  refine Keeps.bind (streamDisk_behind (Disk.keeps_write _ _)) fun _ => ?_
  refine Keeps.bind (modifyWriter_behind _) fun _ => ?_
  exact Keeps.bind (Keeps.fromExcept _) fun next => modifyWriter_behind _

theorem streamWrite_behind (codecs : Codecs) (data : Bytes) :
    Keeps (Behind limit) (streamWrite codecs data) := by
  refine Keeps.bind Keeps.get fun s => ?_
  refine Keeps.bind (Keeps.failIf _ _) fun _ => ?_
  refine Buffer.feed_keeps (fun part s _ => ?_) _ _
  have pushed : Behind limit s ((sectorBuffer codecs).push part s) := refl_of (Disk.Above limit) _
  rw [Buffer.step_run]
  split
  · exact trans_of (Behind limit) pushed (flushSector_behind codecs _)
  · exact pushed

theorem writeChecksums_behind (codecs : Codecs) (sums : Nat → UInt32) :
    Keeps (Behind limit) (writeChecksums codecs sums) := by
  refine Keeps.bind Keeps.get fun s => ?_
  refine Keeps.bind (streamDisk_behind (Disk.keeps_alloc _)) fun _ => ?_
  refine Keeps.bind (streamDisk_behind (Disk.keeps_onPlan _)) fun encoded => ?_
  refine Keeps.bind (Keeps.failIf _ _) fun _ => ?_
  refine Keeps.bind (streamDisk_behind (Disk.keeps_write _ _)) fun _ => ?_
  exact modifyWriter_behind _

structure Ending (limit : Nat) (s s' : Active) : Prop where
  follows : Follows s s'
  behind : limit ≤ s.writer.payloadOffset → Behind limit s s'

instance : Std.Refl (Ending limit) :=
  ⟨fun s => ⟨refl_of Follows s, fun _ => refl_of (Behind limit) s⟩⟩

instance : IsTrans Active (Ending limit) where
  trans _ _ _ first second :=
    ⟨trans_of Follows first.follows second.follows, fun place => trans_of (Behind limit)
      (first.behind place) (second.behind (first.follows.payloadOffset ▸ place))⟩

theorem ending_of {α : Type} {x : Op Error Active α} (follows : Keeps Follows x)
    (behind : Keeps (Behind limit) x) : Keeps (Ending limit) x :=
  fun s => ⟨follows s, fun _ => behind s⟩

-- What a call does with the member it found may depend on where that member began.
theorem ending_get {α : Type} {f : Active → Op Error Active α} (follows : ∀ s, Keeps Follows (f s))
    (behind : ∀ s, limit ≤ s.writer.payloadOffset → Keeps (Behind limit) (f s)) :
    Keeps (Ending limit) (get >>= f) :=
  fun s => ⟨follows s s, fun place => behind s place s⟩

theorem writeOffsets_ending (codecs : Codecs) : Keeps (Ending limit) (writeOffsets codecs) := by
  refine Keeps.bind Keeps.get fun s => ?_
  refine Keeps.bind (Keeps.failIf _ _) fun _ => ?_
  refine Keeps.bind (ending_of (setOffset_follows _ _) (modifyWriter_behind _)) fun _ => ?_
  refine Keeps.bind ?_ fun _ => ?_
  · cases s.writer.checksums with
    | none => exact Keeps.pure ()
    | some sums =>
      exact ending_of (writeChecksums_follows codecs sums) (writeChecksums_behind codecs sums)
  refine Keeps.bind (ending_of (streamDisk_follows _) (streamDisk_behind (Disk.keeps_alloc _)))
    fun _ => ?_
  refine ending_get (fun s => ?_) fun s place => ?_
  · refine Keeps.bind (streamDisk_follows _) fun table => ?_
    exact Keeps.bind (streamDisk_follows _) fun _ => Keeps.pure _
  · refine Keeps.bind (streamDisk_behind (Disk.keeps_onPlan _)) fun table => ?_
    refine Keeps.bind (streamDisk_behind (Disk.keeps_writeAt _ place table)) fun _ => ?_
    exact Keeps.pure _

theorem closePayload_ending (codecs : Codecs) : Keeps (Ending limit) (closePayload codecs) := by
  refine Keeps.bind Keeps.get fun s => ?_
  refine Keeps.bind (Keeps.failIf _ _) fun _ => ?_
  refine Keeps.bind ?_ fun tableSize => ?_
  · split
    · exact writeOffsets_ending codecs
    · exact Keeps.pure _
  refine ending_get (fun s => ?_) fun s place => ?_
  · refine Keeps.bind (streamDisk_follows _) fun _ => ?_
    exact Keeps.bind (Keeps.failIf _ _) fun _ => Keeps.pure _
  · have above : limit ≤ s.writer.payloadOffset + (s.writer.packedTotal + tableSize) := by omega
    refine Keeps.bind (streamDisk_behind (Disk.keeps_seek _ above)) fun _ => ?_
    exact Keeps.bind (Keeps.failIf _ _) fun _ => Keeps.pure _

theorem closePayload_prefix {codecs : Codecs} {s s' : Active} {total : Nat}
    (run : closePayload codecs s = .ok total s') :
    s'.archive.disk.pos = s'.writer.payloadOffset + total ∧
      s'.writer.prefixSize ≤ s'.writer.payloadOffset ∧
      (s'.writer.prefixSize = 0 ∨ total ≤ uint32Max - s'.writer.prefixSize) := by
  unfold closePayload at run
  rw [bind_of_ok (get_run s)] at run
  obtain ⟨-, run⟩ := failIf_bind_ok.mp run
  obtain ⟨table, t, -, run⟩ := bind_ok.mp run
  rw [bind_of_ok (get_run t)] at run
  obtain ⟨_, _, sought, run⟩ := bind_ok.mp run
  obtain ⟨disk, seek, rfl⟩ := streamDisk_ok.mp sought
  obtain ⟨fits, run⟩ := failIf_bind_ok.mp run
  obtain ⟨rfl, rfl⟩ := pure_ok.mp run
  rw [Disk.seek_ok seek]
  refine ⟨rfl, ?_, ?_⟩
  · exact Nat.le_of_not_lt fun short => fits (.inl short)
  · by_cases none : t.writer.prefixSize = 0
    · exact .inl none
    · exact .inr (Nat.le_of_not_lt fun large => fits (.inr ⟨none, large⟩))

theorem publish_entry (blockOffset total : Nat) (s : Active) :
    ∃ hash rows, (final (publish blockOffset total s)).archive =
      { publishBlock s.writer blockOffset total s.archive with hash, attributes := rows } := by
  simp only [publish, bind_run, get_run, onArchive, zoom, modify_run]
  cases freeSlot (publishBlock s.writer blockOffset total s.archive) (fileHash s.writer.name).hash1
    (publishBlock s.writer blockOffset total s.archive).hashCapacity 0 with
  | none => exact ⟨_, _, rfl⟩
  | some pos => exact ⟨_, _, rfl⟩

def Advances (base limit : Nat) (a a' : WriteArchive) : Prop :=
  ∃ limit', limit ≤ limit' ∧ Placement base limit' a' ∧ Preserves limit a a'

theorem Placement.moved {base : Nat} {a : WriteArchive} (placed : Placement base limit a) {disk : Disk}
    (behind : Disk.Above limit a.disk disk) (rows : Option (Nat → FileAttributes))
    {current : Option Writer} (active : ∀ w, current = some w → Placed limit w) :
    Advances base limit a { a with disk, attributes := rows, current } := by
  obtain ⟨pos, -, same⟩ := behind placed.pos
  refine ⟨limit, le_rfl, ?_, ?_⟩
  · exact ⟨placed.reserved, placed.first, placed.last, placed.ordered, pos, active⟩
  · exact ⟨le_rfl, fun _ _ => rfl, fun _ _ => rfl, same⟩

def entered (w : Writer) (total : Nat) (hash : Nat → HashEntry)
    (rows : Option (Nat → FileAttributes)) (a : WriteArchive) : WriteArchive :=
  { publishBlock w (w.payloadOffset - w.prefixSize) total a with
    hash, attributes := rows, current := none }

section entered

variable {a : WriteArchive} {w : Writer} {total : Nat} {hash : Nat → HashEntry}
  {rows : Option (Nat → FileAttributes)}

theorem entered_block {i : Nat} (old : i < a.nextBlock) :
    (entered w total hash rows a).block i = a.block i := if_neg (Nat.ne_of_lt old)

theorem entered_blockEx {i : Nat} (old : i < a.nextBlock) :
    (entered w total hash rows a).blockEx i = a.blockEx i := if_neg (Nat.ne_of_lt old)

theorem payloadStart_entered (small : w.payloadOffset ≤ uint32Max) :
    payloadStart (entered w total hash rows a) a.nextBlock = w.payloadOffset - w.prefixSize := by
  have high : (w.payloadOffset - w.prefixSize) >>> 32 = 0 := by
    rw [Nat.shiftRight_eq_div_pow]
    exact Nat.div_eq_of_lt (by simp only [uint32Max] at small; omega)
  simp only [payloadStart, entered, publishBlock, storeAt, if_true, blockEntry, high,
    UInt32.toNat_ofNat', UInt16.toNat_ofNat', Nat.zero_mod, uint32Max] at small ⊢
  omega

theorem payloadStop_entered (small : w.payloadOffset ≤ uint32Max)
    (fits : total + w.prefixSize ≤ uint32Max) (inside : w.prefixSize ≤ w.payloadOffset) :
    payloadStop (entered w total hash rows a) a.nextBlock = w.payloadOffset + total := by
  have size : ((entered w total hash rows a).block a.nextBlock).packedSize.toNat =
      total + w.prefixSize := by
    simp only [entered, publishBlock, storeAt, if_true, blockEntry, UInt32.toNat_ofNat',
      uint32Max] at fits ⊢
    omega
  rw [payloadStop, payloadStart_entered small, size]
  omega

theorem Placement.entered {base : Nat} (placed : Placement base limit a) (place : Placed limit w)
    (stop : a.disk.pos = w.payloadOffset + total)
    (fits : w.prefixSize = 0 ∨ total ≤ uint32Max - w.prefixSize) (small : ¬ oversized w total)
    (hash : Nat → HashEntry) (rows : Option (Nat → FileAttributes)) :
    Advances base limit a (entered w total hash rows a) := by
  have start := place.start
  have offset : w.payloadOffset ≤ uint32Max := Nat.le_of_not_lt fun large => small (.inl large)
  have size : total + w.prefixSize ≤ uint32Max := by
    have := place.small
    have : total ≤ uint32Max := Nat.le_of_not_lt fun large => small (.inr (.inl large))
    omega
  have below := placed.reserved
  have oldStart : ∀ i, i < a.nextBlock → payloadStart (Writing.entered w total hash rows a) i =
      payloadStart a i := fun i old => by
    rw [payloadStart, payloadStart, entered_block old, entered_blockEx old]
  have oldStop : ∀ i, i < a.nextBlock → payloadStop (Writing.entered w total hash rows a) i =
      payloadStop a i := fun i old => by
    rw [payloadStop, payloadStop, oldStart i old, entered_block old]
  have newStart := @payloadStart_entered a w total hash rows offset
  have newStop := @payloadStop_entered a w total hash rows offset size (by omega)
  have cases : ∀ i, i < (Writing.entered w total hash rows a).nextBlock →
      i < a.nextBlock ∨ i = a.nextBlock := fun i bound => Nat.lt_or_eq_of_le (Nat.le_of_lt_succ bound)
  refine ⟨w.payloadOffset + total, by omega, ⟨by omega, ?_, ?_, ?_, stop.ge, nofun⟩,
    ⟨Nat.le_succ _, fun _ => entered_block, fun _ => entered_blockEx, fun _ _ => rfl⟩⟩
  · intro i bound
    rcases cases i bound with old | rfl
    · exact (placed.first i old).trans_eq (oldStart i old).symm
    · omega
  · intro i bound
    rcases cases i bound with old | rfl
    · have := placed.last i old
      rw [oldStop i old]
      omega
    · exact newStop.le
  · intro i j order bound
    rcases cases j bound with old | rfl
    · rw [oldStop i (order.trans old), oldStart j old]
      exact placed.ordered i j order old
    · have := placed.last i order
      rw [oldStop i order, newStart]
      omega

end entered

theorem Preserves.trans {limit limit' : Nat} {a a' a'' : WriteArchive} (up : limit ≤ limit')
    (first : Preserves limit a a') (second : Preserves limit' a' a'') : Preserves limit a a'' where
  nextBlock := first.nextBlock.trans second.nextBlock
  block i old := (second.block i (old.trans_le first.nextBlock)).trans (first.block i old)
  blockEx i old := (second.blockEx i (old.trans_le first.nextBlock)).trans (first.blockEx i old)
  bytes p below := (second.bytes p (below.trans_le up)).trans (first.bytes p below)

section calls

variable {base : Nat} {a : WriteArchive}

theorem Advances.trans {a' a'' : WriteArchive} (first : Advances base limit a a')
    (second : ∀ limit', Placement base limit' a' → Advances base limit' a' a'') :
    Advances base limit a a'' := by
  obtain ⟨limit', up, placed, same⟩ := first
  obtain ⟨limit'', up', placed', same'⟩ := second limit' placed
  exact ⟨limit'', up.trans up', placed', same.trans up same'⟩

theorem Placed.follows {s s' : Active} (place : Placed limit s.writer) (follows : Follows s s') :
    Placed limit s'.writer := by
  have start := place.start
  have small := place.small
  rw [← follows.prefixSize] at start small
  rw [← follows.payloadOffset] at start
  exact ⟨start, small⟩

theorem Placement.ending {w : Writer} {s : Active} (placed : Placement base limit a)
    (active : a.current = some w) (ending : Ending limit ⟨w, a⟩ s) {current : Option Writer}
    (next : ∀ w', current = some w' → w' = s.writer) :
    Advances base limit a { s.archive with current } := by
  have place := placed.active w active
  have start := place.start
  have behind : Behind limit ⟨w, a⟩ s := ending.behind (by simp only; omega)
  obtain ⟨disk, archive⟩ := ending.follows.archive
  unfold Behind at behind
  rw [archive] at behind ⊢
  refine placed.moved behind a.attributes fun w' chosen => ?_
  rw [next w' chosen]
  exact place.follows ending.follows

theorem fileWrite_advances {codecs : Codecs} {data : Bytes} (placed : Placement base limit a) :
    Advances base limit a (final (fileWrite codecs data a)) := by
  unfold fileWrite withWriter
  cases active : a.current with
  | none => exact ⟨limit, le_rfl, placed, ⟨le_rfl, fun _ _ => rfl, fun _ _ => rfl, fun _ _ => rfl⟩⟩
  | some w =>
    have kept : Ending limit ⟨w, a⟩ (final (streamWrite codecs data ⟨w, a⟩)) :=
      ending_of (streamWrite_follows codecs data) (streamWrite_behind codecs data) ⟨w, a⟩
    simp only
    cases run : streamWrite codecs data ⟨w, a⟩ with
    | ok _ s =>
      rw [run] at kept
      exact placed.ending active kept fun w' same => (Option.some.inj same).symm
    | error e s =>
      rw [run] at kept
      exact placed.ending active kept fun w' same => (Option.some.inj same).symm

def Releases (base limit : Nat) (a : WriteArchive) (r : EStateM.Result Error Active Unit) : Prop :=
  Advances base limit a { (final r).archive with current := none }

theorem streamEnd_releases {codecs : Codecs} {w : Writer} (placed : Placement base limit a)
    (active : a.current = some w) : Releases base limit a (streamEnd codecs ⟨w, a⟩) := by
  have failed : ∀ e s, Ending limit ⟨w, a⟩ s → Releases base limit a (.error e s) :=
    fun _ s ending => placed.ending active ending nofun
  refine Keeps.bind_elim (R := Ending limit) Keeps.get (refl_of _ _) failed fun _ t got same => ?_
  cases got
  refine Keeps.bind_elim (R := Ending limit) ?_ same failed fun _ t _ same => ?_
  · split
    · exact ending_of (flushSector_follows codecs) (flushSector_behind codecs)
    · exact Keeps.pure ()
  refine Keeps.bind_elim (closePayload_ending codecs) same failed fun total t closed same => ?_
  rw [bind_of_ok (get_run t)]
  obtain ⟨stop, -, fits⟩ := closePayload_prefix closed
  by_cases large : oversized t.writer total
  · rw [if_pos large]
    exact placed.ending active (trans_of (Ending limit) same (Keeps.failIf _ _ t)) nofun
  · rw [if_neg large]
    obtain ⟨hash, rows, archive⟩ := publish_entry (t.writer.payloadOffset - t.writer.prefixSize)
      total t
    unfold Releases
    rw [archive]
    refine (placed.ending active same fun _ same => (Option.some.inj same).symm).trans
      fun limit' placed' => ?_
    have started := placed'.active t.writer rfl
    exact placed'.entered started stop fits large hash rows

theorem fileFinish_advances {codecs : Codecs} (placed : Placement base limit a) :
    Advances base limit a (final (fileFinish codecs a)) := by
  cases active : a.current with
  | none =>
    simp only [fileFinish, dropWriter, withWriter, active]
    exact placed.moved (refl_of (Disk.Above limit) a.disk) a.attributes fun w active => by cases active
  | some w =>
    have ended : Releases base limit a (streamEnd codecs ⟨w, a⟩) := streamEnd_releases placed active
    simp only [fileFinish, dropWriter, withWriter, active]
    cases run : streamEnd codecs ⟨w, a⟩ <;> rw [run] at ended <;> exact ended

theorem fileAbort_advances (placed : Placement base limit a) :
    Advances base limit a (final (fileAbort a)) :=
  placed.moved (refl_of (Disk.Above limit) a.disk) a.attributes nofun

def Opens (limit : Nat) (a a' : WriteArchive) : Prop :=
  ∃ disk rows, a' = { a with disk, attributes := rows } ∧ Disk.Above limit a.disk disk

instance : Std.Refl (Opens limit) :=
  ⟨fun a => ⟨a.disk, a.attributes, rfl, refl_of (Disk.Above limit) a.disk⟩⟩

instance : IsTrans WriteArchive (Opens limit) where
  trans := by
    rintro a _ _ ⟨disk, rows, rfl, above⟩ ⟨disk', rows', rfl, above'⟩
    exact ⟨disk', rows', rfl, trans_of (Disk.Above limit) above above'⟩

theorem onDisk_opens {α : Type} {x : Op Error Disk α} (keeps : Keeps (Disk.Above limit) x) :
    Keeps (Opens limit) (onDisk x) :=
  Keeps.zoom keeps fun a d above => ⟨d, a.attributes, rfl, above⟩

theorem reserveAttributes_opens (name : Bytes) : Keeps (Opens limit) (reserveAttributes name) := by
  refine Keeps.bind Keeps.get fun a => ?_
  split
  · refine Keeps.bind (Keeps.failIf _ _) fun _ => ?_
    refine Keeps.bind (Keeps.failIf _ _) fun _ => ?_
    cases a.attributes with
    | some rows => exact Keeps.pure ()
    | none =>
      refine Keeps.bind (onDisk_opens (Disk.keeps_alloc _)) fun _ => ?_
      exact Keeps.modify fun a => ⟨a.disk, _, rfl, refl_of (Disk.Above limit) a.disk⟩
  · exact Keeps.pure ()

theorem checkOptions_opens (a : WriteArchive) (options : FileOptions) :
    Keeps (Opens limit) (checkOptions a options) :=
  Keeps.bind (Keeps.failIf _ _) fun _ =>
    Keeps.bind (Keeps.failIf _ _) fun _ => Keeps.failIf _ _

theorem reserveOffsets_opens {w : Writer} (place : Placed limit w) :
    Keeps (Opens limit) (reserveOffsets w) := by
  have start := place.start
  unfold reserveOffsets
  split
  · refine Keeps.bind (Keeps.failIf _ _) fun _ => ?_
    refine Keeps.bind (onDisk_opens (Disk.keeps_alloc _)) fun _ => ?_
    exact Keeps.bind (onDisk_opens (Disk.keeps_seek _ (by omega))) fun _ => Keeps.pure _
  · exact Keeps.pure w

theorem reserveOffsets_placed {w w' : Writer} (place : Placed limit w) {a' : WriteArchive}
    (run : reserveOffsets w a = .ok w' a') : Placed limit w' := by
  unfold reserveOffsets at run
  split at run
  · obtain ⟨-, run⟩ := failIf_bind_ok.mp run
    obtain ⟨-, _, -, run⟩ := bind_ok.mp run
    obtain ⟨-, _, -, run⟩ := bind_ok.mp run
    rw [(pure_ok.mp run).1]
    exact ⟨place.start, place.small⟩
  · rw [(pure_ok.mp run).1]
    exact place

def Prepared (limit : Nat) (a : WriteArchive) (r : EStateM.Result Error WriteArchive Writer) : Prop :=
  Opens limit a (final r) ∧ ∀ w a', r = .ok w a' → Placed limit w

theorem prepareWriter_prepared {name : Bytes} {size : Int} {options : FileOptions}
    {patch : PatchPrefix} (pos : limit ≤ a.disk.pos) (small : patch.bytes.length ≤ uint32Max) :
    Prepared limit a (prepareWriter name size options patch a) := by
  have failed : ∀ e a', Opens limit a a' → Prepared limit a (.error e a') :=
    fun _ _ opens => ⟨opens, fun _ _ ok => nomatch ok⟩
  refine Keeps.bind_elim (R := Opens limit) Keeps.get (refl_of _ _) failed fun _ t got same => ?_
  cases got
  refine Keeps.bind_elim (Keeps.failIf _ _) same failed fun _ _ _ same => ?_
  refine Keeps.bind_elim (Keeps.failIf _ _) same failed fun _ _ _ same => ?_
  refine Keeps.bind_elim (Keeps.failIf _ _) same failed fun _ _ _ same => ?_
  refine Keeps.bind_elim (reserveAttributes_opens name) same failed fun _ _ _ same => ?_
  refine Keeps.bind_elim (onDisk_opens (Disk.keeps_alloc _)) same failed fun _ _ _ same => ?_
  refine Keeps.bind_elim (Keeps.failIf _ _) same failed fun _ _ _ same => ?_
  refine Keeps.bind_elim (checkOptions_opens a options) same failed fun _ _ _ same => ?_
  refine Keeps.bind_elim (Keeps.failIf _ _) same failed fun _ _ _ same => ?_
  refine Keeps.bind_elim (onDisk_opens (Disk.keeps_alloc _)) same failed fun _ _ _ same => ?_
  refine Keeps.bind_elim (Keeps.failIf _ _) same failed fun _ b _ before => ?_
  refine Keeps.bind_elim (onDisk_opens (Disk.keeps_tell _)) before failed fun position _ told same => ?_
  -- The member begins where the file stood, and that is behind everything published.
  have place : limit ≤ position := by
    obtain ⟨disk, tell, -⟩ := onDisk_ok.mp told
    obtain ⟨disk', rows, rfl, above⟩ := before
    rw [(Disk.tell_ok tell).1]
    exact (above pos).1
  refine Keeps.bind_elim (R := Opens limit) ?_ same failed fun _ t _ same => ?_
  · split
    · exact Keeps.pure ()
    · exact onDisk_opens (Disk.keeps_writeAt _ place _)
  generalize start : newWriter a name size.toNat (effectiveOptions a size.toNat options) patch
    (position + patch.bytes.length) = w
  have placed : Placed limit w := by
    subst start
    exact ⟨Nat.add_le_add_right place _, small⟩
  refine ⟨trans_of (Opens limit) same (reserveOffsets_opens placed t), fun w' a' run => ?_⟩
  exact reserveOffsets_placed placed run

theorem fileBeginWith_advances {name : Bytes} {size : Int} {options : FileOptions}
    {patch : PatchPrefix} (placed : Placement base limit a) (small : patch.bytes.length ≤ uint32Max) :
    Advances base limit a (final (fileBeginWith name size options patch a)) := by
  have prepared := @prepareWriter_prepared limit a name size options patch placed.pos small
  unfold fileBeginWith
  cases run : prepareWriter name size options patch a with
  | error e a' =>
    rw [bind_of_error run]
    rw [run] at prepared
    obtain ⟨⟨disk, rows, archive, above⟩, -⟩ := prepared
    rw [final_error] at archive ⊢
    rw [archive]
    exact placed.moved above rows placed.active
  | ok w a' =>
    rw [bind_of_ok run]
    rw [run] at prepared
    obtain ⟨⟨disk, rows, archive, above⟩, start⟩ := prepared
    rw [final_ok] at archive
    rw [archive]
    refine placed.moved above rows fun w' chosen => ?_
    rw [← Option.some.inj chosen]
    exact start w a' rfl

end calls

def Places (base : Nat) (a a' : WriteArchive) : Prop :=
  ∀ limit, Placement base limit a → Advances base limit a a'

section runs

variable {base : Nat}

instance : Std.Refl (Places base) := ⟨fun a limit placed =>
  placed.moved (refl_of (Disk.Above limit) a.disk) a.attributes placed.active⟩

instance : IsTrans WriteArchive (Places base) where
  trans _ _ _ first second limit placed := (first limit placed).trans second

theorem stable_places (codecs : Codecs) : Stable codecs (Places base) where
  begin _ _ _ _ _ placed := fileBeginWith_advances placed (Nat.zero_le _)
  write _ _ _ placed := fileWrite_advances placed
  finish _ _ placed := fileFinish_advances placed
  abort _ _ placed := fileAbort_advances placed

theorem patchFileAdd_places (codecs : Codecs) (name info body : Bytes) (resultSize : Int)
    (options : FileOptions) :
    Keeps (Places base) (patchFileAdd codecs name info body resultSize options) := by
  refine Keeps.bind Keeps.get fun _ => ?_
  refine Keeps.bind (Keeps.failIf _ _) fun _ => ?_
  refine Keeps.bind (Keeps.failIf _ _) fun _ => ?_
  -- The length the prefix records has 32 bits, and it is the length it has.
  by_cases small : info.length ≤ uint32Max
  · refine Keeps.bind (Keeps.failIf _ _) fun _ => ?_
    refine Keeps.bind (fun _ _ placed => fileBeginWith_advances placed small) fun _ => ?_
    refine Keeps.bind ((stable_places codecs).orAbort ((stable_places codecs).write body)) fun _ => ?_
    exact (stable_places codecs).finish
  · intro a
    have wrong : (Crypto.loadLe32 info).toNat ≠ info.length := by
      have := (Crypto.loadLe32 info).toNat_lt
      simp only [uint32Max] at small
      omega
    rw [bind_of_error (failIf_true (.inr (.inl wrong)) _ _)]
    exact refl_of (Places base) a

theorem patchDeleteMarker_places (codecs : Codecs) (name : Bytes) (locale platform : UInt16) :
    Keeps (Places base) (patchDeleteMarker codecs name locale platform) := by
  refine Keeps.bind Keeps.get fun _ => ?_
  refine Keeps.bind (Keeps.failIf _ _) fun _ => ?_
  exact (stable_places codecs).add _ _ _

theorem archiveSign_places (codecs : Codecs) (type : SignatureType) (key : Bytes) :
    Keeps (Places base) (archiveSign codecs type key) := by
  refine Keeps.bind Keeps.get fun a => ?_
  refine Keeps.bind (Keeps.failIf _ _) fun _ => ?_
  have settles : ∀ (a : WriteArchive) rows offset key strongKey weak strong, Places base a
      { a with
        attributes := rows
        signature := weak
        signatureOffset := offset
        signatureKey := key
        strongSignature := strong
        strongSignatureKey := strongKey } := by
    intro a rows offset key strongKey weak strong limit placed
    refine ⟨limit, le_rfl, ?_, ⟨le_rfl, fun _ _ => rfl, fun _ _ => rfl, fun _ _ => rfl⟩⟩
    exact ⟨placed.reserved, placed.first, placed.last, placed.ordered, placed.pos, placed.active⟩
  cases type with
  | strong =>
    refine Keeps.bind (Keeps.failIf _ _) fun _ => ?_
    exact Keeps.modify fun b => settles b _ _ _ _ _ _
  | weak =>
    refine Keeps.bind (Keeps.failIf _ _) fun _ => ?_
    refine Keeps.bind (Keeps.failIf _ _) fun _ => ?_
    refine Keeps.bind ((stable_places codecs).add _ _ _) fun _ => ?_
    exact Keeps.modify fun b => settles b _ _ _ _ _ _

theorem Stable.call {codecs : Codecs} {R : WriteArchive → WriteArchive → Prop} [Std.Refl R]
    [IsTrans WriteArchive R] (stable : Stable codecs R) (call : Call) : Keeps R (call.run codecs) := by
  cases call with
  | begin name size options => exact stable.begin name size options
  | write data => exact stable.write data
  | finish => exact stable.finish
  | abort => exact stable.abort
  | add name data options => exact stable.add name data options

/-- Everything a write handle accepts before it is closed. -/
inductive Request where
  | member (call : Call)
  | addPath (name : Bytes) (source : Disk) (options : FileOptions)
  | sign (type : SignatureType) (key : Bytes)
  | patchAdd (name info body : Bytes) (resultSize : Int) (options : FileOptions)
  | deleteMarker (name : Bytes) (locale platform : UInt16)

def Request.run (codecs : Codecs) : Request → Op Error WriteArchive Unit
  | .member call => call.run codecs
  | .addPath name source options => fileAddPath codecs name source options
  | .sign type key => archiveSign codecs type key
  | .patchAdd name info body resultSize options =>
    patchFileAdd codecs name info body resultSize options
  | .deleteMarker name locale platform => patchDeleteMarker codecs name locale platform

/-- The state after the requests, whatever each of them returned. -/
def serve (codecs : Codecs) (requests : List Request) (a : WriteArchive) : WriteArchive :=
  requests.foldl (fun a request => final (request.run codecs a)) a

theorem Request.run_places (codecs : Codecs) (request : Request) :
    Keeps (Places base) (request.run codecs) := by
  cases request with
  | member call => exact (stable_places codecs).call call
  | addPath name source options => exact (stable_places codecs).addPath name source options
  | sign type key => exact archiveSign_places codecs type key
  | patchAdd name info body resultSize options =>
    exact patchFileAdd_places codecs name info body resultSize options
  | deleteMarker name locale platform => exact patchDeleteMarker_places codecs name locale platform

theorem serve_places (codecs : Codecs) (requests : List Request) (a : WriteArchive) :
    Places base a (serve codecs requests a) := by
  induction requests generalizing a with
  | nil => exact refl_of (Places base) a
  | cons request rest ih => exact trans_of (Places base) (request.run_places codecs a) (ih _)

end runs

theorem reserveTables_pos {o : CreateOptions} {d d' : Disk} {u : Unit}
    (run : reserveTables o d = .ok u d') : d'.pos = firstPayloadOf o := by
  unfold reserveTables at run
  obtain ⟨-, _, -, run⟩ := bind_ok.mp run
  obtain ⟨-, _, -, run⟩ := bind_ok.mp run
  obtain ⟨-, run⟩ := failIf_bind_ok.mp run
  obtain ⟨-, _, -, run⟩ := bind_ok.mp run
  obtain ⟨-, _, -, run⟩ := bind_ok.mp run
  obtain ⟨-, _, -, run⟩ := bind_ok.mp run
  rw [Disk.seek_ok run]

/-- A patch writer is a new archive that also takes patch members. -/
def patching (mode : Bool) (a : WriteArchive) : WriteArchive := { a with patchMode := mode }

theorem created_placement {o : CreateOptions} {plan : Faults} {a : WriteArchive}
    (created : archiveCreate o plan = .ok a) (mode : Bool) :
    Placement (firstPayloadOf o) (firstPayloadOf o) (patching mode a) := by
  obtain ⟨-, disk, reserved, rfl⟩ := archiveCreate_ok created
  have none : ∀ i, ¬ i < (newArchive o disk).nextBlock := fun i => Nat.not_lt_zero i
  refine ⟨le_rfl, fun i old => absurd old (none i), fun i old => absurd old (none i),
    fun i j _ old => absurd old (none j), (reserveTables_pos reserved).ge, nofun⟩

theorem payloads_apart {codecs : Codecs} {o : CreateOptions} {plan : Faults} {start : WriteArchive}
    (created : archiveCreate o plan = .ok start) (mode : Bool) (requests later : List Request) :
    let a := serve codecs requests (patching mode start)
    let a' := serve codecs later a
    (∀ i, i < a.nextBlock → firstPayloadOf o ≤ payloadStart a i) ∧
      (∀ i j, i < a.nextBlock → j < a.nextBlock → i ≠ j →
        payloadStop a i ≤ payloadStart a j ∨ payloadStop a j ≤ payloadStart a i) ∧
      ∀ i, i < a.nextBlock → i < a'.nextBlock ∧ payloadStart a' i = payloadStart a i ∧
        payloadStop a' i = payloadStop a i ∧
        ∀ p, payloadStart a i ≤ p → p < payloadStop a i →
          a'.disk.file.byte p = a.disk.file.byte p := by
  intro a a'
  obtain ⟨limit, -, placed, -⟩ := serve_places codecs requests _ _ (created_placement created mode)
  obtain ⟨limit', -, -, same⟩ := serve_places codecs later a limit placed
  refine ⟨placed.first, fun i j left right apart => ?_, fun i old => ?_⟩
  · rcases Nat.lt_or_gt_of_ne apart with before | after
    · exact .inl (placed.ordered i j before right)
    · exact .inr (placed.ordered j i after left)
  · have stays : payloadStart a' i = payloadStart a i := by
      rw [payloadStart, payloadStart, same.block i old, same.blockEx i old]
    refine ⟨old.trans_le same.nextBlock, stays, ?_, fun p _ inside => ?_⟩
    · rw [payloadStop, payloadStop, stays, same.block i old]
    · exact same.bytes p (inside.trans_le (placed.last i old))

def twoMembers : List Request :=
  [.member (.add [0x61] [1, 2, 3] .default), .member (.begin [0x62] 2 .default), .member (.write [4, 5]),
    .member .finish]

def abortAndAdd : List Request :=
  [.member (.begin [0x63] 2 .default), .member (.write [6]), .member .abort, .member (.add [0x63] [7] .default)]

theorem payloads_apart_two_members :
    archiveCreate .default Faults.healthy = .ok (created .default) ∧
      let a := serve Compression.zeroRunCodecs twoMembers (patching false (created .default))
      let a' := serve Compression.zeroRunCodecs abortAndAdd a
      (a.nextBlock = 2 ∧ a'.nextBlock = 3) ∧
      (payloadStart a 0 < payloadStop a 0 ∧ payloadStart a 1 < payloadStop a 1 ∧
        (payloadStop a 0 ≤ payloadStart a 1 ∨ payloadStop a 1 ≤ payloadStart a 0)) ∧
      a'.disk.file.byte (payloadStart a 0) = 1 ∧ a'.disk.file.byte (payloadStart a 1) = 4 := by
  have made : archiveCreate .default Faults.healthy = .ok (created .default) :=
    archiveCreate_calm (by decide) (by decide)
  obtain ⟨-, apart, kept⟩ := @payloads_apart Compression.zeroRunCodecs _ _ _ made false twoMembers abortAndAdd
  have counts : (serve Compression.zeroRunCodecs twoMembers (patching false (created .default))).nextBlock = 2 := by
    decide +kernel
  have first : 0 < (serve Compression.zeroRunCodecs twoMembers (patching false (created .default))).nextBlock := by
    rw [counts]
    decide
  have second : 1 < (serve Compression.zeroRunCodecs twoMembers (patching false (created .default))).nextBlock := by
    rw [counts]
    decide
  obtain ⟨-, -, -, stays⟩ := kept 0 first
  obtain ⟨-, -, -, stays'⟩ := kept 1 second
  refine ⟨made, ⟨counts, ?_⟩, ⟨?_, ?_, apart 0 1 first second (by decide)⟩, (stays _ le_rfl ?_).trans ?_,
    (stays' _ le_rfl ?_).trans ?_⟩
  all_goals decide +kernel

end Writing

end LibMpq
