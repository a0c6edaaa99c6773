import LibMpq.ReaderBounds

set_option autoImplicit false

-- Every table that `libmpq__reader_offsets_acquire` accepts for a serialized member is in
-- order, and every read of a block, of its method byte or of the sector checksums lies in the
-- file. One read does not: the key of a raw encrypted member is sought in eight bytes whose
-- range nobody has looked at.

namespace LibMpq

open Effect Bits Reading

namespace Watching

structure Ordered (a : ReadArchive) (n : Nat) (table : Nat → UInt32) : Prop where
  first : (table 0).toNat = tableSize a n
  rises : ∀ i, i < Reading.countFileBlocks a n → table i ≤ table (i + 1)
  within : ∀ i, i ≤ Reading.countFileBlocks a n → table i ≤ (entry a n).packedSize

def storedTable (a : ReadArchive) (n : Nat) (seed : Option UInt32) : Nat → UInt32 :=
  let raw := a.source.read (payloadOffset a (entryIndex a n)) (tableSize a n)
  let key := (seed.orElse fun _ => Crypto.deriveBlockTableSeed raw a.blockSize).getD 0
  Wire.le32.decodeTable
    (if has (entry a n).flags Flag.encrypted ∨ looksEncrypted raw (tableSize a n) then
      Crypto.decryptBlock raw (key - 1)
    else raw)

section loads

variable {a b : ReadArchive} {n : Nat} {seed : Option UInt32}

theorem ascending_ordered {table : Nat → UInt32} (first : table 0 = UInt32.ofNat (tableSize a n))
    (fits : tableSize a n ≤ (entry a n).packedSize.toNat)
    (rises : ascending table (entry a n).packedSize (Reading.countFileBlocks a n + 1) = true) : Ordered a n table := by
  have small : tableSize a n < 2 ^ 32 := fits.trans_lt (UInt32.toNat_lt _)
  have start : (table 0).toNat = tableSize a n := by
    rw [first, UInt32.toNat_ofNat']
    exact Nat.mod_eq_of_lt small
  have steps : ∀ i, i < Reading.countFileBlocks a n → table i ≤ table (i + 1) ∧ table (i + 1) ≤ (entry a n).packedSize := by
    intro i below
    exact of_decide_eq_true (List.all_eq_true.mp rises i (List.mem_range.mpr below))
  refine ⟨start, fun i below => (steps i below).1, fun i inside => ?_⟩
  cases i with
  | zero =>
    rw [UInt32.le_iff_toNat_le, start]
    exact fits
  | succ i => exact (steps i inside).2

theorem decryptTable_raw {size : Nat} {raw : Bytes} {loaded : LoadedTable} {s t : ReadArchive}
    (run : decryptTable a size raw seed s = .ok loaded t) :
    loaded.raw = Crypto.decryptBlock raw
      ((seed.orElse fun _ => Crypto.deriveBlockTableSeed raw a.blockSize).getD 0 - 1) := by
  unfold decryptTable at run
  cases key : seed.orElse fun _ => Crypto.deriveBlockTableSeed raw a.blockSize with
  | none =>
    rw [key] at run
    cases run
  | some key' =>
    rw [key] at run
    obtain ⟨-, run⟩ := failIf_bind_ok.mp run
    obtain ⟨rfl, -⟩ := pure_ok.mp run
    rfl

theorem detectSeed_table {count : Nat} {offsets detected : Offsets}
    (run : Reading.detectSeed n count offsets a = .ok detected b) : detected.table = offsets.table := by
  unfold Reading.detectSeed at run
  rw [bind_of_ok (get_run a)] at run
  split at run
  next =>
    obtain ⟨-, run⟩ := failIf_bind_ok.mp run
    obtain ⟨-, run⟩ := failIf_bind_ok.mp run
    obtain ⟨-, run⟩ := failIf_bind_ok.mp run
    obtain ⟨first, _, -, run⟩ := bind_ok.mp run
    cases found : Crypto.detectFileKey first (entry a n).unpackedSize with
    | none =>
      rw [found] at run
      cases run
    | some seed =>
      rw [found] at run
      obtain ⟨rfl, -⟩ := pure_ok.mp run
      rfl
  next =>
    obtain ⟨rfl, -⟩ := pure_ok.mp run
    rfl

theorem loadTable_ok {offsets : Offsets}
    (run : Reading.loadTable n (tableSize a n) (Reading.countFileBlocks a n + 1) seed a = .ok offsets b) :
    offsets.table = storedTable a n seed ∧ Ordered a n offsets.table := by
  unfold Reading.loadTable at run
  rw [bind_of_ok (get_run a)] at run
  obtain ⟨fits, run⟩ := failIf_bind_ok.mp run
  obtain ⟨_, s, asked, run⟩ := bind_ok.mp run
  obtain ⟨_, -, rfl⟩ := zoom_ok.mp asked
  obtain ⟨raw, t, loads, run⟩ := bind_ok.mp run
  obtain ⟨_, read, rfl⟩ := zoom_ok.mp loads
  have raw_eq := sourceReadAt_ok read
  obtain ⟨_, u, marked, run⟩ := bind_ok.mp run
  rw [bind_of_ok (get_run u)] at run
  obtain ⟨loaded, _, decrypted, run⟩ := bind_ok.mp run
  obtain ⟨first, run⟩ := failIf_bind_ok.mp run
  obtain ⟨rises, run⟩ := failIf_bind_ok.mp run
  obtain ⟨rfl, -⟩ := pure_ok.mp run
  have bit : has (u.block (entryIndex a n)).flags Flag.encrypted = true ↔
      has (entry a n).flags Flag.encrypted ∨ looksEncrypted raw (tableSize a n) := by
    split at marked
    next looks =>
      cases marked
      have itself : has Flag.encrypted Flag.encrypted = true := by decide
      simp [looks, setFlags, or_has, itself]
    next plain =>
      cases marked
      simp [plain]
      rfl
  refine ⟨?_, ascending_ordered (not_not.mp first) (Nat.le_of_not_lt (not_or.mp fits).1) (Bool.not_eq_false _ ▸ rises)⟩
  rw [storedTable, ← raw_eq]
  split at decrypted
  next encrypted => rw [decryptTable_raw decrypted, if_pos (bit.mp encrypted)]
  next plain =>
    obtain ⟨rfl, -⟩ := pure_ok.mp decrypted
    rw [if_neg (mt bit.mpr plain)]

theorem loadOffsets_ok {name : Option Bytes} {file : FileCache} (run : Reading.loadOffsets n name a = .ok file b) :
    (serialized (entry a n).flags = true →
      file.packedOffset = storedTable a n (name.map (fileSeed (entry a n))) ∧ Ordered a n file.packedOffset) ∧
    (has (entry a n).flags Flag.single = true → file.packedOffset 0 = 0) := by
  unfold Reading.loadOffsets at run
  rw [bind_of_ok (get_run a)] at run
  obtain ⟨-, run⟩ := failIf_bind_ok.mp run
  obtain ⟨_, s, asked, run⟩ := bind_ok.mp run
  obtain ⟨_, -, rfl⟩ := zoom_ok.mp asked
  obtain ⟨_, t, asked, run⟩ := bind_ok.mp run
  obtain ⟨_, -, rfl⟩ := zoom_ok.mp asked
  obtain ⟨offsets, u, loaded, run⟩ := bind_ok.mp run
  obtain ⟨detected, _, detect, run⟩ := bind_ok.mp run
  obtain ⟨rfl, -⟩ := pure_ok.mp run
  have same : detected.table = offsets.table := detectSeed_table detect
  rw [same]
  refine ⟨fun serial => ?_, fun single => ?_⟩
  · rw [if_pos serial] at loaded
    obtain ⟨table, ordered⟩ := loadTable_ok loaded
    exact ⟨table, ordered.first, ordered.rises, ordered.within⟩
  · have plain : serialized (entry a n).flags = false := by simp [serialized, single]
    rw [if_neg (by simp [plain])] at loaded
    obtain ⟨rfl, -⟩ := pure_ok.mp loaded
    simp [synthesized, single]

end loads

structure Held (a : ReadArchive) (n : Nat) (file : FileCache) : Prop where
  member : n < a.files
  ordered : serialized (entry a n).flags = true → Ordered a n file.packedOffset
  single : has (entry a n).flags Flag.single = true → file.packedOffset 0 = 0

def Settled (a : ReadArchive) : Prop := ∀ n file, a.cache n = some file → Held a n file

def Used (a : ReadArchive) : Prop := ∀ n file, a.cache n = some file → file.openCount ≠ 0

def heldTable (a : ReadArchive) (n : Nat) : Nat → UInt32 :=
  match a.cache n with
  | some file => file.packedOffset
  | none => storedTable a n none

section held

variable {a b : ReadArchive} {n : Nat}

theorem learns_of_kept (kept : Kept a b) (member : n < a.files) : Learns n a b := by
  rcases kept.entries (a.blockTableIndices n) with same | ⟨m, place, suspect, locked⟩
  · exact .inl same
  · have index : entryIndex a m = entryIndex a n := place
    have entry_eq : entry a m = entry a n := by rw [entry, index, entry]
    have size : tableSize a m = tableSize a n := by
      rw [tableSize, Reading.countFileBlocks, entry_eq, tableSize, Reading.countFileBlocks]
    refine .inr ⟨locked, member, entry_eq ▸ suspect.serialized, ?_, ?_⟩
    · rw [← entry_eq, ← size, ← index]
      exact suspect.fits
    · rw [← size, ← index]
      exact suspect.first

theorem Ordered.kept {table : Nat → UInt32} (ordered : Ordered a n table) (kept : Kept a b) (member : n < a.files) :
    Ordered b n table := by
  have learns := learns_of_kept kept member
  have same := kept.toSameArchive
  refine ⟨?_, ?_, ?_⟩
  · rw [learns.tableSize_eq same]
    exact ordered.first
  · rw [learns.countFileBlocks_eq same]
    exact ordered.rises
  · rw [learns.countFileBlocks_eq same, learns.packedSize_eq same]
    exact ordered.within

theorem Held.kept {file : FileCache} (held : Held a n file) (kept : Kept a b) : Held b n file := by
  have learns := learns_of_kept kept held.member
  have same := kept.toSameArchive
  refine ⟨same.files ▸ held.member, fun serial => ?_, fun single => ?_⟩
  · rw [learns.serialized_eq same] at serial
    exact (held.ordered serial).kept kept held.member
  · rw [learns.has_eq same (by decide)] at single
    exact held.single single

theorem storedTable_kept (kept : Kept a b) (member : n < a.files) (seed : Option UInt32) :
    storedTable b n seed = storedTable a n seed := by
  have learns := learns_of_kept kept member
  have same := kept.toSameArchive
  have bit : has (entry b n).flags Flag.encrypted ∨
        looksEncrypted (a.source.read (payloadOffset a (entryIndex a n)) (tableSize a n)) (tableSize a n) ↔
      has (entry a n).flags Flag.encrypted ∨
        looksEncrypted (a.source.read (payloadOffset a (entryIndex a n)) (tableSize a n)) (tableSize a n) := by
    rcases learns.entry_eq same with kept | ⟨-, suspect⟩
    · rw [kept]
    · simp only [suspect.first, or_true]
  rw [storedTable, same.source, learns.payloadOffset_eq same, learns.tableSize_eq same, same.blockSize, storedTable]
  simp only [bit]

theorem store_kept (file : Option FileCache) : Kept a (storeCache n file a) :=
  kept_of_same ⟨rfl, rfl, rfl, rfl, rfl, rfl, rfl, rfl, rfl, rfl, fun _ => rfl⟩ rfl

theorem offsetsAcquire_held (settled : Settled a) {name : Option Bytes}
    (run : Reading.offsetsAcquire n name a = .ok () b) :
    ∃ file, (b.cache = fun j => if j = n then some file else a.cache j) ∧ Held b n file ∧
      (name = none → serialized (entry a n).flags = true → file.packedOffset = heldTable a n) := by
  have kept : Kept a b := by
    have spares := @offsetsAcquire_spares n name a
    rw [run] at spares
    exact spares.kept
  unfold Reading.offsetsAcquire at run
  rw [bind_of_ok (get_run a)] at run
  obtain ⟨inside, run⟩ := failIf_bind_ok.mp run
  have member : n < a.files := Nat.lt_of_not_le inside
  cases cached : a.cache n with
  | some file =>
    rw [cached] at run
    cases run
    have held := settled n file cached
    exact ⟨_, rfl, Held.kept ⟨held.member, held.ordered, held.single⟩ kept, fun _ _ => by rw [heldTable, cached]; rfl⟩
  | none =>
    rw [cached] at run
    obtain ⟨file, c, loads, run⟩ := bind_ok.mp run
    cases run
    obtain ⟨serial, single⟩ := loadOffsets_ok loads
    obtain ⟨-, caches⟩ := (loadOffsets_sameCache n name).ok loads
    refine ⟨file, by simp only [storeCache, caches], ?_, fun anonymous serialized => ?_⟩
    · refine Held.kept ⟨member, fun serialized => (serial serialized).2, single⟩ kept
    · rw [heldTable, cached, (serial serialized).1, anonymous]
      rfl

theorem offsetsAcquire_once (used : Used a) {name : Option Bytes} (run : Reading.offsetsAcquire n name a = .ok () b)
    {file : FileCache} (cached : b.cache n = some file) (once : file.openCount = 1) : a.cache n = none := by
  cases before : a.cache n with
  | none => rfl
  | some file' =>
    unfold Reading.offsetsAcquire at run
    rw [bind_of_ok (get_run a)] at run
    obtain ⟨-, run⟩ := failIf_bind_ok.mp run
    rw [before] at run
    cases run
    have same : shareCache (entry a n) name file' = file := by simpa [storeCache] using cached
    have count : file'.openCount + 1 = 1 := (congrArg FileCache.openCount same).trans once
    exact absurd (by grind : file'.openCount = 0) (used n file' before)

theorem Settled.kept (settled : Settled a) (kept : Kept a b) (caches : b.cache = a.cache) : Settled b :=
  fun m file cached => (settled m file (caches ▸ cached)).kept kept

theorem offsetsAcquire_settled (settled : Settled a) (n : Nat) (name : Option Bytes) :
    Settled (final (Reading.offsetsAcquire n name a)) := by
  have kept := (@offsetsAcquire_spares n name a).kept
  cases run : Reading.offsetsAcquire n name a with
  | ok r b =>
    rw [run] at kept
    obtain ⟨file, caches, held, -⟩ := offsetsAcquire_held settled run
    intro m file' cached
    have cached : (if m = n then some file else a.cache m) = some file' :=
      (congrFun caches m).symm.trans cached
    by_cases own : m = n
    next =>
      subst own
      rw [if_pos rfl] at cached
      cases cached
      exact held
    next =>
      rw [if_neg own] at cached
      exact (settled m file' cached).kept kept
  | error e b =>
    rw [run] at kept
    exact settled.kept kept (offsetsAcquire_failed run).2

theorem offsetsRelease_settled (settled : Settled a) (n : Nat) : Settled (final (Reading.offsetsRelease n a)) := by
  unfold Reading.offsetsRelease
  rw [bind_of_ok (get_run a)]
  by_cases outside : n ≥ a.files
  next =>
    rw [bind_of_error (failIf_true outside _ _)]
    exact settled
  rw [bind_of_ok (failIf_false outside _ _)]
  cases cached : a.cache n with
  | none => exact settled
  | some file =>
    have held := settled n file cached
    intro m file' cached'
    change (if m = n then (if file.openCount - 1 = 0 then none else some { file with openCount := file.openCount - 1 })
      else a.cache m) = some file' at cached'
    by_cases own : m = n
    next =>
      subst own
      rw [if_pos rfl] at cached'
      split at cached'
      · cases cached'
      next left =>
        cases cached'
        exact Held.kept ⟨held.member, held.ordered, held.single⟩ (store_kept _)
    next =>
      rw [if_neg own] at cached'
      exact (settled m file' cached').kept (store_kept _)

end held

section extents

variable {a b : ReadArchive} {n : Nat}

theorem payloadRange_kept (kept : Kept a b) (member : n < a.files) (relative size : Nat) :
    payloadRange b (entryIndex b n) relative size ↔ payloadRange a (entryIndex a n) relative size := by
  rw [payloadRange, (learns_of_kept kept member).payloadOffset_eq kept.toSameArchive, kept.source, payloadRange]

theorem payloadRange_shorter {index relative size size' : Nat} (range : payloadRange a index relative size)
    (shorter : size' ≤ size) : payloadRange a index relative size' := ⟨range.1, shorter.trans range.2⟩

theorem offsetsAcquire_kept {name : Option Bytes} {r : Unit} (run : Reading.offsetsAcquire n name a = .ok r b) :
    Kept a b := by
  have spares := @offsetsAcquire_spares n name a
  rw [run] at spares
  exact spares.kept

theorem heldTable_released (settled : Settled a) (used : Used a) (run : Reading.offsetsAcquire n none a = .ok () b)
    (serial : serialized (entry a n).flags = true) :
    heldTable (final (Reading.offsetsRelease n b)) n = heldTable a n := by
  have kept := trans_of Kept (offsetsAcquire_kept run) (@offsetsRelease_spares n b).kept
  obtain ⟨file, caches, held, table⟩ := offsetsAcquire_held settled run
  have cached : b.cache n = some file := by simp [caches]
  have member : n < a.files := (offsetsAcquire_kept run).files ▸ held.member
  have released : Reading.offsetsRelease n b = .ok () (storeCache n (if file.openCount - 1 = 0 then none
      else some { file with openCount := file.openCount - 1 }) b) := by
    rw [Reading.offsetsRelease, bind_of_ok (get_run b), bind_of_ok (failIf_false (Nat.not_le.mpr held.member) _ b), cached]
    rfl
  rw [released] at kept ⊢
  by_cases last : file.openCount - 1 = 0
  next =>
    have idle : a.cache n = none := offsetsAcquire_once used run cached (by grind)
    have stored := storedTable_kept kept member none
    rw [if_pos last] at stored ⊢
    rw [heldTable, heldTable, idle]
    simpa [final, storeCache] using stored
  next =>
    rw [if_neg last, ← table rfl serial]
    simp [final, heldTable, storeCache]

theorem blockSizePacked_ok (settled : Settled a) (used : Used a) {block packed : Nat}
    (run : Reading.blockSizePacked n block a = .ok packed b) :
    n < a.files ∧ block < Reading.countFileBlocks a n ∧ Kept a b ∧ Settled b ∧
      (has (entry a n).flags Flag.single = true → payloadRange a (entryIndex a n) 0 packed) ∧
      (serialized (entry a n).flags = true → payloadRange a (entryIndex a n) (heldTable b n block).toNat packed) := by
  unfold Reading.blockSizePacked at run
  rw [bind_of_ok (get_run a)] at run
  obtain ⟨inside, run⟩ := failIf_bind_ok.mp run
  obtain ⟨below, within⟩ := not_or.mp inside
  obtain ⟨extent, c, found, run⟩ := bind_ok.mp run
  obtain ⟨-, run⟩ := failIf_bind_ok.mp run
  obtain ⟨ranged, run⟩ := failIf_bind_ok.mp run
  obtain ⟨rfl, rfl⟩ := pure_ok.mp run
  have range := not_not.mp ranged
  refine ⟨Nat.lt_of_not_le below, Nat.lt_of_not_le within, ?_⟩
  unfold Reading.storedExtent at found
  rw [bind_of_ok (get_run a)] at found
  cases single : has (entry a n).flags Flag.single with
  | true =>
    have plain : serialized (entry a n).flags = false := by simp [serialized, single]
    rw [if_pos single] at found
    obtain ⟨rfl, rfl⟩ := pure_ok.mp found
    exact ⟨refl_of Kept _, settled, fun _ => range, fun serial => absurd (plain.symm.trans serial) (by decide)⟩
  | false =>
    rw [if_neg (by simp [single])] at found
    cases serial : serialized (entry a n).flags with
    | false =>
      rw [if_neg (by simp [serial])] at found
      obtain ⟨rfl, rfl⟩ := pure_ok.mp found
      exact ⟨refl_of Kept _, settled, fun single' => absurd single' Bool.false_ne_true, fun serial' => absurd serial' Bool.false_ne_true⟩
    | true =>
      rw [if_pos serial] at found
      obtain ⟨_, d, acquired, found⟩ := bind_ok.mp found
      have table := heldTable_released settled used acquired serial
      have kept := trans_of Kept (offsetsAcquire_kept acquired) (@offsetsRelease_spares n d).kept
      have after : Settled (final (Reading.offsetsRelease n d)) := by
        have held := offsetsAcquire_settled settled n none
        rw [acquired] at held
        exact offsetsRelease_settled held n
      obtain ⟨file, caches, -, same⟩ := offsetsAcquire_held settled acquired
      have cached : d.cache n = some file := by simp [caches]
      have looked : Reading.sectorExtent n block d =
          (failIf (file.packedOffset (block + 1) < file.packedOffset block) .format >>= fun _ =>
            pure
              { start := (file.packedOffset block).toNat
                length := (file.packedOffset (block + 1) - file.packedOffset block).toNat }) d := by
        rw [Reading.sectorExtent, bind_of_ok (get_run d), cached]
      unfold Reading.holding at found
      rw [looked] at found
      by_cases falls : file.packedOffset (block + 1) < file.packedOffset block
      next =>
        rw [bind_of_error (failIf_true falls _ d)] at found
        cases found
      next =>
        rw [bind_of_ok (failIf_false falls _ d)] at found
        cases found
        refine ⟨kept, after, fun single' => absurd single' Bool.false_ne_true, fun _ => ?_⟩
        rw [table, ← same rfl serial]
        exact range

end extents

/-- The states of an opened archive as its members are acquired and given back on any host, where no count wraps. -/
inductive Reached (codecs : Codecs) : ReadArchive → Prop where
  | rest {a : ReadArchive} (opened : Opened codecs a) : Reached codecs a
  | acquire {a : ReadArchive} (n : Nat) (name : Option Bytes) (reached : Reached codecs a)
      (room : ∀ file, a.cache n = some file → file.openCount ≠ 0xFFFFFFFF) :
    Reached codecs (final (Reading.offsetsAcquire n name a))
  | release {a : ReadArchive} (n : Nat) (reached : Reached codecs a) :
    Reached codecs (final (Reading.offsetsRelease n a))
  | host {a : ReadArchive} (plan : Faults) (reached : Reached codecs a) : Reached codecs { a with plan }

theorem Opened.idle {codecs : Codecs} {a : ReadArchive} (opened : Opened codecs a) : a.cache = fun _ => none := by
  obtain ⟨source, archiveOffset, plan, plan', first, calls, run, rfl⟩ := opened
  have accounted : Accounted (fun _ => 0) ⟨first, []⟩ :=
    ⟨Streaming.counted_idle (Streaming.openSource_idle run).1, fun _ mem => absurd mem List.not_mem_nil⟩
  have three : 0 + 3 ≤ 2 ^ 32 := by decide
  have room : Room (fun _ => 0) 3 := fun _ => three
  have counted := (Session.run_accounted codecs calls accounted fun call _ => room.of_le call.depth_le).archive
  funext n
  exact Option.not_isSome_iff_eq_none.mp ((counted.live n).not.mpr (Nat.lt_irrefl 0))

theorem Reached.settled {codecs : Codecs} {a : ReadArchive} (reached : Reached codecs a) : Settled a := by
  induction reached with
  | rest opened =>
    intro n file cached
    rw [opened.idle] at cached
    cases cached
  | acquire n name _ _ ih => exact offsetsAcquire_settled ih n name
  | release n _ ih => exact offsetsRelease_settled ih n
  | host plan _ ih =>
    exact ih.kept (kept_of_same ⟨rfl, rfl, rfl, rfl, rfl, rfl, rfl, rfl, rfl, rfl, fun _ => rfl⟩ rfl) rfl

theorem offsetsAcquire_used {a : ReadArchive} (used : Used a) (n : Nat) (name : Option Bytes)
    (room : ∀ file, a.cache n = some file → file.openCount ≠ 0xFFFFFFFF) :
    Used (final (Reading.offsetsAcquire n name a)) := by
  cases run : Reading.offsetsAcquire n name a with
  | error e b =>
    intro m file cached
    exact used m file ((congrFun (offsetsAcquire_failed run).2 m).symm.trans cached)
  | ok r b =>
    unfold Reading.offsetsAcquire at run
    rw [bind_of_ok (get_run a)] at run
    obtain ⟨-, run⟩ := failIf_bind_ok.mp run
    intro m file cached
    cases before : a.cache n with
    | some file' =>
      rw [before] at run
      cases run
      by_cases own : m = n
      next =>
        have same : shareCache (entry a n) name file' = file := by simpa [own, storeCache, final] using cached
        rw [← same]
        have wrapped := room file' before
        change file'.openCount + 1 ≠ 0
        grind
      next => exact used m file (by simpa [own, storeCache, final] using cached)
    | none =>
      rw [before] at run
      obtain ⟨loaded, c, loads, run⟩ := bind_ok.mp run
      cases run
      obtain ⟨-, caches⟩ := (loadOffsets_sameCache n name).ok loads
      by_cases own : m = n
      next =>
        have same : loaded = file := by simpa [own, storeCache, final] using cached
        rw [← same, loadOffsets_openCount loads]
        decide
      next => exact used m file (by simpa [own, storeCache, final, caches] using cached)

theorem offsetsRelease_used {a : ReadArchive} (used : Used a) (n : Nat) : Used (final (Reading.offsetsRelease n a)) := by
  unfold Reading.offsetsRelease
  rw [bind_of_ok (get_run a)]
  by_cases outside : n ≥ a.files
  next =>
    rw [bind_of_error (failIf_true outside _ _)]
    exact used
  rw [bind_of_ok (failIf_false outside _ _)]
  cases cached : a.cache n with
  | none => exact used
  | some file =>
    intro m file' cached'
    change (if m = n then (if file.openCount - 1 = 0 then none else some { file with openCount := file.openCount - 1 })
      else a.cache m) = some file' at cached'
    by_cases own : m = n
    next =>
      rw [if_pos own] at cached'
      split at cached'
      · cases cached'
      next left =>
        cases cached'
        exact left
    next =>
      rw [if_neg own] at cached'
      exact used m file' cached'

theorem Reached.used {codecs : Codecs} {a : ReadArchive} (reached : Reached codecs a) : Used a := by
  induction reached with
  | rest opened =>
    intro n file cached
    rw [opened.idle] at cached
    cases cached
  | acquire n name _ room ih => exact offsetsAcquire_used ih n name room
  | release n _ ih => exact offsetsRelease_used ih n
  | host plan _ ih => exact ih

structure Unranged (n : Nat) (a : ReadArchive) : Prop extends
    Peeks n (Reading.countFileBlocks a n + 1) ⟨synthesized a n, none⟩ a where
  member : n < a.files
  idle : a.cache n = none
  tabled : Reading.countFileBlocks a n ≤ (2 ^ 32 - 1) / 4 - 2
  granted : a.plan 0 = none ∧ a.plan.rest 0 = none
  beyond : ¬ payloadRange a (entryIndex a n) 0 8

theorem sound_reads {a : ReadArchive} (sized : a.source.size < 2 ^ 63) : Sound .reads a :=
  ⟨(fun arrays => nomatch arrays), fun _ => sized⟩

theorem unwatched {a : ReadArchive} {n : Nat} : Watch.reads = .arrays → n < slots a := fun arrays => nomatch arrays

theorem raw_compressed {flags : UInt32} (compressed : has flags Flag.compressed = true) :
    flags &&& (Flag.encrypted ||| Flag.compressed) ≠ Flag.encrypted := by
  intro raw
  have none : has (flags &&& (Flag.encrypted ||| Flag.compressed)) Flag.compressed = has flags Flag.compressed := by
    simp only [has, UInt32.and_assoc]
    rfl
  rw [raw, compressed] at none
  exact absurd none (by decide)

theorem plain_of_uncompressed {flags : UInt32} (plain : has flags Flag.compressed = false) : serialized flags = false := by
  have bits : Flag.compressed ||| Flag.compressPkzip = Flag.compressed := by decide
  rw [serialized, bits, plain]
  rfl

section watched

variable {a : ReadArchive} {n : Nat} (sized : a.source.size < 2 ^ 63)

theorem request_granted (granted : a.plan 0 = none) :
    Reading.onPlan (request .malloc) a = .ok () { a with plan := a.plan.rest } := by
  rw [Reading.onPlan, zoom, request, granted]

theorem request_refused (refused : a.plan 0 ≠ none) :
    Reading.onPlan (request .malloc) a = .error .malloc { a with plan := a.plan.rest } := by
  rw [Reading.onPlan, zoom, request]
  cases asked : a.plan 0 with
  | none => exact absurd asked refused
  | some e => rfl

theorem onPlan_plain {α : Type} (x : Op Error Faults α) : onPlan (plainly x) a = plainly (Reading.onPlan x) a :=
  (onPlan_tracks x a (refl_of SameShape a)).1

include sized

theorem loadOffsets_compressed (member : n < a.files) (compressed : has (entry a n).flags Flag.compressed = true)
    (name : Option Bytes) : loadOffsets .reads n name a = plainly (Reading.loadOffsets n name) a := by
  let inv (s : ReadArchive) : Prop := SameArchive a s ∧ Learns n a s
  have sees : Sees .reads n inv := by
    refine ⟨fun s holds => sound_reads (holds.1.source ▸ sized), fun s holds => holds.1.files ▸ member, fun s plan holds => ?_⟩
    exact ⟨holds.1.trans ⟨rfl, rfl, rfl, rfl, rfl, rfl, rfl, rfl, rfl, rfl, fun _ => rfl⟩, holds.2⟩
  have tracks : Tracks inv (loadOffsets .reads n name) (Reading.loadOffsets n name) := by
    refine loadOffsets_tracks sees (fun s holds serial seed t later => ?_) fun s holds offsets _ => ?_
    · have size : tableSize s n = tableSize t n := by
        rw [holds.2.tableSize_eq holds.1, later.2.tableSize_eq later.1]
      have serial' : serialized (entry t n).flags = true := by
        rw [later.2.serialized_eq later.1, ← holds.2.serialized_eq holds.1]
        exact serial
      refine ⟨(loadTable_tracks (sees.sound t later) (sees.member t later) _ _ seed t (refl_of SameShape t)).1, ?_⟩
      rw [size]
      have spares := loadTable_spares (sees.member t later) serial' (Reading.countFileBlocks s n + 1) seed
      exact ⟨later.1.trans spares.toSameArchive, later.2.trans later.1 spares.own⟩
    · refine detectSeed_tracks sees fun t later _ peeks => absurd peeks.raw (raw_compressed ?_)
      rw [later.2.has_eq later.1 (by decide)]
      exact compressed
  exact (tracks a ⟨.refl a, .inl rfl⟩).1

theorem loadOffsets_plain (member : n < a.files) (plain : serialized (entry a n).flags = false) (name : Option Bytes)
    (range : Peeks n (Reading.countFileBlocks a n + 1) ⟨synthesized a n, name.map (fileSeed (entry a n))⟩ a →
      payloadRange a (entryIndex a n) 0 8) :
    loadOffsets .reads n name a = plainly (Reading.loadOffsets n name) a := by
  let inv (s : ReadArchive) : Prop := ∃ plan, s = { a with plan }
  have sees : Sees .reads n inv := by
    refine ⟨?_, ?_, ?_⟩
    · rintro _ ⟨_, rfl⟩
      exact sound_reads sized
    · rintro _ ⟨_, rfl⟩
      exact member
    · rintro _ plan ⟨_, rfl⟩
      exact ⟨plan, rfl⟩
  have tracks : Tracks inv (loadOffsets .reads n name) (Reading.loadOffsets n name) := by
    refine loadOffsets_tracks sees ?_ ?_
    · rintro _ ⟨_, rfl⟩ serial
      exact absurd (plain.symm.trans serial) (by decide)
    · rintro _ ⟨_, rfl⟩ offsets synthesizes
      rw [synthesizes plain]
      refine detectSeed_tracks sees ?_
      rintro _ ⟨_, rfl⟩ _ peeks
      exact range ⟨peeks.raw, peeks.keyless, peeks.packed, peeks.blocks, peeks.rises, peeks.room⟩
  exact (tracks a ⟨a.plan, rfl⟩).1

omit sized in
theorem ranged_beyond {σ : Type} {relative size room : Nat}
    (beyond : ¬ payloadRange a (entryIndex a n) relative size) (s : σ) :
    (ranged .reads a.source (payloadOffset a (entryIndex a n) + relative) size room : Op (Stop Error) σ Unit) s =
      .error .undefined s := by
  refine require_not (fun inside => beyond ?_) s
  have := (inside rfl).1
  constructor <;> omega

omit sized in
theorem onPlan_undefined {α : Type} {x : Op (Stop Error) Faults α} (run : x a.plan = .error .undefined a.plan) :
    onPlan x a = .error .undefined a := by
  rw [onPlan, zoom, run]

omit sized in
theorem read_beyond {α : Type} {relative size room : Nat}
    (beyond : ¬ payloadRange a (entryIndex a n) relative size) (then_ : Bytes → Op (Stop Error) ReadArchive α) :
    (payloadAt .reads a (entryIndex a n) relative >>= fun offset =>
      onPlan (sourceReadAt .reads a.source offset size room) >>= then_) a = .error .undefined a := by
  have stops : sourceReadAt .reads a.source (payloadOffset a (entryIndex a n) + relative) size room a.plan =
      .error .undefined a.plan := by
    rw [sourceReadAt, bind_of_error (ranged_beyond beyond _)]
  rw [payloadAt, slot_eq unwatched, pure_bind]
  by_cases wraps : Watch.reads = .reads → payloadOffset a (entryIndex a n) + relative < 2 ^ 64
  next => rw [require_true wraps, pure_bind, pure_bind, bind_of_error (onPlan_undefined stops)]
  next => rw [bind_of_error (bind_of_error (require_not wraps a) _)]

theorem detectSeed_undefined {count : Nat} {offsets : Offsets} (peeks : Peeks n count offsets a)
    (beyond : ¬ payloadRange a (entryIndex a n) 0 8) : detectSeed .reads n count offsets a = .error .undefined a := by
  have sound := sound_reads sized
  unfold detectSeed
  rw [bind_of_ok (get_run a), mapAt_eq unwatched, pure_bind, entryAt_eq sound unwatched, pure_bind,
    if_pos ⟨peeks.raw, peeks.keyless, peeks.packed⟩, bind_of_ok (stopIf_false (Nat.not_lt.mpr peeks.blocks) _ a),
    bind_of_ok (stopIf_false peeks.rises _ a), bind_of_ok (stopIf_false (Nat.not_lt.mpr peeks.room) _ a)]
  exact read_beyond beyond _

theorem loadOffsets_refused (early : ¬ (Reading.countFileBlocks a n ≤ (2 ^ 32 - 1) / 4 - 2 ∧
      a.plan 0 = none ∧ a.plan.rest 0 = none)) (name : Option Bytes) :
    loadOffsets .reads n name a = plainly (Reading.loadOffsets n name) a := by
  have sound := sound_reads sized
  have both : ∀ e s, Reading.loadOffsets n name a = .error e s → loadOffsets .reads n name a = .error (.error e) s →
      loadOffsets .reads n name a = plainly (Reading.loadOffsets n name) a := fun e s plain watched => by
    rw [watched, plainly_error plain]
  by_cases large : Reading.countFileBlocks a n > (2 ^ 32 - 1) / 4 - 2
  next =>
    refine both .format a ?_ ?_
    · rw [Reading.loadOffsets, bind_of_ok (get_run a), bind_of_error (failIf_true large _ a)]
    · rw [loadOffsets, bind_of_ok (get_run a), entryAt_eq sound unwatched, pure_bind, countFileBlocks_eq sound unwatched,
        pure_bind, bind_of_error (stopIf_true large _ a)]
  by_cases first : a.plan 0 = none
  next =>
    have second : a.plan.rest 0 ≠ none := fun granted => early ⟨Nat.le_of_not_lt large, first, granted⟩
    refine both .malloc { a with plan := a.plan.rest.rest } ?_ ?_
    · rw [Reading.loadOffsets, bind_of_ok (get_run a), bind_of_ok (failIf_false large _ a),
        bind_of_ok (request_granted first), bind_of_error (request_refused second)]
    · rw [loadOffsets, bind_of_ok (get_run a), entryAt_eq sound unwatched, pure_bind, countFileBlocks_eq sound unwatched,
        pure_bind, bind_of_ok (stopIf_false large _ a), slot_eq unwatched, pure_bind,
        bind_of_ok ((onPlan_plain _).trans (plainly_ok (request_granted first))),
        bind_of_error ((onPlan_plain _).trans (plainly_error (request_refused second)))]
  next =>
    refine both .malloc { a with plan := a.plan.rest } ?_ ?_
    · rw [Reading.loadOffsets, bind_of_ok (get_run a), bind_of_ok (failIf_false large _ a),
        bind_of_error (request_refused first)]
    · rw [loadOffsets, bind_of_ok (get_run a), entryAt_eq sound unwatched, pure_bind, countFileBlocks_eq sound unwatched,
        pure_bind, bind_of_ok (stopIf_false large _ a), slot_eq unwatched, pure_bind,
        bind_of_error ((onPlan_plain _).trans (plainly_error (request_refused first)))]

theorem loadOffsets_watched (member : n < a.files) (idle : a.cache n = none) (ranged : ¬ Unranged n a) :
    loadOffsets .reads n none a = plainly (Reading.loadOffsets n none) a := by
  cases compressed : has (entry a n).flags Flag.compressed with
  | true => exact loadOffsets_compressed sized member compressed none
  | false =>
    by_cases granted : Reading.countFileBlocks a n ≤ (2 ^ 32 - 1) / 4 - 2 ∧ a.plan 0 = none ∧ a.plan.rest 0 = none
    next =>
      refine loadOffsets_plain sized member (plain_of_uncompressed compressed) none fun peeks => ?_
      by_contra beyond
      exact ranged ⟨peeks, member, idle, granted.1, granted.2, beyond⟩
    next => exact loadOffsets_refused sized granted none

theorem loadOffsets_undefined (unranged : Unranged n a) : Undefined (loadOffsets .reads n none a) := by
  have sound := sound_reads sized
  have plain : serialized (entry a n).flags = false := by
    cases compressed : has (entry a n).flags Flag.compressed with
    | true => exact absurd unranged.raw (raw_compressed compressed)
    | false => exact plain_of_uncompressed compressed
  let b := { a with plan := a.plan.rest.rest }
  have peeks : Peeks n (Reading.countFileBlocks a n + 1) ⟨synthesized a n, none⟩ b :=
    ⟨unranged.raw, rfl, unranged.packed, unranged.blocks, unranged.rises, unranged.room⟩
  have stops : detectSeed .reads n (Reading.countFileBlocks a n + 1) ⟨synthesized a n, none⟩ b = .error .undefined b :=
    @detectSeed_undefined b n sized _ _ peeks unranged.beyond
  rw [loadOffsets, bind_of_ok (get_run a), entryAt_eq sound unwatched, pure_bind, countFileBlocks_eq sound unwatched,
    pure_bind, bind_of_ok (stopIf_false (Nat.not_lt.mpr unranged.tabled) _ a), slot_eq unwatched, pure_bind,
    bind_of_ok ((onPlan_plain _).trans (plainly_ok (request_granted unranged.granted.1))),
    bind_of_ok ((onPlan_plain _).trans (plainly_ok (request_granted unranged.granted.2))), if_neg (by simp [plain]),
    pure_bind, Option.map_none, bind_of_error stops]
  exact True.intro

theorem offsetsAcquire_watched (ranged : ¬ Unranged n a) :
    offsetsAcquire .reads n none a = plainly (Reading.offsetsAcquire n none) a := by
  have sound := sound_reads sized
  unfold offsetsAcquire plainly Reading.offsetsAcquire
  rw [bind_of_ok (get_run a), bind_of_ok (get_run a), validateFileNumber]
  by_cases outside : n ≥ a.files
  next => rw [bind_of_error (stopIf_true outside _ a), bind_of_error (failIf_true outside _ a)]
  rw [bind_of_ok (stopIf_false outside _ a), bind_of_ok (failIf_false outside _ a), fileAt_eq unwatched, pure_bind]
  cases cached : a.cache n with
  | some file =>
    simp only
    rw [entryAt_eq sound unwatched, pure_bind]
    rfl
  | none =>
    simp only
    rw [bind_run, loadOffsets_watched sized (Nat.lt_of_not_le outside) cached ranged, plainly, bind_run]
    cases Reading.loadOffsets n none a <;> rfl

theorem offsetsAcquire_undefined (unranged : Unranged n a) : Undefined (offsetsAcquire .reads n none a) := by
  have stops := loadOffsets_undefined sized unranged
  rw [offsetsAcquire, bind_of_ok (get_run a), validateFileNumber,
    bind_of_ok (stopIf_false (Nat.not_le.mpr unranged.member) _ a), fileAt_eq unwatched, pure_bind, unranged.idle]
  simp only
  rw [bind_run]
  generalize loadOffsets .reads n none a = result at stops ⊢
  cases result with
  | ok a s => exact stops
  | error stop s =>
    cases stop with
    | undefined => exact True.intro
    | _ => exact stops

end watched

section reads

variable {a : ReadArchive} {n : Nat}

theorem undefined_bind {σ α β : Type} {x : Op (Stop Error) σ α} {s : σ} (stops : Undefined (x s))
    (f : α → Op (Stop Error) σ β) : Undefined ((x >>= f) s) := by
  rw [bind_run]
  generalize x s = result at stops ⊢
  match result, stops with
  | .error .undefined _, _ => exact True.intro

theorem acquired_shape {b : ReadArchive} (run : Reading.offsetsAcquire n none a = .ok () b) : SameShape a b := by
  have spares := @offsetsAcquire_spares n none a
  rw [run] at spares
  exact shape_of_same spares.toSameArchive

theorem acquired_member {b : ReadArchive} (run : Reading.offsetsAcquire n none a = .ok () b) : n < a.files := by
  unfold Reading.offsetsAcquire at run
  rw [bind_of_ok (get_run a)] at run
  exact Nat.lt_of_not_le (failIf_bind_ok.mp run).1

variable (sized : a.source.size < 2 ^ 63)

include sized

theorem held_watched {α : Type} {x : Op (Stop Error) ReadArchive α} {y : Op Error ReadArchive α}
    (ranged : ¬ Unranged n a)
    (watched : ∀ b, Reading.offsetsAcquire n none a = .ok () b → x b = plainly y b ∧ SameShape a (final (y b))) :
    (offsetsAcquire .reads n none >>= fun _ => holding .reads n x) a =
      plainly (Reading.offsetsAcquire n none >>= fun _ => Reading.holding n y) a := by
  rw [bind_run, offsetsAcquire_watched sized ranged, plainly, plainly, bind_run]
  cases run : Reading.offsetsAcquire n none a with
  | error e b => rfl
  | ok r b =>
    obtain ⟨same, shape⟩ := watched b run
    exact (holding_at (sound_reads sized) n same shape).1

omit sized in
theorem ranged_of_compressed (compressed : has (entry a n).flags Flag.compressed = true) : ¬ Unranged n a :=
  fun unranged => raw_compressed compressed unranged.raw

omit sized in
theorem compressed_of_serialized {flags : UInt32} (serial : serialized flags = true) :
    has flags Flag.compressed = true := by
  cases compressed : has flags Flag.compressed with
  | true => rfl
  | false => exact absurd ((plain_of_uncompressed compressed).symm.trans serial) (by decide)

omit sized in
theorem compressed_of_compress {flags : UInt32} (compress : has flags Flag.compress = true) :
    has flags Flag.compressed = true := by
  have bits : Flag.compress ||| Flag.compressed = Flag.compressed := by decide
  rw [← bits, has_or, compress]
  rfl

theorem storedExtent_watched (block : Nat) :
    storedExtent .reads n block a = plainly (Reading.storedExtent n block) a := by
  have sound := sound_reads sized
  unfold storedExtent
  rw [bind_of_ok (get_run a), entryAt_eq sound unwatched, pure_bind]
  have plain : plainly (Reading.storedExtent n block) a =
      plainly (if has (entry a n).flags Flag.single then Pure.pure { start := 0, length := (entry a n).packedSize.toNat }
        else if serialized (entry a n).flags then do
          Reading.offsetsAcquire n none
          Reading.holding n (Reading.sectorExtent n block)
        else Pure.pure { start := block * a.blockSize.toNat, length := unpackedBlockSize a n block }) a := rfl
  rw [plain]
  split
  · rfl
  split
  next serial =>
    refine held_watched sized (ranged_of_compressed (compressed_of_serialized serial)) fun b run => ?_
    exact sectorExtent_tracks sound (acquired_member run) block b (acquired_shape run)
  · rfl

theorem blockSizePacked_watched (block : Nat) :
    blockSizePacked .reads n block a = plainly (Reading.blockSizePacked n block) a := by
  have sound := sound_reads sized
  unfold blockSizePacked plainly Reading.blockSizePacked
  rw [bind_of_ok (get_run a), bind_of_ok (get_run a), validateFileNumber]
  by_cases below : n ≥ a.files
  next => rw [bind_of_error (stopIf_true below _ a), bind_of_error (failIf_true (.inl below) _ a)]
  rw [bind_of_ok (stopIf_false below _ a), validateBlockNumber_eq sound unwatched]
  by_cases within : block ≥ Reading.countFileBlocks a n
  next => rw [bind_of_error (stopIf_true within _ a), bind_of_error (failIf_true (.inr within) _ a)]
  rw [bind_of_ok (stopIf_false within _ a), bind_of_ok (failIf_false (not_or.mpr ⟨below, within⟩) _ a), bind_run,
    storedExtent_watched sized, plainly, bind_run]
  cases Reading.storedExtent n block a with
  | error e b => rfl
  | ok extent b =>
    simp only
    rw [entryAt_eq sound unwatched, pure_bind]
    have checks : Tracks (fun _ => True)
        (stopIf (extent.start > (entry a n).packedSize.toNat ∨
            extent.length > (entry a n).packedSize.toNat - extent.start) .format >>= fun _ =>
          stopIf (¬ payloadRange a (entryIndex a n) extent.start extent.length) .read >>= fun _ =>
            (Pure.pure extent.length : Op (Stop Error) ReadArchive Nat))
        (failIf (extent.start > (entry a n).packedSize.toNat ∨
            extent.length > (entry a n).packedSize.toNat - extent.start) .format >>= fun _ =>
          failIf (¬ payloadRange a (entryIndex a n) extent.start extent.length) .read >>= fun _ =>
            (Pure.pure extent.length : Op Error ReadArchive Nat)) :=
      Tracks.stopIf fun _ => Tracks.stopIf fun _ => Tracks.pure _
    exact (checks b trivial).1

theorem methodByte_watched (settled : Settled a) {b : ReadArchive} {block packed size : Nat}
    (run : Reading.offsetsAcquire n none a = .ok () b) (fits : size ≤ 4) (shorter : size ≤ packed)
    (within : block < Reading.countFileBlocks a n) (compress : has (entry a n).flags Flag.compress = true)
    (single : has (entry a n).flags Flag.single = true → payloadRange a (entryIndex a n) 0 packed)
    (serial : serialized (entry a n).flags = true → payloadRange a (entryIndex a n) (heldTable a n block).toNat packed) :
    methodByte .reads n block size b = plainly (Reading.methodByte n block size) b ∧
      SameShape a (final (Reading.methodByte n block size b)) := by
  have kept := offsetsAcquire_kept run
  obtain ⟨file, caches, held, table⟩ := offsetsAcquire_held settled run
  have member : n < a.files := kept.files ▸ held.member
  have range : payloadRange b (entryIndex b n) (file.packedOffset block).toNat size := by
    rw [payloadRange_kept kept member]
    cases unit : has (entry a n).flags Flag.single with
    | true =>
      have first : block = 0 := by
        rw [Reading.countFileBlocks, if_pos unit] at within
        omega
      have zero : file.packedOffset 0 = 0 := by
        refine held.single ?_
        rw [(learns_of_kept kept member).has_eq kept.toSameArchive (by decide)]
        exact unit
      rw [first, zero]
      exact payloadRange_shorter (single unit) shorter
    | false =>
      have stored : serialized (entry a n).flags = true := by
        have bits : Flag.compressed ||| Flag.compressPkzip = Flag.compressed := by decide
        rw [serialized, bits, compressed_of_compress compress, unit]
        rfl
      rw [table rfl stored]
      exact payloadRange_shorter (serial stored) shorter
  let inv (s : ReadArchive) : Prop := ∃ plan, s = { b with plan }
  have sees : Sees .reads n inv := by
    refine ⟨?_, ?_, ?_⟩
    · rintro _ ⟨_, rfl⟩
      exact sound_reads (kept.source ▸ sized)
    · rintro _ ⟨_, rfl⟩
      exact held.member
    · rintro _ plan ⟨_, rfl⟩
      exact ⟨plan, rfl⟩
  have tracks : Tracks inv (methodByte .reads n block size) (Reading.methodByte n block size) := by
    refine methodByte_tracks sees fits ?_
    rintro _ ⟨_, rfl⟩ _ file' cached
    have same : file' = file := by simpa [caches] using cached.symm
    rw [same]
    exact range
  obtain ⟨watched, plan, after⟩ := tracks b ⟨b.plan, rfl⟩
  refine ⟨watched, (shape_of_same kept.toSameArchive).trans ?_⟩
  rw [after]
  exact ⟨rfl, rfl, rfl, rfl, rfl⟩

theorem blockCompression_watched (settled : Settled a) (used : Used a) (block : Nat) :
    blockCompression .reads n block a = plainly (Reading.blockCompression n block) a := by
  unfold blockCompression plainly Reading.blockCompression
  rw [bind_run, blockSizePacked_watched sized, plainly, bind_run]
  cases run : Reading.blockSizePacked n block a with
  | error e b => rfl
  | ok packed b =>
    obtain ⟨member, within, kept, settled', single, serial⟩ := blockSizePacked_ok settled used run
    have learns := learns_of_kept kept member
    have same := kept.toSameArchive
    have sized' : b.source.size < 2 ^ 63 := kept.source ▸ sized
    have sound := sound_reads sized'
    simp only
    rw [bind_of_ok (get_run b), bind_of_ok (get_run b), blockSizeUnpacked_eq sound]
    cases Reading.blockSizeUnpacked b n block with
    | error e => rfl
    | ok unpacked =>
      rw [plainly_value, pure_bind, entryAt_eq sound unwatched, pure_bind,
        bind_of_ok (fromExcept_ok.mpr ⟨rfl, rfl⟩)]
      by_cases plain : packed ≥ unpacked ∨ has (entry b n).flags (Flag.compress ||| Flag.implode) = false
      next =>
        rw [if_pos plain, if_pos plain]
        rfl
      rw [if_neg plain, if_neg plain]
      by_cases empty : packed = 0
      next => rw [bind_of_error (stopIf_true empty _ b), bind_of_error (failIf_true empty _ b)]
      rw [bind_of_ok (stopIf_false empty _ b), bind_of_ok (failIf_false empty _ b)]
      cases compress : has (entry b n).flags Flag.compress with
      | false => rfl
      | true =>
        have ranged := ranged_of_compressed (compressed_of_compress compress)
        refine held_watched sized' ranged fun c acquired => ?_
        refine methodByte_watched sized' settled' acquired ((Nat.min_le_right _ _).trans ?_) (Nat.min_le_left _ _) ?_ compress
          (fun unit => ?_) fun stored => ?_
        · split <;> omega
        · rw [learns.countFileBlocks_eq same]
          exact within
        · rw [payloadRange_kept kept member]
          rw [learns.has_eq same (by decide)] at unit
          exact single unit
        · rw [payloadRange_kept kept member]
          rw [learns.serialized_eq same] at stored
          exact serial stored

end reads

/-- The calls that read blocks, method bytes and sector checksums, on offsets they acquire or are given. -/
inductive ReadCall where
  | blockRead (number block : Nat) (checksum : Option UInt32) (buffer : Bytes)
  | blockReadAcquired (number block : Nat) (checksum : Option UInt32) (buffer : Bytes) (mismatch : Bool)
  | blockCompression (number block : Nat)
  | sectorChecksums (number : Nat)
  | sectorTable (number : Nat)

abbrev ReadCall.Reply : ReadCall → Type
  | blockRead .. | blockReadAcquired .. => Nat × Window
  | blockCompression .. => UInt32
  | sectorChecksums .. | sectorTable .. => Option (Nat → UInt32)

def ReadCall.run (codecs : Codecs) : (c : ReadCall) → Op (Stop Error) ReadArchive c.Reply
  | .blockRead number block checksum buffer => Watching.blockRead .reads codecs number block checksum buffer
  | .blockReadAcquired number block checksum buffer mismatch =>
    readAcquired .reads codecs number block checksum buffer mismatch
  | .blockCompression number block => Watching.blockCompression .reads number block
  | .sectorChecksums number => Watching.sectorChecksums .reads codecs number
  | .sectorTable number => sectorTableOf .reads codecs number

/-- The call does not look for the key of a raw encrypted member outside the file. -/
def ReadCall.Ranged (a : ReadArchive) : ReadCall → Prop
  | .blockRead number block _ _ => block < Reading.countFileBlocks a number → ¬ Unranged number a
  | .sectorChecksums number => ¬ Unranged number a
  | _ => True

/-- Accepted tables are in order, and every read of the call lies in the file and in its buffer. -/
structure Contained (codecs : Codecs) (a : ReadArchive) (c : ReadCall) : Prop where
  tables : ∀ number name b, Reading.offsetsAcquire number name a = .ok () b →
    serialized (entry b number).flags = true →
    ∃ file, b.cache number = some file ∧ Ordered b number file.packedOffset
  reads : ¬ Undefined (c.run codecs a)

section contained

variable {codecs : Codecs} {a : ReadArchive}

theorem acquired_ordered (settled : Settled a) {number : Nat} {name : Option Bytes} {b : ReadArchive}
    (run : Reading.offsetsAcquire number name a = .ok () b) (serial : serialized (entry b number).flags = true) :
    ∃ file, b.cache number = some file ∧ Ordered b number file.packedOffset := by
  obtain ⟨file, caches, held, -⟩ := offsetsAcquire_held settled run
  exact ⟨file, by simp [caches], held.ordered serial⟩

variable (sized : a.source.size < 2 ^ 63)

include sized

theorem blockRead_watched {n block : Nat} (ranged : block < Reading.countFileBlocks a n → ¬ Unranged n a)
    (checksum : Option UInt32) (buffer : Bytes) :
    Watching.blockRead .reads codecs n block checksum buffer a =
      plainly (Reading.blockRead codecs n block checksum buffer) a := by
  have sound := sound_reads sized
  unfold Watching.blockRead plainly Reading.blockRead
  rw [bind_of_ok (get_run a), bind_of_ok (get_run a), validateBlockNumber_eq sound unwatched]
  by_cases within : block ≥ Reading.countFileBlocks a n
  next => rw [bind_of_error (stopIf_true within _ a), bind_of_error (failIf_true within _ a)]
  rw [bind_of_ok (stopIf_false within _ a), bind_of_ok (failIf_false within _ a)]
  refine held_watched sized (ranged (Nat.lt_of_not_le within)) fun b run => ?_
  exact readAcquired_tracks sound codecs n block checksum buffer false b (acquired_shape run)

theorem sectorChecksums_watched {n : Nat} (ranged : ¬ Unranged n a) :
    Watching.sectorChecksums .reads codecs n a = plainly (Reading.sectorChecksums codecs n) a :=
  held_watched sized ranged fun b run =>
    sectorTableOf_tracks (sound_reads sized) (acquired_member run) codecs b (acquired_shape run)

theorem sectorTable_defined (settled : Settled a) (n : Nat) : ¬ Undefined (sectorTableOf .reads codecs n a) := by
  have sound := sound_reads sized
  by_cases member : n < a.files
  next => exact (sectorTableOf_tracks sound member codecs).defined (refl_of SameShape a)
  next =>
    have idle : a.cache n = none := by
      cases cached : a.cache n with
      | none => rfl
      | some file => exact absurd (settled n file cached).member member
    unfold sectorTableOf
    rw [bind_of_ok (get_run a), mapAt_eq unwatched, pure_bind, entryAt_eq sound unwatched, pure_bind,
      countFileBlocks_eq sound unwatched, pure_bind]
    split
    · exact id
    · rw [fileAt_eq unwatched, pure_bind, idle]
      exact id

theorem ReadCall.defined_iff (settled : Settled a) (used : Used a) (c : ReadCall) : ¬ Undefined (c.run codecs a) ↔ c.Ranged a := by
  have sound := sound_reads sized
  cases c with
  | blockRead n block checksum buffer =>
    refine ⟨fun defined within unranged => defined ?_, fun ranged => ?_⟩
    · rw [ReadCall.run, Watching.blockRead, bind_of_ok (get_run a), validateBlockNumber_eq sound unwatched,
        bind_of_ok (stopIf_false (Nat.not_le.mpr within) _ a)]
      exact undefined_bind (offsetsAcquire_undefined sized unranged) _
    · rw [ReadCall.run, blockRead_watched sized ranged]
      exact plainly_defined _ a
  | blockReadAcquired n block checksum buffer mismatch =>
    refine iff_of_true ?_ trivial
    exact (readAcquired_tracks sound codecs n block checksum buffer mismatch).defined (refl_of SameShape a)
  | blockCompression n block =>
    refine iff_of_true ?_ trivial
    rw [ReadCall.run, blockCompression_watched sized settled used]
    exact plainly_defined _ a
  | sectorChecksums n =>
    refine ⟨fun defined unranged => defined ?_, fun ranged => ?_⟩
    · exact undefined_bind (offsetsAcquire_undefined sized unranged) _
    · rw [ReadCall.run, sectorChecksums_watched sized ranged]
      exact plainly_defined _ a
  | sectorTable n => exact iff_of_true (sectorTable_defined sized settled n) trivial

end contained

theorem readCall_contained_iff (codecs : Codecs) (a : ReadArchive) (reached : Reached codecs a)
    (sized : a.source.size < 2 ^ 63) (c : ReadCall) : Contained codecs a c ↔ c.Ranged a := by
  have settled := reached.settled
  have defined : ¬ Undefined (c.run codecs a) ↔ c.Ranged a := c.defined_iff sized settled reached.used
  exact ⟨fun contained => defined.mp contained.reads, fun ranged =>
    ⟨fun _ _ _ run serial => acquired_ordered settled run serial, defined.mpr ranged⟩⟩

-- One raw encrypted member of eight bytes, stored at 1000 in a file of 48.
def rawImage : Bytes :=
  [77, 80, 81, 26, 32, 0, 0, 0, 48, 0, 0, 0, 0, 0, 3, 0, 32, 0, 0, 0, 32, 0, 0, 0, 0, 0, 0, 0, 1, 0, 0, 0,
   99, 100, 72, 61, 97, 215, 8, 202, 171, 55, 54, 248, 161, 136, 66, 232]

instance (n : Nat) (a : ReadArchive) : Decidable (Unranged n a) :=
  decidable_of_iff
    (((entry a n).flags &&& (Flag.encrypted ||| Flag.compressed) = Flag.encrypted ∧ 4 ≤ (entry a n).packedSize.toNat ∧
      2 ≤ Reading.countFileBlocks a n + 1 ∧ ¬ synthesized a n 1 < synthesized a n 0 ∧
      8 ≤ (synthesized a n 1 - synthesized a n 0).toNat) ∧ n < a.files ∧ a.cache n = none ∧
      Reading.countFileBlocks a n ≤ (2 ^ 32 - 1) / 4 - 2 ∧ (a.plan 0 = none ∧ a.plan.rest 0 = none) ∧
      ¬ payloadRange a (entryIndex a n) 0 8)
    ⟨fun ⟨⟨raw, packed, blocks, rises, room⟩, member, idle, tabled, granted, beyond⟩ =>
      ⟨⟨raw, rfl, packed, blocks, rises, room⟩, member, idle, tabled, granted, beyond⟩,
     fun u => ⟨⟨u.raw, u.packed, u.blocks, u.rises, u.room⟩, u.member, u.idle, u.tabled, u.granted, u.beyond⟩⟩

def opensUnranged (source : File) : Bool :=
  match openSource source 0 Faults.healthy with
  | .ok a _ => decide (Unranged 0 a ∧ 0 < Reading.countFileBlocks a 0 ∧ a.source.size = 48)
  | .error _ _ => false

theorem blockRead_beyond_file :
    ∃ a plan, openSource (File.ofBytes rawImage) 0 Faults.healthy = .ok a plan ∧
      ¬ Contained Compression.zeroRunCodecs a (.blockRead 0 0 none (Bytes.zeros 8)) := by
  have opens : opensUnranged (File.ofBytes rawImage) = true := by decide +kernel
  rw [opensUnranged] at opens
  cases run : openSource (File.ofBytes rawImage) 0 Faults.healthy with
  | error e plan =>
    rw [run] at opens
    cases opens
  | ok a plan =>
    rw [run] at opens
    obtain ⟨unranged, block, size⟩ := of_decide_eq_true opens
    have sized : a.source.size < 2 ^ 63 := by omega
    have settled : Settled a := by
      intro n file cached
      rw [(Streaming.openSource_idle run).1] at cached
      cases cached
    have used : Used a := by
      intro n file cached
      rw [(Streaming.openSource_idle run).1] at cached
      cases cached
    refine ⟨a, plan, rfl, fun contained => ?_⟩
    exact ((ReadCall.blockRead 0 0 none (Bytes.zeros 8)).defined_iff sized settled used).mp contained.reads block unranged

theorem readCall_contained_gap :
    ∃ a plan, openSource (File.ofBytes gapImage) 0 Faults.healthy = .ok a plan ∧
      (Contained Compression.zeroRunCodecs a (.sectorChecksums 0) ↔ (ReadCall.sectorChecksums 0).Ranged a) := by
  have opens : (match openSource (File.ofBytes gapImage) 0 Faults.healthy with
      | .ok a _ => decide (a.source.size = 64)
      | .error _ _ => false) = true := by decide +kernel
  cases run : openSource (File.ofBytes gapImage) 0 Faults.healthy with
  | error e plan =>
    rw [run] at opens
    cases opens
  | ok a plan =>
    rw [run] at opens
    have size := of_decide_eq_true opens
    have reached : Reached Compression.zeroRunCodecs a := .rest ⟨_, _, _, _, a, [], run, rfl⟩
    exact ⟨a, plan, rfl, readCall_contained_iff _ a reached (by omega) _⟩

end Watching

end LibMpq
