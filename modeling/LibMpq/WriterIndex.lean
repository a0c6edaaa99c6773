import LibMpq.WriterClose
import LibMpq.WriterPlacement

set_option autoImplicit false

namespace LibMpq

open Effect Bits

namespace Writing

def chainSlot (a : WriteArchive) (name : Bytes) (k : Nat) : Nat :=
  Probing.slot a.hashCapacity (fileHash name).hash1.toNat k

def Older (a : WriteArchive) (i pos : Nat) : Prop :=
  taken a pos = true ∧ (a.hash pos).blockTableIndex.toNat < i

structure Indexed (a : WriteArchive) : Prop where
  present : ∀ i, i < a.nextBlock → has (a.block i).flags Flag.exists_ = true
  free : ∀ i, a.nextBlock ≤ i → has (a.block i).flags Flag.exists_ = false
  slots : ∀ pos, taken a pos = true →
    (a.hash pos).hashA = (fileHash (a.names (a.hash pos).blockTableIndex.toNat)).hash2 ∧
      (a.hash pos).hashB = (fileHash (a.names (a.hash pos).blockTableIndex.toNat)).hash3
  chain : ∀ i, i < a.nextBlock → ∃ k, k < a.hashCapacity ∧
    taken a (chainSlot a (a.names i) k) = true ∧
    (a.hash (chainSlot a (a.names i) k)).blockTableIndex.toNat = i ∧
    ∀ j, j < k → Older a i (chainSlot a (a.names i) j)
  unique : ∀ p q, taken a p = true → taken a q = true →
    (a.hash p).blockTableIndex.toNat = (a.hash q).blockTableIndex.toNat → p = q

theorem freeSlot_first {a : WriteArchive} {hash1 : UInt32} {fuel slot pos : Nat}
    (found : freeSlot a hash1 fuel slot = some pos) :
    ∃ j, slot ≤ j ∧ j < slot + fuel ∧ pos = slotPosition a hash1 j ∧ taken a pos = false ∧
      ∀ i, slot ≤ i → i < j → taken a (slotPosition a hash1 i) = true := by
  induction fuel generalizing slot with
  | zero => cases found
  | succ fuel ih =>
    rw [freeSlot] at found
    split at found
    next free =>
      cases found
      refine ⟨slot, le_rfl, by omega, rfl, by simpa [taken] using free, fun i low high => ?_⟩
      omega
    next used =>
      obtain ⟨j, low, high, here, free, before⟩ := ih found
      refine ⟨j, by omega, by omega, here, free, fun i least below => ?_⟩
      rcases Nat.lt_or_eq_of_le least with later | rfl
      · exact before i later below
      · simpa [taken] using used

theorem Sound.chain_freeSlot {a : WriteArchive} (sound : Sound a) {name : Bytes} {pos : Nat}
    (found : freeSlot a (fileHash name).hash1 a.hashCapacity 0 = some pos) :
    ∃ k, k < a.hashCapacity ∧ pos = chainSlot a name k ∧ taken a pos = false ∧
      ∀ j, j < k → taken a (chainSlot a name j) = true := by
  obtain ⟨n, small, power⟩ := sound.hashCapacity
  have limit : a.hashCapacity < 2 ^ 32 := by
    rw [power]
    exact Nat.pow_lt_pow_right (by omega) (by omega)
  obtain ⟨k, -, bound, here, free, before⟩ := freeSlot_first found
  have inside : k < a.hashCapacity := by omega
  refine ⟨k, inside, ?_, free, fun j below => ?_⟩
  · rw [here, slotPosition_eq small power _ (by omega)]
    rfl
  · have used := before j (Nat.zero_le j) below
    rwa [slotPosition_eq small power _ (by omega)] at used

theorem newArchive_indexed (o : CreateOptions) (disk : Disk) : Indexed (newArchive o disk) where
  present i below := absurd below (Nat.not_lt_zero i)
  free _ _ := show has 0 Flag.exists_ = false by decide
  slots pos used := by cases used
  chain i below := absurd below (Nat.not_lt_zero i)
  unique p q used := by cases used

theorem Indexed.congr {a : WriteArchive} (indexed : Indexed a) (disk : Disk)
    (rows : Option (Nat → FileAttributes)) (current : Option Writer) (internal : Bool) :
    Indexed { a with disk, attributes := rows, current, internal } :=
  ⟨indexed.present, indexed.free, indexed.slots, indexed.chain, indexed.unique⟩

theorem Indexed.follows {s s' : Active} (indexed : Indexed s.archive) (follows : Follows s s') :
    Indexed s'.archive := by
  obtain ⟨disk, archive⟩ := follows.archive
  rw [archive]
  exact indexed.congr disk s.archive.attributes s.archive.current s.archive.internal

theorem blockFlags_exists (w : Writer) : has (blockFlags w) Flag.exists_ = true := by
  rw [blockFlags, UInt32.or_assoc, UInt32.or_assoc, or_has]
  rfl

theorem published_indexed {w : Writer} {a : WriteArchive} (indexed : Indexed a) (sound : Sound a)
    (room : a.nextBlock < a.capacity) (blockOffset total : Nat) {pos : Nat}
    (found : freeSlot a (fileHash w.name).hash1 a.hashCapacity 0 = some pos) :
    Indexed (published w blockOffset total pos a) := by
  obtain ⟨n, small, power⟩ := sound.hashCapacity
  have limit : a.hashCapacity ≤ 2 ^ 31 := power ▸ Nat.pow_le_pow_right (by omega) small
  have fits := sound.capacity
  have number : (UInt32.ofNat a.nextBlock).toNat = a.nextBlock :=
    UInt32.toNat_ofNat_of_lt' (by simp only [UInt32.size]; omega)
  obtain ⟨k, inside, here, free, before⟩ := sound.chain_freeSlot found
  have oldHash : ∀ p, taken a p = true → (published w blockOffset total pos a).hash p = a.hash p := by
    intro p used
    have other : p ≠ pos := by
      rintro rfl
      rw [free] at used
      cases used
    exact if_neg other
  have newHash : (published w blockOffset total pos a).hash pos = hashEntry w a.nextBlock := if_pos rfl
  have oldName : ∀ i, i < a.nextBlock → (published w blockOffset total pos a).names i = a.names i :=
    fun i below => if_neg (Nat.ne_of_lt below)
  have newName : (published w blockOffset total pos a).names a.nextBlock = w.name := if_pos rfl
  have older : ∀ i p, Older a i p → Older (published w blockOffset total pos a) i p := by
    rintro i p ⟨used, before⟩
    rw [Older, taken, oldHash p used]
    exact ⟨used, before⟩
  constructor
  case present =>
    intro i below
    rcases Nat.lt_or_eq_of_le (Nat.le_of_lt_succ below) with old | rfl
    · have same : (published w blockOffset total pos a).block i = a.block i :=
        if_neg (Nat.ne_of_lt old)
      rw [same]
      exact indexed.present i old
    · have entry : (published w blockOffset total pos a).block a.nextBlock =
        blockEntry w blockOffset total := if_pos rfl
      rw [entry]
      exact blockFlags_exists w
  case free =>
    intro i past
    have past : a.nextBlock < i := past
    have same : (published w blockOffset total pos a).block i = a.block i :=
      if_neg (Nat.ne_of_gt past)
    rw [same]
    exact indexed.free i past.le
  case slots =>
    intro p used
    by_cases new : p = pos
    · subst new
      rw [newHash]
      simp only [hashEntry, number, newName, and_self]
    · have same : (published w blockOffset total pos a).hash p = a.hash p := if_neg new
      rw [taken, same] at used
      rw [same, oldName _ (sound.index p used)]
      exact indexed.slots p used
  case chain =>
    intro i below
    rcases Nat.lt_or_eq_of_le (Nat.le_of_lt_succ below) with old | rfl
    · obtain ⟨j, bound, used, index, first⟩ := indexed.chain i old
      rw [oldName i old]
      refine ⟨j, bound, ?_, ?_, fun m less => older i _ (first m less)⟩
      · change taken _ (chainSlot a (a.names i) j) = true
        rw [taken, oldHash _ used]
        exact used
      · change ((published w blockOffset total pos a).hash (chainSlot a (a.names i) j)).blockTableIndex.toNat
          = i
        rw [oldHash _ used, index]
    · rw [newName]
      change ∃ k, k < a.hashCapacity ∧ taken _ (chainSlot a w.name k) = true ∧
        ((published w blockOffset total pos a).hash (chainSlot a w.name k)).blockTableIndex.toNat =
          a.nextBlock ∧ ∀ j, j < k → Older _ a.nextBlock (chainSlot a w.name j)
      refine ⟨k, inside, ?_, ?_, fun j less => older _ _ ⟨before j less, sound.index _ (before j less)⟩⟩
      · rw [← here, taken, newHash]
        have : hashFree.toNat = 2 ^ 32 - 1 := rfl
        have index : (hashEntry w a.nextBlock).blockTableIndex ≠ hashFree := by
          intro same
          have := congrArg UInt32.toNat same
          simp only [hashEntry, number] at this
          omega
        simpa using index
      · rw [← here, newHash]
        exact number
  case unique =>
    -- The new index is above every index that was there.
    have old : ∀ p, p ≠ pos → taken (published w blockOffset total pos a) p = true →
        (published w blockOffset total pos a).hash p = a.hash p ∧ taken a p = true := by
      intro p other used
      have same : (published w blockOffset total pos a).hash p = a.hash p := if_neg other
      rw [taken, same] at used
      exact ⟨same, used⟩
    have index : ((published w blockOffset total pos a).hash pos).blockTableIndex.toNat = a.nextBlock := by
      rw [newHash]
      exact number
    intro p q left right same
    by_cases first : p = pos
    · by_cases second : q = pos
      · rw [first, second]
      · obtain ⟨kept, used⟩ := old q second right
        have below := sound.index q used
        rw [first, index, kept] at same
        omega
    · obtain ⟨kept, used⟩ := old p first left
      have below := sound.index p used
      by_cases second : q = pos
      · rw [second, index, kept] at same
        omega
      · obtain ⟨kept', used'⟩ := old q second right
        rw [kept, kept'] at same
        exact indexed.unique p q used used' same

def Finishes (s : Active) (r : EStateM.Result Error Active Unit) : Prop :=
  Follows s (final r) ∨ ∃ t blockOffset total pos, Follows s t ∧
    freeSlot s.archive (fileHash s.writer.name).hash1 s.archive.hashCapacity 0 = some pos ∧
    (final r).archive = published t.writer blockOffset total pos t.archive

theorem freeSlot_disk (a : WriteArchive) (disk : Disk) (hash1 : UInt32) (fuel slot : Nat) :
    freeSlot { a with disk } hash1 fuel slot = freeSlot a hash1 fuel slot := by
  induction fuel generalizing slot with
  | zero => rfl
  | succ fuel ih =>
    rw [freeSlot, freeSlot, ih]
    rfl

theorem streamEnd_finishes {codecs : Codecs} {s : Active} (sound : Sound s.archive)
    (room : s.archive.nextBlock < s.archive.capacity) : Finishes s (streamEnd codecs s) := by
  have failed : ∀ e s', Follows s s' → Finishes s (.error e s') := fun _ _ => .inl
  refine Keeps.bind_elim (R := Follows) Keeps.get (refl_of _ _) failed fun _ t got same => ?_
  cases got
  refine Keeps.bind_elim (R := Follows) ?_ same failed fun _ t _ same => ?_
  · split
    · exact flushSector_follows codecs
    · exact Keeps.pure ()
  refine Keeps.bind_elim (closePayload_follows codecs) same failed fun total t _ same => ?_
  rw [bind_of_ok (get_run t)]
  split
  next => exact .inl (trans_of Follows same (Keeps.failIf _ _ t))
  next =>
    obtain ⟨disk, archive⟩ := same.archive
    obtain ⟨pos, found, -, -, done⟩ := publish_run (sound.follows same) (by rw [archive]; exact room)
      (t.writer.payloadOffset - t.writer.prefixSize) total
    refine .inr ⟨t, _, total, pos, same, ?_, by rw [done]; rfl⟩
    rw [same.name, archive] at found
    rwa [freeSlot_disk] at found

structure Builds (a a' : WriteArchive) : Prop where
  inv : Inv a'
  indexed : Indexed a'
  made : ∀ o, MadeWith o a → MadeWith o a'
  nextBlock : a.nextBlock ≤ a'.nextBlock
  names : ∀ i, i < a.nextBlock → a'.names i = a.names i

theorem Builds.trans {a b c : WriteArchive} (first : Builds a b) (second : Builds b c) : Builds a c where
  inv := second.inv
  indexed := second.indexed
  made o made := second.made o (first.made o made)
  nextBlock := first.nextBlock.trans second.nextBlock
  names i below := (second.names i (below.trans_le first.nextBlock)).trans (first.names i below)

def Extends (a a' : WriteArchive) : Prop := Inv a → Indexed a → Builds a a'

instance : Std.Refl Extends :=
  ⟨fun _ inv indexed => ⟨inv, indexed, fun _ => id, le_rfl, fun _ _ => rfl⟩⟩

instance : IsTrans WriteArchive Extends where
  trans _ _ _ first second inv indexed :=
    have built := first inv indexed
    built.trans (second built.inv built.indexed)

theorem Builds.settled {a : WriteArchive} (indexed : Indexed a) (disk : Disk)
    (rows : Option (Nat → FileAttributes)) (current : Option Writer)
    (inv : Inv { a with disk, attributes := rows, current }) :
    Builds a { a with disk, attributes := rows, current } :=
  ⟨inv, indexed.congr disk rows current a.internal,
    fun _ made => ⟨⟨made.valid, made.header, made.headerEx, made.capacity, made.hashCapacity,
      made.sectorSize, made.flags, made.attributesFlags, made.patchMode⟩, made.signature,
      made.strongSignature⟩, le_rfl, fun _ _ => rfl⟩

theorem fileBegin_extends (name : Bytes) (size : Int) (options : FileOptions) :
    Keeps Extends (fileBegin name size options) := by
  intro a inv indexed
  have kept := @fileBegin_inv name size options a inv
  have prepares := prepareWriter_prepares name size options .none a
  unfold fileBegin fileBeginWith at kept ⊢
  cases run : prepareWriter name size options .none a with
  | error e a' =>
    rw [run] at prepares
    rw [bind_of_error run] at kept ⊢
    obtain ⟨disk, rows, rfl⟩ := prepares
    exact Builds.settled indexed disk rows a.current kept
  | ok w a' =>
    rw [run] at prepares
    rw [bind_of_ok run] at kept ⊢
    obtain ⟨disk, rows, rfl⟩ := prepares
    exact Builds.settled indexed disk rows (some w) kept

theorem fileWrite_extends (codecs : Codecs) (data : Bytes) :
    Keeps Extends (fileWrite codecs data) := by
  intro a inv indexed
  have kept := @fileWrite_inv codecs data a inv
  unfold fileWrite withWriter at kept ⊢
  cases active : a.current with
  | none => exact refl_of Extends a inv indexed
  | some w =>
    simp only [active] at kept ⊢
    have follows := streamWrite_follows codecs data ⟨w, a⟩
    cases run : streamWrite codecs data ⟨w, a⟩ <;>
    · rw [run] at follows
      simp only [run] at kept ⊢
      obtain ⟨disk, archive⟩ := follows.archive
      simp only [final_ok, final_error] at archive kept ⊢
      rw [archive] at kept ⊢
      exact Builds.settled indexed disk a.attributes _ kept

theorem fileFinish_final {codecs : Codecs} {a : WriteArchive} {w : Writer} (active : a.current = some w) :
    final (fileFinish codecs a) =
      { (final (streamEnd codecs ⟨w, a⟩)).archive with current := none } := by
  rw [fileFinish_run active]
  cases streamEnd codecs ⟨w, a⟩ <;> rfl

theorem fileFinish_extends (codecs : Codecs) : Keeps Extends (fileFinish codecs) := by
  intro a inv indexed
  have kept := @fileFinish_inv codecs a inv
  cases active : a.current with
  | none =>
    simp only [fileFinish, dropWriter, withWriter, active] at kept ⊢
    exact Builds.settled indexed a.disk a.attributes none kept
  | some w =>
    have working := inv.current w active
    have ended := @streamEnd_finishes codecs _ working.sound working.room
    rw [fileFinish_final active] at kept ⊢
    rcases ended with follows | ⟨t, blockOffset, total, pos, follows, found, archive⟩
    · obtain ⟨disk, archive⟩ := follows.archive
      rw [archive] at kept ⊢
      exact Builds.settled indexed disk a.attributes none kept
    · rw [archive] at kept ⊢
      obtain ⟨disk, moved⟩ := follows.archive
      have slot : freeSlot t.archive (fileHash t.writer.name).hash1 t.archive.hashCapacity 0 = some pos := by
        rw [follows.name, moved, freeSlot_disk]
        exact found
      have tables := published_indexed (indexed.follows follows) (working.sound.follows follows)
        (by rw [moved]; exact working.room) blockOffset total slot
      rw [moved] at kept tables ⊢
      refine ⟨kept, tables.congr _ _ none _, fun _ made => ?_, Nat.le_succ _, fun i below => ?_⟩
      · exact ⟨⟨made.valid, made.header, made.headerEx, made.capacity, made.hashCapacity,
          made.sectorSize, made.flags, made.attributesFlags, made.patchMode⟩, made.signature,
          made.strongSignature⟩
      · exact if_neg (Nat.ne_of_lt below)

theorem fileAbort_extends : Keeps Extends fileAbort := fun a inv indexed =>
  Builds.settled indexed a.disk a.attributes none (fileAbort_inv inv)

theorem stable_extends (codecs : Codecs) : Stable codecs Extends where
  begin := fileBegin_extends
  write := fileWrite_extends codecs
  finish := fileFinish_extends codecs
  abort := fileAbort_extends

def WritesOn (a a' : WriteArchive) : Prop :=
  a'.nextBlock = a.nextBlock ∧ a'.current.map (·.name) = a.current.map (·.name)

instance : Std.Refl WritesOn := ⟨fun _ => ⟨rfl, rfl⟩⟩

instance : IsTrans WriteArchive WritesOn where
  trans _ _ _ first second := ⟨second.1.trans first.1, second.2.trans first.2⟩

theorem fileWrite_writesOn (codecs : Codecs) (data : Bytes) : Keeps WritesOn (fileWrite codecs data) := by
  intro a
  unfold fileWrite withWriter
  cases active : a.current with
  | none => exact refl_of WritesOn a
  | some w =>
    have follows := streamWrite_follows codecs data ⟨w, a⟩
    simp only
    cases run : streamWrite codecs data ⟨w, a⟩ <;>
    · rw [run] at follows
      obtain ⟨disk, archive⟩ := follows.archive
      simp only [final_ok, final_error] at archive ⊢
      rw [WritesOn, archive, active]
      exact ⟨rfl, congrArg some follows.name⟩

def Inserts (name : Option Bytes) (a a' : WriteArchive) : Prop :=
  a'.nextBlock = a.nextBlock ∨
    (a'.nextBlock = a.nextBlock + 1 ∧ some (a'.names a.nextBlock) = name)

theorem fileFinish_inserts {codecs : Codecs} {a : WriteArchive} (inv : Inv a) :
    Inserts (a.current.map (·.name)) a (final (fileFinish codecs a)) := by
  cases active : a.current with
  | none =>
    simp only [fileFinish, dropWriter, withWriter, active]
    exact .inl rfl
  | some w =>
    have working := inv.current w active
    have ended := @streamEnd_finishes codecs _ working.sound working.room
    rw [fileFinish_final active]
    rcases ended with follows | ⟨t, blockOffset, total, pos, follows, -, archive⟩
    · obtain ⟨disk, archive⟩ := follows.archive
      rw [archive]
      exact .inl rfl
    · obtain ⟨disk, moved⟩ := follows.archive
      rw [archive, moved]
      exact .inr ⟨rfl, congrArg some ((if_pos rfl).trans follows.name)⟩

theorem fileBegin_begins {name : Bytes} {size : Int} {options : FileOptions} {a a' : WriteArchive}
    (run : fileBegin name size options a = .ok () a') :
    a'.nextBlock = a.nextBlock ∧ a'.current.map (·.name) = some name := by
  obtain ⟨w, b, prepared, run⟩ := bind_ok.mp run
  cases run
  obtain ⟨disk, rows, rfl⟩ := (prepareWriter_prepares _ _ _ _).ok prepared
  refine ⟨rfl, congrArg some ?_⟩
  obtain ⟨-, -, -, -, _, _, reserved⟩ := prepareWriter_steps prepared
  rw [reserveOffsets_writer reserved]
  rfl

theorem fileBegin_refused {name : Bytes} {size : Int} {options : FileOptions} {a a' : WriteArchive}
    {e : Error} (run : fileBegin name size options a = .error e a') :
    a'.nextBlock = a.nextBlock ∧ a'.current = a.current := by
  have prepares := prepareWriter_prepares name size options .none a
  unfold fileBegin fileBeginWith at run
  cases prepared : prepareWriter name size options .none a with
  | error e' b =>
    rw [bind_of_error prepared] at run
    rw [prepared] at prepares
    cases run
    obtain ⟨disk, rows, rfl⟩ := prepares
    exact ⟨rfl, rfl⟩
  | ok w b =>
    rw [bind_of_ok prepared] at run
    cases run

def addWith (codecs : Codecs) (name : Bytes) (size : Int) (options : FileOptions)
    (fill : Op Error WriteArchive Unit) : Op Error WriteArchive Unit := do
  fileBegin name size options
  orAbort fill
  fileFinish codecs

theorem addWith_inserts {codecs : Codecs} {name : Bytes} {size : Int} {options : FileOptions}
    {fill : Op Error WriteArchive Unit} (writes : Keeps WritesOn fill) (extends_ : Keeps Extends fill)
    {a : WriteArchive} (inv : Inv a) (indexed : Indexed a) :
    Inserts (some name) a (final (addWith codecs name size options fill a)) := by
  have begun := fileBegin_extends name size options a inv indexed
  unfold addWith
  cases begin : fileBegin name size options a with
  | error e a' =>
    rw [bind_of_error begin]
    exact .inl (fileBegin_refused begin).1
  | ok _ b =>
    rw [begin] at begun
    rw [bind_of_ok begin]
    obtain ⟨same, named⟩ := fileBegin_begins begin
    have filled := extends_ b begun.inv begun.indexed
    have wrote := writes b
    cases fill_ : fill b with
    | error e c =>
      rw [fill_] at wrote
      rw [bind_of_error (orAbort_of_error fill_)]
      exact .inl (wrote.1.trans same)
    | ok _ c =>
      rw [fill_, final_ok] at filled wrote
      rw [bind_of_ok (orAbort_of_ok fill_)]
      have ended := @fileFinish_inserts codecs c filled.inv
      rw [wrote.2, named] at ended
      rw [Inserts, wrote.1, same] at ended
      exact ended

/-- A published member with the three hashes, the locale and the platform of the new one. -/
def Duplicates (a : WriteArchive) (name : Bytes) (options : FileOptions) : Prop :=
  ∃ pos, taken a pos = true ∧
    fileHash (a.names (a.hash pos).blockTableIndex.toNat) = fileHash name ∧
    (a.hash pos).locale = options.locale ∧ (a.hash pos).platform = options.platform

theorem duplicate_hit {a : WriteArchive} {name : Bytes} {options : FileOptions} {fuel slot k : Nat}
    (low : slot ≤ k) (high : k < slot + fuel)
    (used : ∀ j, slot ≤ j → j ≤ k → taken a (slotPosition a (fileHash name).hash1 j) = true)
    (hit : ∀ pos, pos = slotPosition a (fileHash name).hash1 k →
      (a.hash pos).hashA = (fileHash name).hash2 ∧ (a.hash pos).hashB = (fileHash name).hash3 ∧
        (a.hash pos).locale = options.locale ∧ (a.hash pos).platform = options.platform ∧
        (fileHash (a.names (a.hash pos).blockTableIndex.toNat)).hash1 = (fileHash name).hash1) :
    duplicate a name options fuel slot = true := by
  induction fuel generalizing slot with
  | zero => omega
  | succ fuel ih =>
    have here := used slot le_rfl low
    simp only [taken, ne_eq, decide_eq_true_eq] at here
    rw [duplicate]
    simp only [if_neg here]
    split
    next => rfl
    next other =>
      rcases Nat.lt_or_eq_of_le low with later | rfl
      · exact ih later (by omega) fun j least le => used j (by omega) le
      · exact absurd (hit _ rfl) other

theorem duplicate_of_published {a : WriteArchive} (sound : Sound a) (indexed : Indexed a)
    {name : Bytes} {options : FileOptions} (duplicates : Duplicates a name options) :
    duplicate a name options a.hashCapacity 0 = true := by
  obtain ⟨pos, used, same, locale, platform⟩ := duplicates
  obtain ⟨n, small, power⟩ := sound.hashCapacity
  have limit : a.hashCapacity < 2 ^ 32 := by
    rw [power]
    exact Nat.pow_lt_pow_right (by omega) (by omega)
  obtain ⟨k, inside, here, index, before⟩ := indexed.chain _ (sound.index pos used)
  have place := indexed.unique _ _ here used index
  obtain ⟨hashA, hashB⟩ := indexed.slots pos used
  have chain : ∀ j, j ≤ k → slotPosition a (fileHash name).hash1 j =
      chainSlot a (a.names (a.hash pos).blockTableIndex.toNat) j := by
    intro j le
    rw [slotPosition_eq small power _ (by omega), chainSlot, same]
  refine duplicate_hit (Nat.zero_le k) (by omega) (fun j _ le => ?_) fun p at_ => ?_
  · rw [chain j le]
    rcases Nat.lt_or_eq_of_le le with below | rfl
    · exact (before j below).1
    · exact here
  · rw [at_, chain k le_rfl, place, hashA, hashB, same]
    exact ⟨rfl, rfl, locale, platform, rfl⟩

theorem duplicates_of_duplicate {a : WriteArchive} (indexed : Indexed a) {name : Bytes} {options : FileOptions}
    {fuel slot : Nat} (hit : duplicate a name options fuel slot = true) : Duplicates a name options := by
  induction fuel generalizing slot with
  | zero => cases hit
  | succ fuel ih =>
    rw [duplicate] at hit
    split at hit
    next => cases hit
    next used =>
      split at hit
      next same =>
        obtain ⟨hashA, hashB, locale, platform, hash1⟩ := same
        have used : taken a (slotPosition a (fileHash name).hash1 slot) = true := by simpa [taken] using used
        obtain ⟨slotA, slotB⟩ := indexed.slots _ used
        refine ⟨_, used, ?_, locale, platform⟩
        rw [FileHash.mk.injEq]
        exact ⟨hash1, slotA.symm.trans hashA, slotB.symm.trans hashB⟩
      next => exact ih hit

theorem fileBegin_unique {name : Bytes} {size : Int} {options : FileOptions} {a a' : WriteArchive}
    (run : fileBegin name size options a = .ok () a') :
    duplicate a name options a.hashCapacity 0 = false := by
  obtain ⟨w, b, prepared, -⟩ := bind_ok.mp run
  exact (prepareWriter_steps prepared).2.2.1

/-- The checks of `writer_file_begin` in front of the search for duplicates let the call through. -/
structure Passes (a : WriteArchive) (name : Bytes) (size : Int) (options : FileOptions) : Prop where
  calm : a.disk.Calm
  size : 0 ≤ size
  idle : a.current = none
  notSignature : a.signature = true → sameIdentity name signatureName = false
  noMarker : has options.flags Flag.deleteMarker = false
  rows : a.attributesFlags ≠ 0 → a.internal = false → reservedSlots a ≤ a.capacity ∧
    a.nextBlock < a.capacity - reservedSlots a ∧ fileHash name ≠ fileHash attributesName
  room : a.nextBlock < a.capacity
  methods : succeeded (checkOptions a options a) = true

theorem reserveAttributes_passes {a : WriteArchive} {name : Bytes} {size : Int} {options : FileOptions}
    (passes : Passes a name size options) :
    ∃ rows, reserveAttributes name a = .ok () { a with attributes := rows } := by
  unfold reserveAttributes
  rw [bind_of_ok (get_run a)]
  split
  next used =>
    have first : ¬ (a.internal = false ∧
        (reservedSlots a > a.capacity ∨ a.nextBlock ≥ a.capacity - reservedSlots a)) := by
      rintro ⟨public_, full⟩
      have := passes.rows used public_
      omega
    have second : ¬ (a.internal = false ∧ fileHash name = fileHash attributesName) :=
      fun both => (passes.rows used both.1).2.2 both.2
    rw [bind_of_ok (failIf_false first _ _), bind_of_ok (failIf_false second _ _)]
    cases known : a.attributes with
    | some rows => exact ⟨a.attributes, rfl⟩
    | none =>
      refine ⟨some fun _ => .none, ?_⟩
      simp only
      rw [bind_of_ok (onDisk_alloc passes.calm _)]
      rfl
  next => exact ⟨a.attributes, rfl⟩

theorem checkOptions_passes {a : WriteArchive} {options : FileOptions}
    (methods : succeeded (checkOptions a options a) = true) (b : WriteArchive) :
    checkOptions a options b = .ok () b := by
  cases run : checkOptions a options a with
  | error e a' =>
    rw [run] at methods
    cases methods
  | ok _ a' =>
    unfold checkOptions at run ⊢
    obtain ⟨first, run⟩ := failIf_bind_ok.mp run
    obtain ⟨second, run⟩ := failIf_bind_ok.mp run
    obtain ⟨third, -⟩ := failIf_ok.mp run
    rw [bind_of_ok (failIf_false first _ _), bind_of_ok (failIf_false second _ _),
      failIf_false third]

theorem fileBegin_duplicate {a : WriteArchive} {name : Bytes} {size : Int} {options : FileOptions}
    (passes : Passes a name size options)
    (duplicates : duplicate a name options a.hashCapacity 0 = true) :
    ∃ a', fileBegin name size options a = .error .exist a' := by
  obtain ⟨rows, reserved⟩ := reserveAttributes_passes passes
  have calm : ({ a with attributes := rows } : WriteArchive).disk.Calm := passes.calm
  have first : ¬ (size < 0 ∨ a.current.isSome ∨ (PatchPrefix.none.bytes ≠ [] ∧
      (a.patchMode = false ∨ PatchPrefix.none.resultSize > uint32Max))) := by
    rw [passes.idle]
    rintro (negative | active | ⟨some, -⟩)
    · exact absurd passes.size (Int.not_le.mpr negative)
    · cases active
    · exact some rfl
  have room := passes.room
  refine ⟨{ a with attributes := rows }, ?_⟩
  unfold fileBegin fileBeginWith prepareWriter
  refine bind_of_error ?_ _
  rw [bind_of_ok (get_run a), bind_of_ok (failIf_false first _ _),
    bind_of_ok (failIf_false (by simpa using passes.notSignature) _ _),
    bind_of_ok (failIf_false (by simp [passes.noMarker]) _ _), bind_of_ok reserved,
    bind_of_ok (onDisk_alloc calm _), bind_of_ok (failIf_false (Nat.not_le.mpr room) _ _),
    bind_of_ok (checkOptions_passes passes.methods _), bind_of_error (failIf_true duplicates _ _)]

end Writing

end LibMpq
