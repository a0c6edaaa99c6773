import LibMpq.FileNumbers
import LibMpq.UpdateTables

set_option autoImplicit false

namespace LibMpq

open Effect Bits Probing

namespace Updating

open Reading

structure SameSlots (a b : ReadArchive) : Prop where
  hash : b.hash = a.hash
  header : b.header = a.header
  blockSize : b.blockSize = a.blockSize

theorem SameSlots.rfl {a : ReadArchive} : SameSlots a a := ⟨Eq.refl _, Eq.refl _, Eq.refl _⟩

theorem encodeBlock_slots {p : Packed} {block : Nat} {a b : ReadArchive} {plan plan' : Faults}
    (run : encodeBlock p block a plan = .ok b plan') : SameSlots a b := by
  obtain ⟨_, _, -, run⟩ := bind_ok.mp run
  obtain ⟨rfl, -⟩ := pure_ok.mp run
  exact ⟨rfl, rfl, rfl⟩

theorem encodeSome_slots {p : Packed} {block : Option Nat} {a b : ReadArchive} {plan plan' : Faults}
    (run : encodeSome p block a plan = .ok b plan') : SameSlots a b := by
  cases block with
  | none =>
    obtain ⟨rfl, -⟩ := pure_ok.mp run
    exact .rfl
  | some block => exact encodeBlock_slots run

theorem candidate_congr {a b : ReadArchive} (hash : b.hash = a.hash) (header : b.header = a.header)
    (home fuel i : Nat) (found : Option Nat) : candidate b home fuel i found = candidate a home fuel i found := by
  induction fuel generalizing i found with
  | zero => rfl
  | succ fuel ih =>
    have size : hashTableSize b = hashTableSize a := by rw [hashTableSize, hashTableSize, header]
    rw [candidate, candidate, hash, size]
    simp only [ih]

def renamedEntry (entry : HashEntry) (name : Bytes) : HashEntry :=
  { entry with hashA := (fileHash name).hash2, hashB := (fileHash name).hash3 }

def MemberEdit (a : ReadArchive) (slot : Nat) : Action → (Nat → HashEntry) → Prop
  | .replace _, hash => hash = a.hash
  | .remove, hash => hash = Function.update a.hash slot deletedEntry
  | .rename newName, hash => ∃ pos,
      candidate (deleteHash a slot) (homeOf a (fileHash newName)) (hashTableSize a) 0 none = some pos ∧
        hash = Function.update (Function.update a.hash slot deletedEntry) pos
          (renamedEntry (a.hash slot) newName)

theorem editMember_ok {w : World} {a b : ReadArchive} {slot block : Nat} {action : Action} {plan plan' : Faults}
    (run : editMember w a slot block action plan = .ok b plan') :
    MemberEdit a slot action b.hash ∧ b.header = a.header ∧ b.blockSize = a.blockSize := by
  unfold editMember at run
  obtain ⟨edited, _, encoded, run⟩ := bind_ok.mp run
  obtain ⟨hash, header, blockSize⟩ := encodeSome_slots encoded
  cases action with
  | replace identity =>
    obtain ⟨rfl, -⟩ := pure_ok.mp run
    exact ⟨hash, header, blockSize⟩
  | remove =>
    obtain ⟨rfl, -⟩ := pure_ok.mp run
    unfold removeMember
    simp only
    rw [MemberEdit, ← hash, ← header, ← blockSize]
    split <;> exact ⟨rfl, rfl, rfl⟩
  | rename newName =>
    obtain ⟨inserted, -⟩ := fromExcept_ok.mp run
    unfold insertHash at inserted
    have size : hashTableSize (deleteHash edited slot) = hashTableSize a := by
      rw [hashTableSize, hashTableSize, ← header]
      rfl
    rw [size] at inserted
    split at inserted
    next => cases inserted
    next =>
      have same : (deleteHash edited slot).hash = (deleteHash a slot).hash := by
        rw [deleteHash, deleteHash, hash]
      rw [@candidate_congr (deleteHash a slot) (deleteHash edited slot) same header] at inserted
      split at inserted
      next => cases inserted
      next pos found =>
        cases inserted
        refine ⟨⟨pos, found, ?_⟩, header, blockSize⟩
        rw [← hash]
        rfl

def withoutSignature (size : Nat) (signature : Option Nat) (hash : Nat → HashEntry) : Nat → HashEntry :=
  fun i => if i < size ∧ some (hash i).blockTableIndex.toNat = signature then deletedEntry else hash i

theorem dropSignature_hash (a : ReadArchive) (signature : Option Nat) :
    (dropSignature a signature).hash = withoutSignature (hashTableSize a) signature a.hash ∧
      (dropSignature a signature).header = a.header ∧ (dropSignature a signature).blockSize = a.blockSize := by
  cases signature with
  | none =>
    refine ⟨?_, rfl, rfl⟩
    funext i
    simp [dropSignature, withoutSignature]
  | some block =>
    refine ⟨?_, rfl, rfl⟩
    funext i
    simp [dropSignature, withoutSignature, clearBlock]

def Internal (a : ReadArchive) (name : Bytes) : Option Nat → Prop
  | none => ∀ number, fileNumber a name ≠ .ok number
  | some block => ∃ number, fileNumber a name = .ok number ∧ block = entryIndex a number ∧
      blockReferences a block = 1

theorem internalBlock_ok {a : ReadArchive} {name : Bytes} {block : Option Nat} {plan plan' : Faults}
    (run : internalBlock a name plan = .ok block plan') : Internal a name block := by
  unfold internalBlock at run
  cases found : fileNumber a name with
  | error e =>
    rw [found] at run
    obtain ⟨rfl, -⟩ := pure_ok.mp run
    rw [Internal, found]
    exact nofun
  | ok number =>
    rw [found] at run
    obtain ⟨once, run⟩ := failIf_bind_ok.mp run
    obtain ⟨rfl, -⟩ := pure_ok.mp run
    exact ⟨number, found, rfl, not_not.mp once⟩

structure Outcome (a b : ReadArchive) (oldName : Bytes) (action : Action) (slot : Nat) (signature : Option Nat) :
    Prop where
  reserved : reservedName oldName = false
  newReserved : ∀ newName, action = .rename newName → reservedName newName = false
  member : ∃ number, fileNumber a oldName = .ok number ∧ hashSlot a oldName (entryIndex a number) = some slot
  unused : ∀ newName, action = .rename newName → fileNumber a newName = .error .exist
  internal : Internal a signatureName signature
  header : b.header = a.header
  handle : Handle a → Handle b
  hash : ∃ middle, MemberEdit a slot action middle ∧
    b.hash = withoutSignature (hashTableSize a) signature middle
  gone : (∀ identity, action ≠ .replace identity) → fileNumber b oldName = .error .exist
  present : ∀ newName, action = .rename newName → ∃ number, fileNumber b newName = .ok number

theorem checkGone_ok {check : ReadArchive} {oldName : Bytes} {action : Action} {plan plan' : Faults} {u : Unit}
    (run : checkGone check oldName action plan = .ok u plan') (other : ∀ identity, action ≠ .replace identity) :
    fileNumber check oldName = .error .exist := by
  cases asked : fileNumber check oldName with
  | ok number =>
    cases action with
    | replace identity => exact (other identity rfl).elim
    | _ =>
      simp only [checkGone, asked] at run
      cases run
  | error e =>
    cases action with
    | replace identity => exact (other identity rfl).elim
    | _ =>
      simp only [checkGone, asked] at run
      rw [not_not.mp (failIf_ok.mp run).1]

theorem checkNewName_ok {a : ReadArchive} {newName : Bytes} {plan plan' : Faults} {u : Unit}
    (run : checkNewName a (.rename newName) plan = .ok u plan') : fileNumber a newName = .error .exist := by
  unfold checkNewName at run
  simp only [Action.newName] at run
  cases found : fileNumber a newName with
  | ok number =>
    rw [found] at run
    cases run
  | error e =>
    rw [found] at run
    rw [not_not.mp (failIf_ok.mp run).1]

theorem updateApply_outcome {w : World} {a b : ReadArchive} {oldName : Bytes} {action : Action}
    {plan plan' : Faults} (run : updateApply w a oldName action plan = .ok b plan') :
    ∃ slot signature, Outcome a b oldName action slot signature := by
  unfold updateApply at run
  obtain ⟨-, run⟩ := failIf_bind_ok.mp run
  obtain ⟨reserved, run⟩ := failIf_bind_ok.mp run
  obtain ⟨_, _, -, run⟩ := bind_ok.mp run
  obtain ⟨number, _, found, run⟩ := bind_ok.mp run
  obtain ⟨slot, _, placed, run⟩ := bind_ok.mp run
  obtain ⟨_, _, -, run⟩ := bind_ok.mp run
  obtain ⟨-, run⟩ := failIf_bind_ok.mp run
  obtain ⟨_, _, free, run⟩ := bind_ok.mp run
  obtain ⟨_, _, -, run⟩ := bind_ok.mp run
  obtain ⟨listfile, _, -, run⟩ := bind_ok.mp run
  obtain ⟨attributes, _, -, run⟩ := bind_ok.mp run
  obtain ⟨signature, _, signed, run⟩ := bind_ok.mp run
  obtain ⟨_, _, -, run⟩ := bind_ok.mp run
  obtain ⟨edited, _, member, run⟩ := bind_ok.mp run
  obtain ⟨listed, _, first, run⟩ := bind_ok.mp run
  obtain ⟨tabled, _, second, run⟩ := bind_ok.mp run
  obtain ⟨_, _, -, run⟩ := bind_ok.mp run
  obtain ⟨_, _, gone, run⟩ := bind_ok.mp run
  obtain ⟨_, _, present, run⟩ := bind_ok.mp run
  obtain ⟨rfl, -⟩ := pure_ok.mp run
  obtain ⟨changed, header, blockSize⟩ := editMember_ok member
  obtain ⟨hash', header', blockSize'⟩ := dropSignature_hash edited signature
  have one := encodeSome_slots first
  have two := encodeSome_slots second
  have sameHeader : tabled.header = a.header := by
    rw [two.header, one.header, header', header]
  have sameSize : tabled.blockSize = a.blockSize := by
    rw [two.blockSize, one.blockSize, blockSize', blockSize]
  refine ⟨slot, signature, ?_⟩
  constructor
  case reserved => simpa using fun named => reserved (.inl named)
  case newReserved =>
    rintro newName rfl
    simpa [Action.newName] using fun named => reserved (.inr named)
  case member =>
    refine ⟨number, (fromExcept_ok.mp found).1, ?_⟩
    have slotAt := (fromExcept_ok.mp placed).1
    cases search : hashSlot a oldName (entryIndex a number) with
    | none =>
      rw [search] at slotAt
      cases slotAt
    | some here =>
      rw [search] at slotAt
      cases slotAt
      rfl
  case unused =>
    rintro newName rfl
    exact checkNewName_ok free
  case internal => exact internalBlock_ok signed
  case header => exact sameHeader
  case handle =>
    rintro ⟨⟨blocks, _, _⟩, _, sectors⟩
    rw [← sameHeader] at blocks
    rw [← sameSize] at sectors
    exact ⟨⟨blocks, rfl, rfl⟩, rfl, sectors⟩
  case hash =>
    refine ⟨edited.hash, changed, ?_⟩
    show tabled.hash = _
    rw [two.hash, one.hash, hash', hashTableSize, hashTableSize, header]
  case gone => exact checkGone_ok gone
  case present =>
    rintro newName rfl
    obtain ⟨checked, _, there, -⟩ := bind_ok.mp present
    exact ⟨checked, (fromExcept_ok.mp there).1⟩

structure Found (a : ReadArchive) (h : FileHash) (number k : Nat) : Prop where
  matching : Matching a h k
  first : ∀ j, j < k → ¬ Matching a h j
  present : Present a (entryAt a h k).blockTableIndex
  index : entryIndex a number = (entryAt a h k).blockTableIndex.toNat

theorem exists_matching_of_ok {a : ReadArchive} {h : FileHash} {number : Nat}
    (found : fileNumberFromHash a h = .ok number) :
    ∃ k, Matching a h k ∧ ∀ j, j < k → ¬ Matching a h j := by
  by_contra absent
  have none : ∀ k, ¬ Matching a h k := by
    intro k matching
    obtain ⟨j, -, first, before⟩ := exists_first_matching matching
    exact absent ⟨j, first, before⟩
  rw [fileNumberFromHash_none none] at found
  cases found

theorem exists_found {a : ReadArchive} (handle : Handle a) {h : FileHash} {number : Nat}
    (found : fileNumberFromHash a h = .ok number) : ∃ k, Found a h number k := by
  obtain ⟨k, matching, first⟩ := exists_matching_of_ok found
  have run := fileNumberFromHash_first handle.toDecoded matching first
  rw [found] at run
  by_cases present : Present a (entryAt a h k).blockTableIndex
  · rw [if_pos present] at run
    injection run with ranked
    refine ⟨k, matching, first, present, ?_⟩
    obtain ⟨files, -⟩ := buildMap_rank a.block a.header.blockTableCount.toNat
    have below : number < (buildMap a.block a.header.blockTableCount.toNat).files := by
      have mono := rank_mono a.block (Nat.succ_le_of_lt present.1)
      rw [Nat.succ_eq_add_one, rank_succ, if_pos present.2] at mono
      rw [files, ranked]
      omega
    have indexed := buildMap_indices a.block a.header.blockTableCount.toNat number below
    have there := (buildMap_existing a.block a.header.blockTableCount.toNat number below).2
    rw [entryIndex, handle.indices]
    exact rank_injective there present.2 (indexed.trans ranked)
  · rw [if_neg present] at run
    cases run

theorem not_matching_of_exist {a : ReadArchive} (decoded : Reading.Decoded a) {h : FileHash}
    (missing : fileNumberFromHash a h = .error .exist) (k : Nat) : ¬ Matching a h k := by
  intro matching
  obtain ⟨j, -, first, before⟩ := exists_first_matching matching
  rw [fileNumberFromHash_first decoded first before] at missing
  split at missing <;> cases missing

def liveIn (hash : Nat → HashEntry) (pos : Nat) : Bool :=
  (hash pos).blockTableIndex ≠ hashFree ∧ (hash pos).blockTableIndex ≠ hashDeleted

def live (a : ReadArchive) : Nat → Bool := liveIn a.hash

def liveCount (a : ReadArchive) : Nat := (usedSlots (hashTableSize a) (live a)).card

theorem live_of_inside {a : ReadArchive} (handle : Handle a) {pos : Nat}
    (inside : (a.hash pos).blockTableIndex.toNat < a.header.blockTableCount.toNat) : live a pos = true := by
  have blocks := handle.blocks
  simp only [tableBytes, blockEntryWireSize] at blocks
  have apart : ∀ word : UInt32, 2 ^ 28 ≤ word.toNat → (a.hash pos).blockTableIndex ≠ word := by
    rintro word large same
    rw [same] at inside
    omega
  exact decide_eq_true ⟨apart _ (by decide), apart _ (by decide)⟩

theorem candidate_kept (a : ReadArchive) (home fuel i pos : Nat) :
    candidate a home fuel i (some pos) = some pos := by
  induction fuel generalizing i with
  | zero => rfl
  | succ fuel ih =>
    rw [candidate]
    simp [ih]

theorem candidate_spec {a : ReadArchive} {home fuel i pos : Nat}
    (found : candidate a home fuel i none = some pos) :
    ∃ k, i ≤ k ∧ k < i + fuel ∧ pos = slot (hashTableSize a) home k ∧ live a pos = false ∧
      ∀ j, i ≤ j → j < k → live a (slot (hashTableSize a) home j) = true := by
  induction fuel generalizing i with
  | zero => cases found
  | succ fuel ih =>
    rw [candidate] at found
    have apart : hashDeleted ≠ hashFree := by decide
    by_cases deleted : (a.hash ((home + i) % hashTableSize a)).blockTableIndex = hashDeleted
    · simp only [deleted, apart, and_self, if_true, if_false, candidate_kept] at found
      have here : pos = slot (hashTableSize a) home i := by
        simpa [slot, eq_comm] using found
      refine ⟨i, le_rfl, by omega, here, ?_, fun j low high => by omega⟩
      rw [here]
      exact decide_eq_false fun both => both.2 deleted
    · simp only [deleted, false_and, if_false] at found
      by_cases free : (a.hash ((home + i) % hashTableSize a)).blockTableIndex = hashFree
      · have here : pos = slot (hashTableSize a) home i := by
          simpa [free, deleted, slot, eq_comm] using found
        refine ⟨i, le_rfl, by omega, here, ?_, fun j low high => by omega⟩
        rw [here]
        exact decide_eq_false fun both => both.1 free
      · rw [if_neg free] at found
        obtain ⟨k, low, high, place, dead, before⟩ := ih found
        refine ⟨k, by omega, by omega, place, dead, fun j lower below => ?_⟩
        by_cases first : j = i
        · rw [first]
          exact decide_eq_true ⟨free, deleted⟩
        · exact before j (by omega) below

theorem liveIn_deleted {hash : Nat → HashEntry} {pos : Nat} (deleted : hash pos = deletedEntry) :
    liveIn hash pos = false := by
  rw [liveIn, deleted]
  decide

theorem liveIn_congr {hash hash' : Nat → HashEntry} {pos pos' : Nat}
    (same : (hash' pos').blockTableIndex = (hash pos).blockTableIndex) : liveIn hash' pos' = liveIn hash pos := by
  rw [liveIn, liveIn, same]

theorem neverUsed_of_live {a : ReadArchive} {pos : Nat} (alive : live a pos = true) : neverUsed a pos = false :=
  decide_eq_false (of_decide_eq_true alive).1

section outcome

variable {a b : ReadArchive} {oldName : Bytes} {action : Action} {slot : Nat} {signature : Option Nat}

structure Member (a : ReadArchive) (oldName : Bytes) (slot : Nat) : Prop where
  inside : slot < hashTableSize a
  hashA : (a.hash slot).hashA = (fileHash oldName).hash2
  hashB : (a.hash slot).hashB = (fileHash oldName).hash3
  index : ∃ number, fileNumber a oldName = .ok number ∧ (a.hash slot).blockTableIndex.toNat = entryIndex a number
  live : live a slot = true

theorem Outcome.isMember (outcome : Outcome a b oldName action slot signature) (handle : Handle a) :
    Member a oldName slot := by
  obtain ⟨number, found, search⟩ := outcome.member
  have meets := List.find?_some search
  have inside := List.mem_range.mp (List.mem_of_find?_eq_some search)
  simp only [decide_eq_true_eq] at meets
  obtain ⟨index, hashA, hashB⟩ := meets
  obtain ⟨k, here⟩ := exists_found handle found
  refine ⟨inside, hashA, hashB, ⟨number, found, index⟩, live_of_inside handle ?_⟩
  rw [index, here.index]
  exact here.present.1

structure Signed (a : ReadArchive) (block q : Nat) : Prop where
  inside : q < hashTableSize a
  hashA : (a.hash q).hashA = (fileHash signatureName).hash2
  hashB : (a.hash q).hashB = (fileHash signatureName).hash3
  index : (a.hash q).blockTableIndex.toNat = block
  held : block < a.header.blockTableCount.toNat
  only : ∀ p, p < hashTableSize a → (a.hash p).blockTableIndex.toNat = block → p = q

theorem internal_signed (handle : Handle a) {block : Nat} (internal : Internal a signatureName (some block)) :
    ∃ q, Signed a block q := by
  obtain ⟨number, found, rfl, once⟩ := internal
  obtain ⟨k, here⟩ := exists_found handle found
  obtain ⟨reaches, hashA, hashB⟩ := here.matching
  have held := here.present.1
  have inside : Probing.slot (hashTableSize a) (homeOf a (fileHash signatureName)) k < hashTableSize a :=
    slot_lt (by have := reaches.1; omega) _ _
  obtain ⟨q, single⟩ := List.length_eq_one_iff.mp once
  have member : ∀ p, p < hashTableSize a → (a.hash p).blockTableIndex.toNat = entryIndex a number → p = q := by
    intro p below same
    have listed : p ∈ (List.range (hashTableSize a)).filter (refers a (entryIndex a number)) := by
      refine List.mem_filter.mpr ⟨List.mem_range.mpr below, decide_eq_true ⟨?_, same⟩⟩
      rw [same, here.index]
      exact held
    rw [single] at listed
    exact List.mem_singleton.mp listed
  rw [← here.index] at held
  have first := member _ inside here.index.symm
  subst first
  exact ⟨_, inside, hashA, hashB, here.index.symm, held, member⟩

theorem reserved_of_signature {name : Bytes} (hashA : (fileHash name).hash2 = (fileHash signatureName).hash2)
    (hashB : (fileHash name).hash3 = (fileHash signatureName).hash3) : reservedName name = true := by
  simp [reservedName, hashA, hashB]

theorem MemberEdit.entry_cases {middle : Nat → HashEntry} (edit : MemberEdit a slot action middle) (p : Nat) :
    middle p = a.hash p ∨ middle p = deletedEntry ∨
      ∃ newName, action = .rename newName ∧
        candidate (deleteHash a slot) (homeOf a (fileHash newName)) (hashTableSize a) 0 none = some p ∧
        middle p = renamedEntry (a.hash slot) newName := by
  cases action with
  | replace identity => exact .inl (congrFun edit p)
  | remove =>
    rw [edit]
    by_cases here : p = slot
    · rw [here, Function.update_self]
      exact .inr (.inl rfl)
    · rw [Function.update_of_ne here]
      exact .inl rfl
  | rename newName =>
    obtain ⟨pos, found, edit⟩ := edit
    rw [edit]
    by_cases placed : p = pos
    · rw [placed, Function.update_self]
      exact .inr (.inr ⟨newName, rfl, found, rfl⟩)
    · rw [Function.update_of_ne placed]
      by_cases here : p = slot
      · rw [here, Function.update_self]
        exact .inr (.inl rfl)
      · rw [Function.update_of_ne here]
        exact .inl rfl

theorem MemberEdit.keeps {middle : Nat → HashEntry} (edit : MemberEdit a slot action middle) {p : Nat}
    (other : p ≠ slot) (alive : live a p = true) : middle p = a.hash p := by
  cases action with
  | replace identity => exact congrFun edit p
  | remove => rw [edit, Function.update_of_ne other]
  | rename newName =>
    obtain ⟨pos, found, rfl⟩ := edit
    obtain ⟨_, -, -, -, dead, -⟩ := candidate_spec found
    have apart : p ≠ pos := by
      rintro rfl
      have kept : (deleteHash a slot).hash p = a.hash p := Function.update_of_ne other _ _
      rw [live, liveIn_congr (congrArg HashEntry.blockTableIndex kept)] at dead
      rw [live, dead] at alive
      cases alive
    rw [Function.update_of_ne apart, Function.update_of_ne other]

theorem Outcome.entry_cases (outcome : Outcome a b oldName action slot signature) (p : Nat) :
    b.hash p = a.hash p ∨ b.hash p = deletedEntry ∨
      ∃ newName, action = .rename newName ∧
        candidate (deleteHash a slot) (homeOf a (fileHash newName)) (hashTableSize a) 0 none = some p ∧
        b.hash p = renamedEntry (a.hash slot) newName := by
  obtain ⟨middle, edit, hash⟩ := outcome.hash
  rw [hash, withoutSignature]
  split
  next => exact .inr (.inl rfl)
  next => exact edit.entry_cases p

theorem Outcome.size (outcome : Outcome a b oldName action slot signature) : hashTableSize b = hashTableSize a := by
  rw [hashTableSize, hashTableSize, outcome.header]

theorem Outcome.homeOf (outcome : Outcome a b oldName action slot signature) (h : FileHash) :
    Reading.homeOf b h = Reading.homeOf a h := by
  rw [Reading.homeOf, Reading.homeOf, outcome.size]

-- No edit frees a slot, so every chain goes on where it went on before.
theorem Outcome.neverUsed (outcome : Outcome a b oldName action slot signature) (handle : Handle a) {p : Nat}
    (used : Reading.neverUsed a p = false) : Reading.neverUsed b p = false := by
  obtain same | deleted | ⟨newName, _, _, renamed⟩ := outcome.entry_cases p
  · rw [Reading.neverUsed, same]
    exact used
  · rw [Reading.neverUsed, deleted]
    decide
  · rw [Reading.neverUsed, renamed]
    exact neverUsed_of_live (outcome.isMember handle).live

theorem Outcome.placed (outcome : Outcome a b oldName action slot signature) (handle : Handle a) {newName : Bytes}
    {p : Nat} (found : candidate (deleteHash a slot) (Reading.homeOf a (fileHash newName)) (hashTableSize a) 0
      none = some p) (renamed : b.hash p = renamedEntry (a.hash slot) newName) :
    ∃ k, p = Probing.slot (hashTableSize a) (Reading.homeOf a (fileHash newName)) k ∧
      (∀ j, j < k → live a (Probing.slot (hashTableSize a) (Reading.homeOf a (fileHash newName)) j) = true) ∧
      Matching b (fileHash newName) k := by
  obtain ⟨k, -, below, place, -, before⟩ := candidate_spec found
  have size : hashTableSize (deleteHash a slot) = hashTableSize a := rfl
  rw [size] at place before
  have alive : ∀ j, j < k →
      live a (Probing.slot (hashTableSize a) (Reading.homeOf a (fileHash newName)) j) = true := by
    intro j less
    have still := before j (Nat.zero_le j) less
    by_cases here : Probing.slot (hashTableSize a) (Reading.homeOf a (fileHash newName)) j = slot
    · rw [here]
      exact (outcome.isMember handle).live
    · have kept : (deleteHash a slot).hash
          (Probing.slot (hashTableSize a) (Reading.homeOf a (fileHash newName)) j) =
          a.hash (Probing.slot (hashTableSize a) (Reading.homeOf a (fileHash newName)) j) :=
        Function.update_of_ne here _ _
      rw [live, liveIn_congr (congrArg HashEntry.blockTableIndex kept)] at still
      exact still
  have there : b.hash (Probing.slot (hashTableSize b) (Reading.homeOf b (fileHash newName)) k) =
      renamedEntry (a.hash slot) newName := by
    rw [outcome.size, outcome.homeOf, ← place]
    exact renamed
  refine ⟨k, place, alive, ⟨by rw [outcome.size]; omega, fun j le => ?_⟩, ?_, ?_⟩
  · rcases Nat.lt_or_eq_of_le le with less | rfl
    · rw [outcome.size, outcome.homeOf]
      exact outcome.neverUsed handle (neverUsed_of_live (alive j less))
    · rw [Reading.neverUsed, there]
      exact neverUsed_of_live (outcome.isMember handle).live
  · rw [entryAt, there]
    rfl
  · rw [entryAt, there]
    rfl

structure Named (a : ReadArchive) (name : Bytes) (p : Nat) : Prop where
  hashA : (a.hash p).hashA = (fileHash name).hash2
  hashB : (a.hash p).hashB = (fileHash name).hash3
  reached : ∃ k, p = Probing.slot (hashTableSize a) (Reading.homeOf a (fileHash name)) k ∧
    Reaches (hashTableSize a) (Reading.homeOf a (fileHash name)) (Reading.neverUsed a) k

/-- A handle whose live entries are all found from the home slots of their names. -/
structure Good (a : ReadArchive) (names : Nat → Bytes) : Prop where
  handle : Handle a
  named : ∀ p, p < hashTableSize a → live a p = true → Named a (names p) p

def namesAfter (a b : ReadArchive) (names : Nat → Bytes) (action : Action) (p : Nat) : Bytes :=
  if b.hash p = a.hash p then names p else action.newName.getD []

theorem Outcome.good (outcome : Outcome a b oldName action slot signature) {names : Nat → Bytes}
    (good : Good a names) : Good b (namesAfter a b names action) := by
  refine ⟨outcome.handle good.handle, fun p inside alive => ?_⟩
  rw [outcome.size] at inside
  by_cases same : b.hash p = a.hash p
  · obtain ⟨hashA, hashB, k, place, reaches⟩ := good.named p inside ((liveIn_congr (by rw [same])).trans alive)
    rw [namesAfter, if_pos same]
    refine ⟨by rw [same, hashA], by rw [same, hashB], k, ?_, ?_⟩
    · rw [outcome.size, outcome.homeOf]
      exact place
    · rw [outcome.size, outcome.homeOf]
      exact reaches.of_ends fun pos used => outcome.neverUsed good.handle used
  · rw [namesAfter, if_neg same]
    obtain kept | deleted | ⟨newName, rfl, found, renamed⟩ := outcome.entry_cases p
    · exact (same kept).elim
    · rw [live, liveIn_deleted deleted] at alive
      cases alive
    · obtain ⟨k, place, -, reaches, -⟩ := outcome.placed good.handle found renamed
      refine ⟨by rw [renamed]; rfl, by rw [renamed]; rfl, k, ?_, reaches⟩
      rw [outcome.size, outcome.homeOf]
      exact place

-- The names of the internal members are reserved, so the member is not the signature.
theorem Outcome.apart (outcome : Outcome a b oldName action slot signature) (handle : Handle a) :
    some (a.hash slot).blockTableIndex.toNat ≠ signature := by
  intro same
  have internal := outcome.internal
  rw [← same] at internal
  obtain ⟨q, signed⟩ := internal_signed handle internal
  have member := outcome.isMember handle
  have here := signed.only slot member.inside rfl
  have hashA := signed.hashA
  have hashB := signed.hashB
  rw [← here] at hashA hashB
  have reserved := reserved_of_signature (member.hashA.symm.trans hashA) (member.hashB.symm.trans hashB)
  rw [outcome.reserved] at reserved
  cases reserved

theorem deleted_outside (handle : Handle a) {entry : HashEntry} (deleted : entry = deletedEntry) :
    ¬ entry.blockTableIndex.toNat < a.header.blockTableCount.toNat := by
  have blocks := handle.blocks
  simp only [tableBytes, blockEntryWireSize] at blocks
  have large : hashDeleted.toNat = 2 ^ 32 - 2 := by decide
  rw [deleted, deletedEntry, large]
  omega

theorem Outcome.renamed (outcome : Outcome a b oldName action slot signature) (handle : Handle a)
    {newName : Bytes} (renames : action = .rename newName) :
    ∃ number k, fileNumber b newName = .ok number ∧ Found b (fileHash newName) number k ∧
      entryAt b (fileHash newName) k = renamedEntry (a.hash slot) newName := by
  subst renames
  obtain ⟨number, asked⟩ := outcome.present newName rfl
  obtain ⟨k, found⟩ := exists_found (outcome.handle handle) asked
  refine ⟨number, k, asked, found, ?_⟩
  obtain ⟨middle, ⟨pos, search, edit⟩, hash⟩ := outcome.hash
  have there : b.hash pos = renamedEntry (a.hash slot) newName := by
    have stays : ¬ (pos < hashTableSize a ∧ some (middle pos).blockTableIndex.toNat = signature) := by
      rw [edit, Function.update_self]
      exact fun dropped => outcome.apart handle dropped.2
    rw [hash, withoutSignature, if_neg stays, edit, Function.update_self]
  obtain ⟨i, place, alive, matching⟩ := outcome.placed handle search there
  have upTo : k ≤ i := by
    by_contra later
    exact found.first i (by omega) matching
  rcases Nat.lt_or_eq_of_le upTo with less | rfl
  · -- An earlier entry of the name would have been found before the update, or is deleted now.
    have missing := not_matching_of_exist handle.toDecoded (outcome.unused newName rfl) k
    obtain same | deleted | ⟨_, ⟨⟩, _, renamed⟩ :=
      outcome.entry_cases (Probing.slot (hashTableSize a) (Reading.homeOf a (fileHash newName)) k)
    · refine (missing ⟨⟨?_, fun j le => ?_⟩, ?_, ?_⟩).elim
      · have below := matching.1.1
        rw [outcome.size] at below
        omega
      · exact neverUsed_of_live (alive j (by omega))
      · have hashA := found.matching.2.1
        rw [entryAt, outcome.size, outcome.homeOf, same] at hashA
        exact hashA
      · have hashB := found.matching.2.2
        rw [entryAt, outcome.size, outcome.homeOf, same] at hashB
        exact hashB
    · refine (deleted_outside (outcome.handle handle) ?_ found.present.1).elim
      rw [entryAt, outcome.size, outcome.homeOf]
      exact deleted
    · rw [entryAt, outcome.size, outcome.homeOf]
      exact renamed
  · rw [entryAt, outcome.size, outcome.homeOf, ← place]
    exact there

def removals : Action → Nat
  | .remove => 1
  | _ => 0

def signatures (a : ReadArchive) : Nat :=
  match fileNumber a signatureName with
  | .ok _ => 1
  | .error _ => 0

theorem MemberEdit.count {middle : Nat → HashEntry} (edit : MemberEdit a slot action middle)
    (member : Member a oldName slot) :
    (usedSlots (hashTableSize a) (liveIn middle)).card + removals action = liveCount a := by
  have deleted : (usedSlots (hashTableSize a) (liveIn (Function.update a.hash slot deletedEntry))).card + 1 =
      liveCount a := by
    refine card_usedSlots_drop member.inside member.live (liveIn_deleted (Function.update_self ..))
      fun p _ other => liveIn_congr ?_
    rw [Function.update_of_ne other]
  cases action with
  | replace identity =>
    rw [edit]
    rfl
  | remove =>
    rw [edit]
    exact deleted
  | rename newName =>
    obtain ⟨pos, found, rfl⟩ := edit
    obtain ⟨k, -, below, place, dead, -⟩ := candidate_spec found
    have size : hashTableSize (deleteHash a slot) = hashTableSize a := rfl
    rw [size] at place
    have inside : pos < hashTableSize a := by
      rw [place]
      exact slot_lt (by omega) _ _
    have placed : liveIn (Function.update (Function.update a.hash slot deletedEntry) pos
        (renamedEntry (a.hash slot) newName)) pos = true := by
      refine (liveIn_congr ?_).trans member.live
      rw [Function.update_self]
      rfl
    -- The slot it is put in is one more than without it.
    have more := card_usedSlots_drop inside placed dead fun p _ other => by
      refine liveIn_congr ?_
      rw [Function.update_of_ne other]
      rfl
    rw [← more]
    exact deleted

theorem Outcome.count (outcome : Outcome a b oldName action slot signature) (handle : Handle a) :
    liveCount b + removals action + signatures a = liveCount a := by
  obtain ⟨middle, edit, hash⟩ := outcome.hash
  have edited := edit.count (outcome.isMember handle)
  have internal := outcome.internal
  rw [liveCount, live, outcome.size, hash]
  cases signature with
  | none =>
    have unsigned : signatures a = 0 := by
      unfold signatures
      split
      next number found => exact (internal number found).elim
      next => rfl
    rw [card_usedSlots_congr fun p _ => liveIn_congr (by rw [withoutSignature, if_neg (by simp)]), unsigned]
    exact edited
  | some block =>
    have one : signatures a = 1 := by
      obtain ⟨number, found, -⟩ := internal
      rw [signatures, found]
    obtain ⟨q, signed⟩ := internal_signed handle internal
    have index := signed.index
    have alive : live a q = true := live_of_inside handle (by rw [index]; exact signed.held)
    have other : q ≠ slot := by
      rintro rfl
      exact outcome.apart handle (by rw [index])
    have kept := edit.keeps other alive
    have only : ∀ p, p < hashTableSize a → some (middle p).blockTableIndex.toNat = some block → p = q := by
      intro p inside same
      injection same with same
      obtain stays | deleted | ⟨_, _, _, renamed⟩ := edit.entry_cases p
      · rw [stays] at same
        exact signed.only p inside same
      · refine (deleted_outside handle deleted ?_).elim
        rw [same]
        exact signed.held
      · rw [renamed] at same
        exact (outcome.apart handle (congrArg some same)).elim
    have dropped := @card_usedSlots_drop _ q (liveIn middle)
      (liveIn (withoutSignature (hashTableSize a) (some block) middle)) signed.inside
      ((liveIn_congr (by rw [kept])).trans alive)
      (liveIn_deleted (if_pos ⟨signed.inside, by rw [kept, index]⟩))
      fun p inside apart => liveIn_congr (by
        rw [withoutSignature, if_neg fun both => apart (only p inside both.2)])
    omega

/-- No other live entry has the hashes of the signature's name. -/
def SignatureAlone (a : ReadArchive) : Prop :=
  ∀ number, fileNumber a signatureName = .ok number → ∀ p, p < hashTableSize a → live a p = true →
    (a.hash p).hashA = (fileHash signatureName).hash2 → (a.hash p).hashB = (fileHash signatureName).hash3 →
      (a.hash p).blockTableIndex.toNat = entryIndex a number

theorem Outcome.unsigned (outcome : Outcome a b oldName action slot signature) (handle : Handle a)
    (alone : SignatureAlone a) {number : Nat} (found : fileNumber a signatureName = .ok number) (after : Nat) :
    fileNumber b signatureName ≠ .ok after := by
  intro still
  obtain ⟨k, here⟩ := exists_found (outcome.handle handle) still
  have held := here.present.1
  obtain ⟨reaches, hashA, hashB⟩ := here.matching
  rw [entryAt] at held hashA hashB
  have inside : Probing.slot (hashTableSize b) (Reading.homeOf b (fileHash signatureName)) k < hashTableSize a := by
    rw [← outcome.size]
    exact slot_lt (by have := reaches.1; omega) _ _
  generalize Probing.slot (hashTableSize b) (Reading.homeOf b (fileHash signatureName)) k = p at *
  have internal := outcome.internal
  obtain same | deleted | ⟨newName, renames, _, renamed⟩ := outcome.entry_cases p
  · have index := alone number found p inside
      ((liveIn_congr (by rw [same])).symm.trans (live_of_inside (outcome.handle handle) held))
      (by rw [← same]; exact hashA) (by rw [← same]; exact hashB)
    cases signature with
    | none => exact internal number found
    | some block =>
      obtain ⟨number', found', rfl, -⟩ := internal
      rw [found] at found'
      injection found' with numbers
      subst numbers
      obtain ⟨middle, -, hash⟩ := outcome.hash
      have entry := congrFun hash p
      rw [withoutSignature] at entry
      split at entry
      next => exact deleted_outside (outcome.handle handle) entry held
      next stays => exact stays ⟨inside, by rw [← entry, same, index]⟩
  · exact deleted_outside (outcome.handle handle) deleted held
  · rw [renamed] at hashA hashB
    have reserved := reserved_of_signature hashA hashB
    rw [outcome.newReserved newName renames] at reserved
    cases reserved

end outcome

structure Owed (a b : ReadArchive) (names names' : Nat → Bytes) (oldName : Bytes) (action : Action) : Prop where
  reachable : ∀ p, p < hashTableSize b → live b p = true → Named b (names' p) p
  remaining : ∀ p, live b p = true → (b.hash p = a.hash p ∧ names' p = names p) ∨
    ∃ slot newName, action = .rename newName ∧ names' p = newName ∧ Member a oldName slot ∧
      b.hash p = renamedEntry (a.hash slot) newName
  gone : (∀ identity, action ≠ .replace identity) → ∀ number, fileNumber b oldName ≠ .ok number
  renamed : ∀ newName, action = .rename newName → ∃ slot number k, Member a oldName slot ∧
    fileNumber b newName = .ok number ∧ Found b (fileHash newName) number k ∧
    entryAt b (fileHash newName) k = renamedEntry (a.hash slot) newName
  unsigned : (∃ number, fileNumber a signatureName = .ok number) →
    ∀ number, fileNumber b signatureName ≠ .ok number
  count : liveCount b + removals action + signatures a = liveCount a

/-- The tables of a working copy, with the names its entries stand for. -/
structure State where
  archive : ReadArchive
  names : Nat → Bytes

def Updated (s t : State) (oldName : Bytes) (action : Action) : Prop :=
  (∃ w plan plan', updateApply w s.archive oldName action plan = .ok t.archive plan') ∧
    t.names = namesAfter s.archive t.archive s.names action

/-- Where any sequence of calls leads; one that fails leaves the working copy as it was. -/
inductive Runs (s : State) : State → Prop
  | start : Runs s s
  | update {t u : State} {oldName : Bytes} {action : Action} : Runs s t → Updated t u oldName action → Runs s u

theorem Updated.good {s t : State} {oldName : Bytes} {action : Action} (good : Good s.archive s.names)
    (updated : Updated s t oldName action) : Good t.archive t.names := by
  obtain ⟨⟨w, plan, plan', run⟩, names⟩ := updated
  obtain ⟨slot, signature, outcome⟩ := updateApply_outcome run
  rw [names]
  exact outcome.good good

theorem Runs.good {s t : State} (good : Good s.archive s.names) (runs : Runs s t) :
    Good t.archive t.names := by
  induction runs with
  | start => exact good
  | update earlier updated ih => exact updated.good ih

theorem updates_keep {s t u : State} {oldName : Bytes} {action : Action} (good : Good s.archive s.names)
    (runs : Runs s t) (updated : Updated t u oldName action) (alone : SignatureAlone t.archive) :
    Owed t.archive u.archive t.names u.names oldName action := by
  have before := runs.good good
  have after := updated.good before
  obtain ⟨⟨w, plan, plan', run⟩, names⟩ := updated
  obtain ⟨slot, signature, outcome⟩ := updateApply_outcome run
  have member := outcome.isMember before.handle
  constructor
  case reachable => exact after.named
  case remaining =>
    intro p alive
    rw [names]
    by_cases same : u.archive.hash p = t.archive.hash p
    · exact .inl ⟨same, if_pos same⟩
    · right
      obtain kept | deleted | ⟨newName, rfl, -, renamed⟩ := outcome.entry_cases p
      · exact (same kept).elim
      · rw [live, liveIn_deleted deleted] at alive
        cases alive
      · exact ⟨slot, newName, rfl, if_neg same, member, renamed⟩
  case gone =>
    intro other number found
    rw [outcome.gone other] at found
    cases found
  case renamed =>
    intro newName renames
    obtain ⟨number, k, asked, found, entry⟩ := outcome.renamed before.handle renames
    exact ⟨slot, number, k, member, asked, found, entry⟩
  case unsigned =>
    rintro ⟨number, found⟩ after
    exact outcome.unsigned before.handle alone found after
  case count => exact outcome.count before.handle

def entryOf (name : Bytes) (locale : UInt16) (block : UInt32) : HashEntry where
  hashA := (fileHash name).hash2
  hashB := (fileHash name).hash3
  locale := locale
  platform := 0
  blockTableIndex := block

def freeEntry : HashEntry where
  hashA := 0
  hashB := 0
  locale := 0
  platform := 0
  blockTableIndex := hashFree

def handleOf (second third : HashEntry) : ReadArchive :=
  reopened
    { source := File.empty
      plan := Faults.healthy
      archiveOffset := 0
      blockSize := 512
      header :=
        { magic := headerMagic, headerSize := 32, archiveSize := 0, version := 0, blockSize := 0
          hashTableOffset := 32, blockTableOffset := 96, hashTableCount := 4, blockTableCount := 3 }
      headerEx := { extendedOffset := 0, hashTableOffsetHigh := 0, blockTableOffsetHigh := 0 }
      hash := fun i => if i = 1 then second else if i = 2 then third else
        if i = 3 then entryOf (ascii "a".toList) 0 0 else freeEntry
      block := fun _ => { offset := 0, packedSize := 0, unpackedSize := 0, flags := Flag.exists_ }
      blockEx := fun _ => 0
      blockTableIndices := fun _ => 0
      blockTableDiff := fun _ => 0
      files := 0
      cache := fun _ => none
      attributes := none
      attributesError := none }

def onceSigned : ReadArchive := handleOf (entryOf signatureName 0 1) freeEntry

/-- The same name once more, for another locale. -/
def twiceSigned : ReadArchive := handleOf (entryOf signatureName 0 1) (entryOf signatureName 0x409 2)

-- Nothing is packed when a member is removed from an archive without a list and attributes.
def unpacked : Packed where
  writer :=
    { name := [], data := [], sectorIndex := 0, blockCount := 0, payloadOffset := 0, prefixSize := 0
      patchResultSize := 0, packedTotal := 0, offsets := none, checksums := none, expected := 0
      written := 0, options := .default, attributes := .none, md5 := Md5.init }
  offset := 0
  total := 0

def unlisted : World where
  attributes := .error .exist
  listfile := .ok ()
  rows := .ok ()
  content := unpacked
  lines := unpacked
  table := unpacked

def firstNames (p : Nat) : Bytes := if p = 3 then ascii "a".toList else signatureName

theorem good_of_distance {a : ReadArchive} (handle : Handle a) {names : Nat → Bytes} (distance : Nat → Nat)
    (near : ∀ p, p < hashTableSize a → live a p = true →
      (a.hash p).hashA = (fileHash (names p)).hash2 ∧ (a.hash p).hashB = (fileHash (names p)).hash3 ∧
        distance p < hashTableSize a ∧ p = slot (hashTableSize a) (homeOf a (fileHash (names p))) (distance p) ∧
        ∀ j, j < distance p + 1 →
          neverUsed a (slot (hashTableSize a) (homeOf a (fileHash (names p))) j) = false) : Good a names := by
  refine ⟨handle, fun p inside alive => ?_⟩
  obtain ⟨hashA, hashB, less, place, used⟩ := near p inside alive
  exact ⟨hashA, hashB, distance p, place, less, fun j le => used j (by omega)⟩

theorem handleOf_handle (second third : HashEntry) : Handle (handleOf second third) :=
  ⟨⟨by show 3 * 16 ≤ 2 ^ 32 - 1; decide, rfl, rfl⟩, rfl, 0, by decide, rfl⟩

theorem good_twiceSigned : Good twiceSigned firstNames :=
  good_of_distance (handleOf_handle _ _) (fun p => if p = 2 then 1 else 0) (by decide +kernel)

theorem good_onceSigned : Good onceSigned firstNames :=
  good_of_distance (handleOf_handle _ _) (fun _ => 0) (by decide +kernel)

theorem second_signature_stays : Good twiceSigned firstNames ∧
    ∃ u, Updated ⟨twiceSigned, firstNames⟩ u (ascii "a".toList) .remove ∧
      ¬ Owed twiceSigned u.archive firstNames u.names (ascii "a".toList) .remove := by
  refine ⟨good_twiceSigned, ?_⟩
  have asked : succeeded ((updateApply unlisted twiceSigned (ascii "a".toList) .remove >>= fun t =>
      failIf (fileNumber t signatureName ≠ .ok 0) .format) Faults.healthy) = true := by
    decide +kernel
  cases run : updateApply unlisted twiceSigned (ascii "a".toList) .remove Faults.healthy with
  | error e plan =>
    rw [bind_of_error run] at asked
    cases asked
  | ok t plan =>
    rw [bind_of_ok run] at asked
    have still : fileNumber t signatureName = .ok 0 := by
      by_contra other
      rw [failIf_true other] at asked
      cases asked
    have updated : Updated ⟨twiceSigned, firstNames⟩ ⟨t, namesAfter twiceSigned t firstNames .remove⟩
        (ascii "a".toList) .remove := ⟨⟨unlisted, Faults.healthy, plan, run⟩, rfl⟩
    exact ⟨_, updated, fun owed => owed.unsigned ⟨1, by decide +kernel⟩ 0 still⟩

theorem onceSigned_alone : SignatureAlone onceSigned := by
  intro number found
  have first : fileNumber onceSigned signatureName = .ok 1 := by decide +kernel
  rw [first] at found
  cases found
  decide +kernel

theorem updates_keep_onceSigned : ∃ u, Updated ⟨onceSigned, firstNames⟩ u (ascii "a".toList) .remove ∧
    Owed onceSigned u.archive firstNames u.names (ascii "a".toList) .remove := by
  have works : succeeded (updateApply unlisted onceSigned (ascii "a".toList) .remove Faults.healthy) = true := by
    decide +kernel
  cases run : updateApply unlisted onceSigned (ascii "a".toList) .remove Faults.healthy with
  | error e plan =>
    rw [run] at works
    cases works
  | ok t plan =>
    have updated : Updated ⟨onceSigned, firstNames⟩ ⟨t, namesAfter onceSigned t firstNames .remove⟩
        (ascii "a".toList) .remove := ⟨⟨unlisted, Faults.healthy, plan, run⟩, rfl⟩
    exact ⟨_, updated, updates_keep good_onceSigned .start updated onceSigned_alone⟩

end Updating

end LibMpq
