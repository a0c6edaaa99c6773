import LibMpq.ReaderImage

set_option autoImplicit false

namespace LibMpq

open Effect Bits

namespace Reading

section load

variable {codecs : Codecs} {a : ReadArchive} {number : Nat} {m : StoredMember codecs}

structure Unloaded (a : ReadArchive) (number : Nat) (m : StoredMember codecs) : Prop
    extends Placed a number m where
  quiet : a.plan = Faults.healthy
  found : fileNumber a attributesName = .ok number
  some_ : m.content ≠ []
  plain : has m.flags Flag.encrypted = false
  countable : Countable a number
  reportable : Reportable m
  fresh : a.cache number = none
  attributes : a.attributes = none
  attributesError : a.attributesError = none

theorem fileReadWith_own (unloaded : Unloaded a number m) {file : FileCache}
    (knows : Knows m file) (once : file.openCount = 1) :
    ∃ c, Spares number (storeCache number (some file) a) c ∧
      fileReadWith (throw .format) codecs number (Bytes.zeros m.content.length)
        (storeCache number (some file) a) =
          .ok { buffer := m.content, transferred := m.content.length } c := by
  have placed := unloaded.toPlaced.withCache (some file)
  have held : Held (storeCache number (some file) a) number file :=
    ⟨placed.member, if_pos rfl, by rw [once]; decide⟩
  have spare : Spare (storeCache number (some file) a) number := by
    intro other cached
    rw [held.cached, Option.some.injEq] at cached
    rw [← cached, once]
    decide
  have acquired := offsetsAcquire_shared held
  have knows' : Knows m { file with openCount := file.openCount + 1 } :=
    ⟨knows.offsets, knows.sums, knows.count, knows.seed⟩
  obtain ⟨checksums, intact⟩ := placed.intact_of_held unloaded.quiet unloaded.countable unloaded.reportable
    (.inl unloaded.some_) acquired rfl spare (openCount_succ (spare file held.cached)) knows'
  have positive : 0 < (storeCache number (some file) a).blockSize.toNat := by
    rw [placed.sectorSize]
    exact placed.positive
  have size : memberSize (storeCache number (some file) a) number = m.content.length := placed.size_eq
  obtain ⟨filled, bytes, length, run⟩ := readMember_loaded positive unloaded.quiet intact.loaded
    (show memberSize (storeCache number (some file) a) number ≤ (Bytes.zeros m.content.length).length by
      rw [size, Bytes.zeros_length])
  have whole : filled = m.content := by
    have bytes := bytes unloaded.countable
    rw [intact.content, size] at bytes
    rw [← bytes, List.take_of_length_le]
    rw [length, Bytes.zeros_length]
  rw [if_pos ⟨unloaded.countable, intact.agrees⟩, size] at run
  have spares := trans_of (Spares number) ((offsetsAcquire_spares none).ok acquired)
    (offsetsRelease_spares _)
  have same : ∀ b, Spares number (storeCache number (some file) a) b →
      verifyData (throw .format) number (filled.take m.content.length) b = .ok () b := by
    intro b spares
    have right : ¬ (entry b number).unpackedSize.toNat ≠ (filled.take m.content.length).length := by
      rw [spares.own_size, placed.unpackedSize, whole, List.take_length]
      exact not_not.mpr rfl
    have own : isMember b attributesName number = true := by
      rw [spares.toSameArchive.isMember_eq, (storeCache_spares (some file) a).toSameArchive.isMember_eq,
        isMember, unloaded.found]
      exact decide_eq_true rfl
    unfold verifyData
    rw [bind_of_ok (get_run b), bind_of_ok (failIf_false right _ _), if_pos (.inl own), pure_run]
  refine ⟨final (offsetsRelease number (shared number file (storeCache number (some file) a))), spares, ?_⟩
  rw [whole] at run same
  unfold fileReadWith
  rw [bind_of_ok run]
  cases lossyUpTo (shared number file (storeCache number (some file) a)) number
      (countFileBlocks (storeCache number (some file) a) number) with
  | true => rfl
  | false =>
    simp only [Bool.false_eq_true, if_false]
    rw [bind_of_ok (same _ spares), pure_run]

theorem attributesLoad_placed (unloaded : Unloaded a number m)
    {rows : Nat → FileAttributes} {count own : Nat} {flags : UInt32}
    (content : m.content = Attributes.payload rows count own flags)
    (counted : a.header.blockTableCount.toNat = count) (index : entryIndex a number = own)
    (inside : own < count) (known : flags &&& ~~~attributesAll = 0) :
    ∃ view, verdict (attributesLoad codecs a) = .ok view ∧ Attributes.Shows rows count own flags view := by
  have keyed : Keyed a number m (some attributesName) := fun encrypted =>
    absurd encrypted (by rw [unloaded.plain]; decide)
  have knows := knows_cacheOf unloaded.toPlaced unloaded.countable (.inl unloaded.some_)
    unloaded.reportable keyed
  have acquired := offsetsAcquire_placed unloaded.toPlaced unloaded.quiet unloaded.countable
    (.inl unloaded.some_) keyed unloaded.fresh
  obtain ⟨c, spares, read⟩ := fileReadWith_own unloaded knows rfl
  have spares := trans_of (Spares number) (trans_of (Spares number) (storeCache_spares _ a) spares)
    (offsetsRelease_spares c)
  obtain ⟨view, parsed, shows⟩ := @Attributes.parse_payload rows _ _ _ inside known
  have size : (entry a number).unpackedSize.toNat = m.content.length := unloaded.unpackedSize
  have length := Attributes.payload_length rows count own flags
  rw [← content] at parsed length
  have parses : parseAttributes codecs number m.content.length a =
      .ok view (final (offsetsRelease number c)) := by
    unfold parseAttributes
    rw [bind_of_ok acquired, bind_run]
    simp only [holding, read]
    rw [bind_of_ok (failIf_false (not_not.mpr rfl) _ _), bind_of_ok (get_run _), spares.header, counted,
      entryIndex, spares.indices, ← entryIndex, index, parsed]
    rfl
  have bounds : ¬ (m.content.length < 8 ∨ m.content.length > 8 + a.header.blockTableCount.toNat * 32) := by
    have columns : Attributes.columnsSize count flags ≤ count * 28 := by
      unfold Attributes.columnsSize
      split <;> split <;> split <;> omega
    have bits : (if has flags attributePatchBit then (count + 6) / 8 else 0) ≤ count := by
      split <;> omega
    rw [counted]
    omega
  refine ⟨view, ?_, shows⟩
  unfold attributesLoad
  rw [bind_of_ok (get_run a), unloaded.attributes, unloaded.attributesError]
  simp only
  rw [unloaded.found]
  simp only
  rw [size, if_neg bounds, bind_of_ok (onPlan_healthy unloaded.quiet (request_healthy _)),
    bind_of_ok (get_run a), parses]
  rfl

end load

end Reading

end LibMpq
