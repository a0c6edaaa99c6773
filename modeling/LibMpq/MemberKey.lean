import LibMpq.NameHash
import LibMpq.Reader
import LibMpq.Writer
import Mathlib.Data.List.DropRight

set_option autoImplicit false

namespace LibMpq

open Effect Bits

namespace Reading

theorem decryptTable_seed {a b b' : ReadArchive} {size : Nat} {raw : Bytes} {key : UInt32}
    {loaded : LoadedTable} (run : decryptTable a size raw (some key) b = .ok loaded b') :
    loaded.seed = some key := by
  simp only [decryptTable, Option.orElse_some] at run
  obtain ⟨-, run⟩ := failIf_bind_ok.mp run
  obtain ⟨rfl, -⟩ := pure_ok.mp run
  rfl

theorem loadTable_seed {a a' : ReadArchive} {number size count : Nat} {key : UInt32}
    {offsets : Offsets} (run : loadTable number size count (some key) a = .ok offsets a') :
    offsets.seed = some key := by
  unfold loadTable at run
  rw [bind_of_ok (get_run a)] at run
  obtain ⟨-, run⟩ := failIf_bind_ok.mp run
  obtain ⟨_, _, -, run⟩ := bind_ok.mp run
  obtain ⟨raw, _, -, run⟩ := bind_ok.mp run
  obtain ⟨_, _, -, run⟩ := bind_ok.mp run
  rw [bind_of_ok (get_run _)] at run
  obtain ⟨loaded, _, decrypted, run⟩ := bind_ok.mp run
  obtain ⟨-, run⟩ := failIf_bind_ok.mp run
  obtain ⟨-, run⟩ := failIf_bind_ok.mp run
  obtain ⟨rfl, -⟩ := pure_ok.mp run
  split at decrypted
  next => exact decryptTable_seed decrypted
  next =>
    obtain ⟨rfl, -⟩ := pure_ok.mp decrypted
    rfl

-- A supplied key is never replaced by a detected one.
theorem detectSeed_known {a a' : ReadArchive} {number count : Nat} {offsets offsets' : Offsets}
    (known : offsets.seed ≠ none) (run : detectSeed number count offsets a = .ok offsets' a') :
    offsets' = offsets := by
  unfold detectSeed at run
  rw [bind_of_ok (get_run a)] at run
  rw [if_neg fun unknown => known unknown.2.1] at run
  exact (pure_ok.mp run).1

theorem loadOffsets_seed {a a' : ReadArchive} {number : Nat} {name : Bytes} {file : FileCache}
    (run : loadOffsets number (some name) a = .ok file a') :
    file.seed = some (fileSeed (entry a number) name) := by
  unfold loadOffsets at run
  rw [bind_of_ok (get_run a)] at run
  obtain ⟨-, run⟩ := failIf_bind_ok.mp run
  obtain ⟨_, _, -, run⟩ := bind_ok.mp run
  obtain ⟨_, _, -, run⟩ := bind_ok.mp run
  obtain ⟨offsets, _, loaded, run⟩ := bind_ok.mp run
  have seed : offsets.seed = some (fileSeed (entry a number) name) := by
    split at loaded
    next => exact loadTable_seed loaded
    next =>
      obtain ⟨rfl, -⟩ := pure_ok.mp loaded
      rfl
  obtain ⟨detected, _, detect, run⟩ := bind_ok.mp run
  obtain ⟨rfl, -⟩ := pure_ok.mp run
  rw [detectSeed_known (by simp [seed]) detect]
  exact seed

theorem offsetsAcquire_seed {a a' : ReadArchive} {number : Nat} {name : Bytes}
    (unknown : ∀ file, a.cache number = some file → file.seed = none)
    (run : offsetsAcquire number (some name) a = .ok () a') :
    (a'.cache number).bind (·.seed) = some (fileSeed (entry a number) name) := by
  unfold offsetsAcquire at run
  rw [bind_of_ok (get_run a)] at run
  obtain ⟨-, run⟩ := failIf_bind_ok.mp run
  cases cached : a.cache number with
  | none =>
    rw [cached] at run
    obtain ⟨file, _, loaded, run⟩ := bind_ok.mp run
    cases run
    simp [storeCache, loadOffsets_seed loaded]
  | some file =>
    rw [cached] at run
    cases run
    simp [storeCache, shareCache, unknown file cached]

end Reading

def separator (c : UInt8) : Bool := c = 0x2F ∨ c = 0x5C

def baseName (name : Bytes) : Bytes := name.rtakeWhile fun c => !separator c

-- The format guide: hash the basename, not its directory, with the file-key hash.
def documentedKey (name : Bytes) : UInt32 := Crypto.stormHash (baseName name) 0x300

-- If the adjusted-key flag is set, the key depends on the member's place and size as well.
def adjustedKey (e : BlockEntry) (key : UInt32) : UInt32 :=
  if has e.flags Flag.fixKey then (key + e.offset) ^^^ e.unpackedSize else key

/-- Writer and reader use one key for a name, the documented one. -/
structure OneKey (name : Bytes) : Prop where
  writer : ∀ plan : Faults, plan 0 = none →
    Writing.keyOf name plan = .ok (documentedKey name) plan.rest
  fresh : ∀ (a a' : ReadArchive) (number : Nat), a.cache number = none →
    Reading.offsetsAcquire number (some name) a = .ok () a' →
    (a'.cache number).bind (·.seed) = some (adjustedKey (Reading.entry a number) (documentedKey name))
  cached : ∀ (a a' : ReadArchive) (number : Nat) (file : FileCache), a.cache number = some file →
    file.seed = none → Reading.offsetsAcquire number (some name) a = .ok () a' →
    (a'.cache number).bind (·.seed) = some (adjustedKey (Reading.entry a number) (documentedKey name))

theorem normalize_of_plain {name : Bytes} (plain : ∀ c ∈ name, separator c = false) :
    Writing.normalize name = name := by
  refine (List.map_congr_left fun c mem => ?_).trans (List.map_id name)
  have other := plain c mem
  simp only [separator, decide_eq_false_iff_not, not_or] at other
  exact if_neg other.1

theorem baseName_of_plain {name : Bytes} (plain : ∀ c ∈ name, separator c = false) :
    baseName name = name := by
  refine List.rtakeWhile_eq_self_iff.mpr fun c mem => ?_
  rw [plain c mem]
  rfl

-- An open handle whose only member has offsets but no key.
def anonymousOpen : ReadArchive where
  source := File.empty
  plan := Faults.healthy
  archiveOffset := 0
  blockSize := 512
  header := default
  headerEx := default
  hash _ := default
  block _ := { offset := 32, packedSize := 8, unpackedSize := 8, flags := Flag.exists_ ||| Flag.encrypted }
  blockEx _ := 0
  blockTableIndices := id
  blockTableDiff _ := 0
  files := 1
  cache _ := some { packedOffset := fun _ => 0, packedOffsetCount := 2, openCount := 1, seed := none }
  attributes := none
  attributesError := none

-- A name without separators that the code hashes as Storm does.
theorem oneKey_of_plain {name : Bytes} (plain : ∀ c ∈ name, separator c = false ∧ c ≠ 0xFF) :
    Writing.fileKey name = documentedKey name ∧ Crypto.hashString name 0x300 = documentedKey name := by
  have bare : ∀ c ∈ name, separator c = false := fun c mem => (plain c mem).1
  have storm := (Crypto.hashes_plain (fun c mem => (plain c mem).2) (by decide : 0x300 ∈ Crypto.pages)).2
  rw [documentedKey, baseName_of_plain bare, Writing.fileKey, normalize_of_plain bare]
  exact ⟨storm, storm⟩

-- The three paths use the documented key exactly when the file-key hashes of the whole name
-- and of its normalized copy are the Storm hash of the basename: for a name with a separator
-- or a byte 0xFF that takes a collision, for every other name nothing.
theorem member_key (name : Bytes) :
    ((∀ c ∈ name, separator c = false ∧ c ≠ 0xFF) → OneKey name) ∧
      (OneKey name ↔ Writing.fileKey name = documentedKey name ∧
        Crypto.hashString name 0x300 = documentedKey name) := by
  have enough : Writing.fileKey name = documentedKey name ∧ Crypto.hashString name 0x300 = documentedKey name →
      OneKey name := by
    rintro ⟨written, read⟩
    refine ⟨fun plan granted => ?_, fun a a' number fresh run => ?_,
      fun a a' number file cached unknown run => ?_⟩
    · rw [Writing.keyOf, if_pos granted, written]
    · rw [Reading.offsetsAcquire_seed (by simp [fresh]) run, ← read]
      rfl
    · rw [Reading.offsetsAcquire_seed (by simp [cached, unknown]) run, ← read]
      rfl
  refine ⟨fun plain => enough (oneKey_of_plain plain), fun one => ?_, enough⟩
  have written := one.writer Faults.healthy rfl
  have read := one.cached anonymousOpen _ 0 _ rfl rfl rfl
  simp only [Writing.keyOf, Faults.healthy_next, if_true, EStateM.Result.ok.injEq] at written
  exact ⟨written.1, Option.some.inj read⟩

-- Here even the writer and the reader disagree.
theorem member_key_differs :
    ¬ OneKey (ascii "a/b".toList) ∧
      Writing.fileKey (ascii "a/b".toList) ≠ Crypto.hashString (ascii "a/b".toList) 0x300 := by
  have keys : Writing.fileKey (ascii "a/b".toList) ≠ documentedKey (ascii "a/b".toList) := by
    decide +kernel
  refine ⟨fun one => keys ?_, by decide +kernel⟩
  have written := one.writer Faults.healthy rfl
  simp only [Writing.keyOf, Faults.healthy_next, if_true, EStateM.Result.ok.injEq] at written
  exact written.1

end LibMpq
