import LibMpq.Crypto

set_option autoImplicit false

namespace LibMpq

namespace Crypto

-- `toupper` of the C locale on an unsigned character.
def upper (c : UInt8) : UInt32 := if 0x61 ≤ c ∧ c ≤ 0x7A then c.toUInt32 - 0x20 else c.toUInt32

def stormStep (offset : UInt32) (s : HashState) (c : UInt8) : HashState :=
  let ch := upper c
  let seed1 := cryptBuf (offset + ch).toNat ^^^ (s.seed1 + s.seed2)
  ⟨seed1, ch + seed1 + s.seed2 + (s.seed2 <<< (5 : UInt32)) + 3⟩

def stormHash (key : Bytes) (offset : UInt32) : UInt32 :=
  (key.foldl (stormStep offset) { seed1 := 0x7FED7FED, seed2 := 0xEEEEEEEE }).seed1

def readCrypt (index : UInt32) : Option UInt32 :=
  if index.toNat < 0x500 then some (cryptBuf index.toNat) else none

-- `libmpq__crypto_hash_string`, giving up at the first read that is outside the table.
def watchedStep (offset : UInt32) (s : HashState) (c : UInt8) : Option HashState := do
  let ch := toupper c
  let word ← readCrypt (offset + ch)
  let seed1 := word ^^^ (s.seed1 + s.seed2)
  pure ⟨seed1, ch + seed1 + s.seed2 + (s.seed2 <<< (5 : UInt32)) + 3⟩

def watchedHash (key : Bytes) (offset : UInt32) : Option UInt32 := do
  let s ← key.foldlM (watchedStep offset) { seed1 := 0x7FED7FED, seed2 := 0xEEEEEEEE }
  pure s.seed1

theorem watchedStep_some {offset : UInt32} {s t : HashState} {c : UInt8}
    (step : watchedStep offset s c = some t) : hashStep offset s c = t := by
  rw [watchedStep, readCrypt] at step
  split at step
  next => exact Option.some.inj step
  next => cases step

theorem watchedFold_some {offset : UInt32} {key : Bytes} {s t : HashState}
    (run : key.foldlM (watchedStep offset) s = some t) : key.foldl (hashStep offset) s = t := by
  induction key generalizing s with
  | nil => exact Option.some.inj run
  | cons c rest ih =>
    rw [List.foldlM_cons] at run
    obtain ⟨next, step, run⟩ := Option.bind_eq_some_iff.mp run
    rw [List.foldl_cons, watchedStep_some step]
    exact ih run

theorem watchedHash_some {key : Bytes} {offset hash : UInt32} (run : watchedHash key offset = some hash) :
    hashString key offset = hash := by
  obtain ⟨s, fold, last⟩ := Option.bind_eq_some_iff.mp run
  rw [hashString, watchedFold_some fold]
  exact Option.some.inj last

-- The table pages that the library hashes with.
def pages : List UInt32 := [0, 0x100, 0x200, 0x300]

/-- A name without the one byte that the code does not hash as Storm does. -/
def Hashable (key : Bytes) : Prop := ∀ c ∈ key, c ≠ 0xFF

instance (key : Bytes) : Decidable (Hashable key) := inferInstanceAs (Decidable (∀ c ∈ key, c ≠ 0xFF))

theorem toupper_upper {c : UInt8} (plain : c ≠ 0xFF) : toupper c = upper c := by
  simp only [toupper, upper, if_neg plain]

theorem upper_lt (c : UInt8) : (upper c).toNat < 0x100 := by
  have each : ∀ n : Fin 256, (upper (UInt8.ofNat n.1)).toNat < 0x100 := by decide +kernel
  have here := each ⟨c.toNat, c.toNat_lt⟩
  rwa [UInt8.ofNat_toNat] at here

theorem page_inside {offset : UInt32} (page : offset ∈ pages) (c : UInt8) :
    (offset + upper c).toNat < 0x500 := by
  have small : offset.toNat ≤ 0x300 := by
    simp only [pages, List.mem_cons, List.not_mem_nil, or_false] at page
    rcases page with rfl | rfl | rfl | rfl <;> decide
  have byte := upper_lt c
  rw [UInt32.toNat_add]
  omega

theorem watchedStep_plain {offset : UInt32} (page : offset ∈ pages) (s : HashState) {c : UInt8}
    (plain : c ≠ 0xFF) : watchedStep offset s c = some (stormStep offset s c) := by
  rw [watchedStep, readCrypt, toupper_upper plain, if_pos (page_inside page c)]
  rfl

theorem watchedFold_plain {offset : UInt32} (page : offset ∈ pages) {key : Bytes}
    (plain : Hashable key) (s : HashState) :
    key.foldlM (watchedStep offset) s = some (key.foldl (stormStep offset) s) := by
  induction key generalizing s with
  | nil => rfl
  | cons c rest ih =>
    rw [List.foldlM_cons, watchedStep_plain page s (plain c (by simp))]
    exact ih (fun d mem => plain d (by simp [mem])) _

-- `EOF` under the first page is an index near 2^32.
theorem watchedStep_eof (s : HashState) : watchedStep 0 s 0xFF = none := by
  rw [watchedStep, readCrypt, if_neg (by decide)]
  rfl

theorem watchedFold_eof {key : Bytes} (mem : 0xFF ∈ key) (s : HashState) :
    key.foldlM (watchedStep 0) s = none := by
  induction key generalizing s with
  | nil => cases mem
  | cons d rest ih =>
    rw [List.foldlM_cons]
    rcases List.mem_cons.mp mem with rfl | later
    · rw [watchedStep_eof s]
      rfl
    · cases step : watchedStep 0 s d with
      | none => rfl
      | some t => exact ih later t

/-- A name has the Storm hash under this page, and its hash reads inside the table. -/
def HashesAsStorm (key : Bytes) (offset : UInt32) : Prop :=
  watchedHash key offset = some (stormHash key offset) ∧ hashString key offset = stormHash key offset

instance (key : Bytes) (offset : UInt32) : Decidable (HashesAsStorm key offset) :=
  inferInstanceAs (Decidable (_ ∧ _))

theorem hashes_plain {key : Bytes} (plain : Hashable key) {offset : UInt32} (page : offset ∈ pages) :
    HashesAsStorm key offset := by
  have run : watchedHash key offset = some (stormHash key offset) := by
    rw [watchedHash, watchedFold_plain page plain]
    rfl
  exact ⟨run, watchedHash_some run⟩

theorem hash_string_storm_iff (key : Name) :
    (∀ offset ∈ pages, HashesAsStorm key.1 offset) ↔ Hashable key.1 := by
  constructor
  · intro storm c mem last
    subst last
    have run := (storm 0 (by decide)).1
    rw [watchedHash, watchedFold_eof mem] at run
    cases run
  · intro plain offset page
    exact hashes_plain plain page

-- One byte 0xFF: an index near 2^32 under the first page, the page before under the second.
def lastByte : Name := ⟨[0xFF], by decide⟩

theorem last_byte_unlike_storm :
    ¬ (∀ key : Name, ∀ offset ∈ pages, HashesAsStorm key.1 offset) ∧
      watchedHash lastByte.1 0 = none ∧
      (∃ hash, watchedHash lastByte.1 0x100 = some hash ∧ hash ≠ stormHash lastByte.1 0x100) := by
  have outside : watchedHash lastByte.1 0 = none := by decide +kernel
  refine ⟨fun storm => ?_, outside, hashString lastByte.1 0x100, by decide +kernel, by decide +kernel⟩
  have run := (storm lastByte 0 (by decide)).1
  rw [outside] at run
  cases run

end Crypto

end LibMpq
