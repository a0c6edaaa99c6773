import LibMpq.Base.Checked
import LibMpq.DigestStandards
import LibMpq.ReaderHealthy
import LibMpq.Signature

set_option autoImplicit false

namespace LibMpq

open Effect

namespace Reading

-- The part of a chunk at `pos` that is cleared: the larger start and the smaller end.
def clearedChunk (excluded pos : UInt64) (chunk : Bytes) : Bytes :=
  let count := UInt64.ofNat chunk.length
  let begin_ := if pos > excluded then pos else excluded
  let end_ := if pos + count < excluded + 72 then pos + count else excluded + 72
  if begin_ < end_ then
    splice chunk (begin_ - pos).toNat (Bytes.zeros (end_ - begin_).toNat)
  else chunk

-- `digest_archive` in the 64-bit arithmetic of the source
def digestArchive (source : File) (start size excluded : UInt64) : Op Error Faults Digest := do
  failIf (start > 0xFFFFFFFFFFFFFFFF - size ∨ excluded > size ∨ size - excluded < 72) .format
  let context ← hashSource source start.toNat size.toNat
    (fun pos chunk (context : Md5) => context.update (clearedChunk excluded (UInt64.ofNat pos) chunk))
    (size.toNat + 1) 0 Md5.init
  pure context.finish

/-- A range with the payload of a signature cleared. -/
def cleared (excluded : Nat) (range : Bytes) : Bytes := splice range excluded (Bytes.zeros 72)

theorem splice_getElem? {chunk : Bytes} {offset count : Nat} (inside : offset + count ≤ chunk.length)
    (i : Nat) :
    (splice chunk offset (Bytes.zeros count))[i]? =
      if offset ≤ i ∧ i < offset + count then some 0 else chunk[i]? := by
  have front : (chunk.take offset).length = offset := by
    rw [List.length_take]
    omega
  rw [splice, List.append_assoc, List.getElem?_append, front]
  by_cases before : i < offset
  · rw [if_pos before, if_neg (by omega), List.getElem?_take_of_lt before]
  · rw [if_neg before, List.getElem?_append, Bytes.zeros_length]
    by_cases payload : i - offset < count
    · rw [if_pos payload, if_pos (by omega), Bytes.zeros, List.getElem?_replicate, if_pos payload]
    · rw [if_neg payload, if_neg (by omega), List.getElem?_drop]
      congr 1
      omega

theorem cleared_length {range : Bytes} {excluded : Nat} (payload : excluded + 72 ≤ range.length) :
    (cleared excluded range).length = range.length :=
  splice_length (by rwa [Bytes.zeros_length])

theorem cleared_getElem? {range : Bytes} {excluded : Nat} (payload : excluded + 72 ≤ range.length) (i : Nat) :
    (cleared excluded range)[i]? = if excluded ≤ i ∧ i < excluded + 72 then some 0 else range[i]? :=
  splice_getElem? payload i

-- No sum of the chunk's and the payload's places wraps, so the intersection is that of the naturals.
theorem clearedChunk_getElem? {excluded : UInt64} {pos : Nat} {chunk : Bytes}
    (payload : excluded.toNat + 72 < 2 ^ 64) (within : pos + chunk.length < 2 ^ 64) (i : Nat) :
    (clearedChunk excluded (UInt64.ofNat pos) chunk)[i]? =
      if i < chunk.length ∧ excluded.toNat ≤ pos + i ∧ pos + i < excluded.toNat + 72 then some 0
      else chunk[i]? := by
  have place : (UInt64.ofNat pos).toNat = pos := UInt64.toNat_ofNat_of_lt' (by simp only [UInt64.size]; omega)
  have stop : (UInt64.ofNat pos + UInt64.ofNat chunk.length).toNat = pos + chunk.length := by
    rw [← UInt64.ofNat_add]
    exact UInt64.toNat_ofNat_of_lt' (by simp only [UInt64.size]; omega)
  have limit : (excluded + 72).toNat = excluded.toNat + 72 := by
    simp only [UInt64.toNat_add, UInt64.reduceToNat]
    omega
  have start : (if UInt64.ofNat pos > excluded then UInt64.ofNat pos else excluded).toNat =
      max pos excluded.toNat := by
    simp only [gt_iff_lt, UInt64.lt_iff_toNat_lt, place]
    split <;> omega
  have finish : (if UInt64.ofNat pos + UInt64.ofNat chunk.length < excluded + 72 then
      UInt64.ofNat pos + UInt64.ofNat chunk.length else excluded + 72).toNat =
        min (pos + chunk.length) (excluded.toNat + 72) := by
    simp only [UInt64.lt_iff_toNat_lt, stop, limit]
    split <;> omega
  rw [clearedChunk]
  generalize (if UInt64.ofNat pos > excluded then UInt64.ofNat pos else excluded) = first at start ⊢
  generalize (if UInt64.ofNat pos + UInt64.ofNat chunk.length < excluded + 72 then
    UInt64.ofNat pos + UInt64.ofNat chunk.length else excluded + 72) = last at finish ⊢
  by_cases common : first < last
  · have ordered := UInt64.lt_iff_toNat_lt.mp common
    have skip : (first - UInt64.ofNat pos).toNat = first.toNat - pos := by
      rw [UInt64.toNat_sub_of_le _ _ (UInt64.le_iff_toNat_le.mpr (by omega)), place]
    have width : (last - first).toNat = last.toNat - first.toNat :=
      UInt64.toNat_sub_of_le _ _ (UInt64.le_iff_toNat_le.mpr ordered.le)
    rw [if_pos common, skip, width, splice_getElem? (by omega)]
    split_ifs <;> first | rfl | omega
  · have apart : ¬ first.toNat < last.toNat := fun less => common (UInt64.lt_iff_toNat_lt.mpr less)
    rw [if_neg common, if_neg (by omega)]

theorem clearedChunk_eq {range : Bytes} {excluded : UInt64} (payload : excluded.toNat + 72 ≤ range.length)
    (bounded : range.length < 2 ^ 64) {pos count : Nat} (within : pos + count ≤ range.length) :
    clearedChunk excluded (UInt64.ofNat pos) ((range.drop pos).take count) =
      ((cleared excluded.toNat range).drop pos).take count := by
  have length : ((range.drop pos).take count).length = count := by
    simp only [List.length_take, List.length_drop]
    omega
  apply List.ext_getElem?
  intro i
  rw [clearedChunk_getElem? (by omega) (by rw [length]; omega), length, List.getElem?_take,
    List.getElem?_take, List.getElem?_drop, List.getElem?_drop, cleared_getElem? payload]
  split_ifs <;> first | rfl | omega

theorem clearedChunk_blank {excluded : UInt64} {pos : Nat} {chunk : Bytes}
    (payload : excluded.toNat + 72 < 2 ^ 64) (within : pos + chunk.length < 2 ^ 64) :
    clearedChunk excluded (UInt64.ofNat pos) chunk = Writing.blank excluded.toNat pos chunk := by
  apply List.ext_getElem?
  intro i
  rw [clearedChunk_getElem? payload within, Writing.blank, List.getElem?_mapIdx]
  by_cases inside : i < chunk.length
  · rw [List.getElem?_eq_getElem inside, Option.map_some, Writing.signatureSize]
    split_ifs <;> first | rfl | omega
  · rw [if_neg (by omega), List.getElem?_eq_none (by omega), Option.map_none]

section range

variable {source : File} {start size excluded : UInt64}

theorem hashSource_cleared (inside : start.toNat + size.toNat ≤ source.size)
    (payload : excluded.toNat + 72 ≤ size.toNat) {fuel pos : Nat} {context context' : Md5}
    {plan plan' : Faults} (enough : size.toNat < pos + fuel) (within : pos ≤ size.toNat)
    (holds : context.Holds ((cleared excluded.toNat (source.read start.toNat size.toNat)).take pos))
    (run : hashSource source start.toNat size.toNat
      (fun pos chunk (context : Md5) => context.update (clearedChunk excluded (UInt64.ofNat pos) chunk))
      fuel pos context plan = .ok context' plan') :
    context'.Holds (cleared excluded.toNat (source.read start.toNat size.toNat)) := by
  have length : (source.read start.toNat size.toNat).length = size.toNat := by
    rw [File.read_length]
    omega
  have whole := cleared_length (by rwa [length])
  rw [length] at whole
  induction fuel generalizing pos context plan with
  | zero => omega
  | succ fuel ih =>
    rw [hashSource] at run
    split at run
    next more =>
      obtain ⟨chunk, _, read, run⟩ := bind_ok.mp run
      have fits : pos + min Writing.digestChunk (size.toNat - pos) ≤ size.toNat := by omega
      have some : 0 < min Writing.digestChunk (size.toNat - pos) := by
        simp only [Writing.digestChunk]
        omega
      rw [sourceReadAt_ok read, ← source.read_slice inside fits,
        clearedChunk_eq (by rwa [length]) (by rw [length]; exact size.toNat_lt) (by rwa [length])] at run
      refine ih (by omega) fits ?_ run
      have next := Md5.update_holds holds
        (((cleared excluded.toNat (source.read start.toNat size.toNat)).drop pos).take
          (min Writing.digestChunk (size.toNat - pos)))
      rwa [← List.take_add] at next
    next done =>
      cases run
      rwa [List.take_of_length_le (by omega)] at holds

theorem hashSource_healthy {κ : Type} {absorb : Nat → Bytes → κ → κ}
    (inside : start.toNat + size.toNat ≤ source.size) (fuel pos : Nat) (context : κ) :
    ∃ context', hashSource source start.toNat size.toNat absorb fuel pos context Faults.healthy =
      .ok context' Faults.healthy := by
  induction fuel generalizing pos context with
  | zero => exact ⟨context, rfl⟩
  | succ fuel ih =>
    rw [hashSource]
    split
    next more =>
      rw [bind_of_ok (sourceReadAt_healthy (by omega))]
      exact ih _ _
    next => exact ⟨context, rfl⟩

theorem hashSource_congr {κ : Type} {source : File} {start size : Nat} {f g : Nat → Bytes → κ → κ}
    (same : ∀ pos chunk context, pos + chunk.length ≤ size → f pos chunk context = g pos chunk context)
    (fuel pos : Nat) (context : κ) :
    hashSource source start size f fuel pos context = hashSource source start size g fuel pos context := by
  induction fuel generalizing pos context with
  | zero => rfl
  | succ fuel ih =>
    rw [hashSource, hashSource]
    split
    next more =>
      funext plan
      simp only [bind_run]
      cases read : sourceReadAt source (start + pos) (min Writing.digestChunk (size - pos)) plan with
      | error e rest => rfl
      | ok chunk rest =>
        have fits : chunk.length ≤ min Writing.digestChunk (size - pos) := by
          rw [sourceReadAt_ok read, File.read_length]
          exact Nat.min_le_left _ _
        simp only [same pos chunk context (by omega), ih]
    next => rfl

theorem digestArchive_eq (source : File) (start size excluded : UInt64) :
    digestArchive source start size excluded =
      digestSource source start.toNat size.toNat excluded.toNat := by
  have top : (0xFFFFFFFFFFFFFFFF - size).toNat = uint64Max - size.toNat :=
    UInt64.toNat_sub_of_le _ _ (UInt64.le_iff_toNat_le.mpr (by
      have := size.toNat_lt
      simp only [UInt64.reduceToNat]
      omega))
  have guard : (start > 0xFFFFFFFFFFFFFFFF - size ∨ excluded > size ∨ size - excluded < 72) ↔
      start.toNat > uint64Max - size.toNat ∨ excluded.toNat > size.toNat ∨
        size.toNat - excluded.toNat < Writing.signatureSize := by
    by_cases past : excluded > size
    · simp [past, UInt64.lt_iff_toNat_lt.mp past]
    · have left : (size - excluded).toNat = size.toNat - excluded.toNat :=
        UInt64.toNat_sub_of_le _ _ (UInt64.not_lt.mp past)
      simp only [gt_iff_lt, UInt64.lt_iff_toNat_lt, top, left]
      rfl
  funext plan
  by_cases refused : start > 0xFFFFFFFFFFFFFFFF - size ∨ excluded > size ∨ size - excluded < 72
  · rw [digestArchive, digestSource, bind_of_error (failIf_true refused _ _),
      bind_of_error (failIf_true (guard.mp refused) _ _)]
  · have ranged := mt guard.mpr refused
    have bounded := size.toNat_lt
    rw [digestArchive, digestSource, bind_of_ok (failIf_false refused _ _),
      bind_of_ok (failIf_false ranged _ _), hashSource_congr (g := fun pos chunk (context : Md5) =>
        context.update (Writing.blank excluded.toNat pos chunk))]
    intro pos chunk context within
    rw [clearedChunk_blank (by simp only [Writing.signatureSize] at ranged; omega) (by omega)]

theorem digestArchive_cleared (source : File) (start size excluded : UInt64)
    (inside : start.toNat + size.toNat ≤ source.size) (bounded : source.size < 2 ^ 64)
    (payload : excluded.toNat + 72 ≤ size.toNat) :
    (∀ plan plan' digest, digestArchive source start size excluded plan = .ok digest plan' →
      digest.1 = Rfc1321.digest (cleared excluded.toNat (source.read start.toNat size.toNat))) ∧
      ∃ digest, digestArchive source start size excluded Faults.healthy = .ok digest Faults.healthy := by
  constructor
  · intro plan plan' digest run
    obtain ⟨-, run⟩ := failIf_bind_ok.mp run
    obtain ⟨context, _, hashed, run⟩ := bind_ok.mp run
    cases run
    exact Md5.finish_holds (hashSource_cleared inside payload (by omega) (Nat.zero_le _) Md5.init_holds hashed)
  · have top : (0xFFFFFFFFFFFFFFFF - size).toNat = 2 ^ 64 - 1 - size.toNat :=
      UInt64.toNat_sub_of_le _ _ (UInt64.le_iff_toNat_le.mpr (by
        have := size.toNat_lt
        simp only [UInt64.reduceToNat]
        omega))
    have ranged : ¬ (start > 0xFFFFFFFFFFFFFFFF - size ∨ excluded > size ∨ size - excluded < 72) := by
      have left : (size - excluded).toNat = size.toNat - excluded.toNat :=
        UInt64.toNat_sub_of_le _ _ (UInt64.le_iff_toNat_le.mpr (by omega))
      simp only [gt_iff_lt, UInt64.lt_iff_toNat_lt, top, left, UInt64.reduceToNat]
      omega
    obtain ⟨context, hashed⟩ := hashSource_healthy inside (size.toNat + 1) 0 Md5.init
    refine ⟨context.finish, ?_⟩
    rw [digestArchive, bind_of_ok (failIf_false ranged _ _), bind_of_ok hashed]
    rfl

end range

theorem digestArchive_cleared_eighty :
    ∃ digest, digestArchive (File.ofBytes (List.replicate 80 7)) 4 74 1 Faults.healthy = .ok digest Faults.healthy ∧
      digest.1 = Rfc1321.digest (cleared 1 ((File.ofBytes (List.replicate 80 7)).read 4 74)) := by
  obtain ⟨exact, answers⟩ :=
    digestArchive_cleared (File.ofBytes (List.replicate 80 7)) 4 74 1 (by decide) (by decide) (by decide)
  obtain ⟨digest, run⟩ := answers
  exact ⟨digest, run, exact _ _ digest run⟩

end Reading

end LibMpq
