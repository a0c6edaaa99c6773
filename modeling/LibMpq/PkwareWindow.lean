import LibMpq.PkwareSymbols

set_option autoImplicit false

-- What the window holds is the end of the expansion so far, with zeros before its start, and
-- what was delivered are the halves that left it.

namespace LibMpq

open Effect Bitstream

namespace Pkware

theorem back_last (e : Bytes) (b : UInt8) : back (e ++ [b]) 1 = b := by
  rw [back, List.length_append, List.length_singleton, if_pos (by omega), List.getD_eq_getElem?_getD,
    Nat.add_sub_cancel, List.getElem?_concat_length, Option.getD_some]

theorem back_append (e : Bytes) (b : UInt8) {i : Nat} (positive : 1 ≤ i) : back (e ++ [b]) (i + 1) = back e i := by
  unfold back
  rw [List.length_append, List.length_singleton]
  by_cases inside : i ≤ e.length
  · rw [if_pos inside, if_pos (by omega), List.getD_eq_getElem?_getD, List.getD_eq_getElem?_getD,
      Nat.add_sub_add_right, List.getElem?_append_left (by omega)]
  · rw [if_neg inside, if_neg (by omega)]

def Ends (work : Nat → UInt8) (position : Nat) (e : Bytes) : Prop :=
  ∀ i, 1 ≤ i → i ≤ position → work (position - i) = back e i

theorem Ends.push {work : Nat → UInt8} {position : Nat} {e : Bytes} (ends : Ends work position e) (b : UInt8) :
    Ends (Function.update work position b) (position + 1) (e ++ [b]) := by
  intro i positive le
  obtain ⟨i, rfl⟩ : ∃ k, i = k + 1 := ⟨i - 1, by omega⟩
  rw [Nat.add_sub_add_right]
  by_cases last : i = 0
  · rw [last, Nat.sub_zero, Function.update_self, back_last]
  · rw [Function.update_of_ne (by omega), back_append e b (by omega)]
    exact ends i (by omega) (by omega)

theorem Ends.copy {distance : Nat} (positive : 1 ≤ distance) (count : Nat) {work : Nat → UInt8} {position : Nat}
    {e : Bytes} (ends : Ends work position e) (le : distance ≤ position) :
    Ends (copyBytes count position (position - distance) work) (position + count) (repeatBack count distance e) := by
  induction count generalizing work position e with
  | zero => exact ends
  | succ count ih =>
    have source : position - distance + 1 = position + 1 - distance := by omega
    have target : position + (count + 1) = position + 1 + count := by omega
    rw [copyBytes, repeatBack, ends distance positive le, source, target]
    exact ih (ends.push _) (by omega)

theorem copyBytes_other {j : Nat} (count : Nat) {target source : Nat} (work : Nat → UInt8)
    (outside : j < target ∨ target + count ≤ j) : copyBytes count target source work j = work j := by
  induction count generalizing target source work with
  | zero => rfl
  | succ count ih =>
    rw [copyBytes, ih _ (by omega), Function.update_of_ne (by omega)]

structure Holds (e : Bytes) (s : Cmp) : Prop where
  upper : windowHalf ≤ s.outPos
  position : ∃ halves, e.length = halves * windowHalf + (s.outPos - windowHalf) ∧
    s.out = (e.take (halves * windowHalf)).take s.maxOut
  ends : Ends s.work s.outPos e

structure Windowed (e : Bytes) (s : Cmp) : Prop extends Holds e s where
  room : s.outPos < windowSize

theorem Windowed.outPos {e : Bytes} {s : Cmp} (windowed : Windowed e s) :
    s.outPos = windowHalf + e.length % windowHalf := by
  obtain ⟨halves, length, -⟩ := windowed.position
  have low := windowed.upper
  have high := windowed.room
  simp only [windowHalf, windowSize] at *
  omega

theorem Windowed.passes {e : Bytes} {s t : Cmp} (windowed : Windowed e s) (passes : Passes s t) : Windowed e t := by
  have room : t.outPos < windowSize := passes.outPos.trans_lt windowed.room
  refine ⟨⟨passes.outPos ▸ windowed.upper, ?_, fun i positive le => ?_⟩, room⟩
  · rw [passes.outPos, passes.out, passes.maxOut]
    exact windowed.position
  · have below : t.outPos - i < stagingStart := by
      simp only [windowSize, stagingStart] at *
      omega
    rw [passes.work _ below, passes.outPos]
    exact windowed.ends i positive (passes.outPos ▸ le)

theorem deliver_take {e : Bytes} {start count maxOut : Nat} (inside : start ≤ e.length) :
    (e.take start).take maxOut ++ ((e.drop start).take count).take (maxOut - ((e.take start).take maxOut).length) =
      (e.take (start + count)).take maxOut := by
  rw [List.take_add, List.take_append, List.length_take, List.length_take_of_le inside]
  congr 2
  omega

theorem Holds.upper_half {e : Bytes} {s : Cmp} (holds : Holds e s) {start count : Nat}
    (length : e.length = start + (s.outPos - windowHalf)) (le : count ≤ s.outPos - windowHalf) :
    (List.range count).map (fun i => s.work (windowHalf + i)) = (e.drop start).take count := by
  have upper := holds.upper
  refine List.ext_getElem (by simp; omega) fun i inside _ => ?_
  have below : i < count := by simpa using inside
  have place : windowHalf + i = s.outPos - (s.outPos - windowHalf - i) := by omega
  have index : e.length - (s.outPos - windowHalf - i) = start + i := by omega
  rw [List.getElem_map, List.getElem_range, place, holds.ends _ (by omega) (by omega), List.getElem_take,
    List.getElem_drop, back, if_pos (by omega), index, List.getD_eq_getElem?_getD,
    List.getElem?_eq_getElem (by omega), Option.getD_some]

theorem Holds.deliver {e : Bytes} {s : Cmp} (holds : Holds e s) {start count : Nat}
    (length : e.length = start + (s.outPos - windowHalf)) (out : s.out = (e.take start).take s.maxOut)
    (le : count ≤ s.outPos - windowHalf) :
    (dataWriteOutput count s).out = (e.take (start + count)).take s.maxOut := by
  have inside : start ≤ e.length := by omega
  rw [← deliver_take inside, ← out, ← holds.upper_half length le]
  rfl

theorem Holds.delivered {e : Bytes} {s : Cmp} (holds : Holds e s) :
    (dataWriteOutput (s.outPos - windowHalf) s).out = e.take s.maxOut := by
  obtain ⟨halves, length, out⟩ := holds.position
  rw [holds.deliver length out (Nat.le_refl _), ← length, List.take_length]

def Token.Fits (e : Bytes) : Token → Prop
  | literal _ => True
  | copy length _ => ¬ (length = 518 ∧ e.length % windowHalf = windowHalf - 1)

def Fits : Bytes → List Token → Prop
  | _, [] => True
  | e, token :: rest => token.Fits e ∧ Fits (token.expand e) rest

theorem reading_of_work {s t : Cmp} (reading : Reading s) (bitBuf : t.bitBuf = s.bitBuf)
    (extra : t.extraBits = s.extraBits) (inPos : t.inPos = s.inPos) (inBytes : t.inBytes = s.inBytes)
    (source : t.source = s.source) (sourcePos : t.sourcePos = s.sourcePos)
    (work : ∀ j, stagingStart < j → t.work j = s.work j) : Reading t ∧ t.bits = s.bits := by
  refine ⟨⟨extra ▸ reading.extra, ?_, inPos ▸ reading.started, inPos ▸ inBytes ▸ reading.inside,
    inBytes ▸ reading.staging⟩, ?_⟩
  · rw [bitBuf, extra]
    exact reading.small
  · have pending : t.pending = s.pending := by
      rw [Cmp.pending, Cmp.pending, inPos, inBytes, source, sourcePos]
      congr 1
      refine List.map_congr_left fun i mem => work _ ?_
      have started := reading.started
      have := (List.mem_range'_1.mp mem).1
      omega
    rw [Cmp.bits, Cmp.bits, bitBuf, extra, pending]

structure Keeps (f : Format) (s : Cmp) : Prop where
  reading : Reading s
  mode : s.cmpType = f.mode
  dsizeBits : s.dsizeBits = f.dsize
  dsizeMask : s.dsizeMask = 2 ^ f.dsize - 1

theorem Passes.keeps {f : Format} {s t : Cmp} (passes : Passes s t) (reading : Reading t) (keeps : Keeps f s) :
    Keeps f t where
  reading := reading
  mode := passes.cmpType.trans keeps.mode
  dsizeBits := passes.dsizeBits.trans keeps.dsizeBits
  dsizeMask := passes.dsizeMask.trans keeps.dsizeMask

-- Not to be compared field by field: the difference of positions would be unfolded.
@[irreducible] def slide (half : Nat) (s : Cmp) : Cmp :=
  { dataWriteOutput half s with
    work := fun j => if j < s.outPos - half then s.work (half + j) else s.work j
    outPos := s.outPos - half }

section slide

variable (half : Nat) (s : Cmp)

@[simp] theorem slide_outPos : (slide half s).outPos = s.outPos - half := by
  unfold slide
  rfl

@[simp] theorem slide_out : (slide half s).out = (dataWriteOutput half s).out := by
  unfold slide
  rfl

@[simp] theorem slide_maxOut : (slide half s).maxOut = s.maxOut := by
  unfold slide
  rfl

@[simp] theorem slide_log : (slide half s).log = s.log := by
  unfold slide
  rfl

@[simp] theorem slide_work (j : Nat) :
    (slide half s).work j = if j < s.outPos - half then s.work (half + j) else s.work j := by
  unfold slide
  rfl

end slide

theorem flush_full {s : Cmp} (full : windowSize ≤ s.outPos) :
    flush s = .ok () (slide windowHalf { s with log := .moved (s.outPos - windowHalf) :: s.log }) := by
  unfold flush
  rw [get_bind, if_pos full]
  generalize windowHalf = half
  unfold slide
  rfl

theorem Holds.slide {e : Bytes} {s : Cmp} (holds : Holds e s) (full : windowSize ≤ s.outPos) :
    Holds e (slide windowHalf s) := by
  obtain ⟨halves, length, out⟩ := holds.position
  have enough : windowHalf ≤ s.outPos - windowHalf := by
    simp only [windowHalf, windowSize] at *
    omega
  have sum := Nat.add_one_mul halves windowHalf
  refine ⟨?_, ⟨halves + 1, ?_, ?_⟩, fun i positive le => ?_⟩
  · rw [slide_outPos]
    exact enough
  · rw [slide_outPos]
    clear out holds full
    generalize windowHalf = half at *
    omega
  · have delivered := holds.deliver length out enough
    simp only [slide_out, slide_maxOut, sum]
    exact delivered
  · rw [slide_outPos] at le ⊢
    have place : windowHalf + (s.outPos - windowHalf - i) = s.outPos - i := by omega
    rw [slide_work, if_pos (by omega), place]
    exact holds.ends i positive (le.trans (Nat.sub_le _ _))

theorem flush_run {f : Format} {e : Bytes} {s : Cmp} (holds : Holds e s) (keeps : Keeps f s)
    (most : s.outPos ≤ stagingStart + 1) :
    ∃ t, flush s = .ok () t ∧ Windowed e t ∧ Keeps f t ∧ t.bits = s.bits ∧ t.maxOut = s.maxOut ∧
      ∃ new, t.log = new ++ s.log ∧ (s.outPos ≤ stagingStart → ∀ access ∈ new, access.Sound) := by
  by_cases full : windowSize ≤ s.outPos
  · let v : Cmp := { s with log := .moved (s.outPos - windowHalf) :: s.log }
    have work : ∀ j, stagingStart < j → (slide windowHalf v).work j = s.work j := by
      intro j above
      have outPos : v.outPos = s.outPos := rfl
      rw [slide_work, if_neg]
      simp only [windowHalf, stagingStart] at *
      omega
    have passed : ∀ half, (slide half v).bitBuf = s.bitBuf ∧ (slide half v).extraBits = s.extraBits ∧
        (slide half v).inPos = s.inPos ∧ (slide half v).inBytes = s.inBytes ∧ (slide half v).source = s.source ∧
        (slide half v).sourcePos = s.sourcePos ∧ (slide half v).cmpType = s.cmpType ∧
        (slide half v).dsizeBits = s.dsizeBits ∧ (slide half v).dsizeMask = s.dsizeMask := by
      intro half
      unfold slide
      exact ⟨rfl, rfl, rfl, rfl, rfl, rfl, rfl, rfl, rfl⟩
    obtain ⟨bitBuf, extra, inPos, inBytes, source, sourcePos, mode, dsizeBits, dsizeMask⟩ := passed windowHalf
    obtain ⟨reading, bits⟩ := reading_of_work keeps.reading bitBuf extra inPos inBytes source sourcePos work
    have holds' : Holds e v := ⟨holds.upper, holds.position, holds.ends⟩
    refine ⟨slide windowHalf v, flush_full full, ⟨holds'.slide full, ?_⟩,
      ⟨reading, mode.trans keeps.mode, dsizeBits.trans keeps.dsizeBits, dsizeMask.trans keeps.dsizeMask⟩, bits,
      slide_maxOut _ _,
      [.moved (s.outPos - windowHalf)], slide_log _ _, fun inside access mem => ?_⟩
    · have outPos : v.outPos = s.outPos := rfl
      rw [slide_outPos]
      simp only [windowHalf, windowSize, stagingStart] at *
      omega
    · rw [List.mem_singleton.mp mem, Access.Sound, Nat.add_sub_cancel' holds.upper]
      exact inside
  · have run : flush s = .ok () s := by
      unfold flush
      rw [get_bind, if_neg full, pure_run]
    exact ⟨s, run, ⟨holds, Nat.not_le.mp full⟩, keeps, rfl, rfl, [], rfl, by simp⟩

end Pkware

end LibMpq
