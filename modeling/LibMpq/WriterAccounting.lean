import LibMpq.CompressionRoundTrip
import LibMpq.WriterFrame

set_option autoImplicit false

namespace LibMpq

open Effect Bits Chunked

namespace Writing

theorem implode_length_le {codecs : Codecs} {data packed : Bytes} {plan plan' : Faults}
    (run : implode codecs data plan = .ok packed plan') : packed.length ≤ data.length := by
  obtain ⟨best, _, -, run⟩ := bind_ok.mp run
  split at run
  next =>
    obtain ⟨-, _, -, run⟩ := bind_ok.mp run
    rw [(pure_ok.mp run).1]
  next shorter =>
    rw [(pure_ok.mp run).1]
    omega

theorem packSector_length_le {codecs : Codecs} {s : Active} {packed : Bytes} {plan plan' : Faults}
    (run : packSector codecs s plan = .ok packed plan') :
    packed.length ≤ s.writer.data.length := by
  unfold packSector at run
  split at run
  · obtain ⟨encoded, _, sector, run⟩ := bind_ok.mp run
    rw [(pure_ok.mp run).1]
    exact Compression.encodeSector_length_le sector
  · split at run
    · exact implode_length_le run
    · obtain ⟨-, _, -, run⟩ := bind_ok.mp run
      rw [(pure_ok.mp run).1]

theorem encryptSector_length {w : Writer} {packed stored : Bytes} {plan plan' : Faults}
    (run : encryptSector w packed plan = .ok stored plan') : stored.length = packed.length := by
  unfold encryptSector at run
  split at run
  · obtain ⟨key, _, -, run⟩ := bind_ok.mp run
    rw [(pure_ok.mp run).1, Crypto.encryptBlock_length]
  · rw [(pure_ok.mp run).1]

structure SameInput (s s' : Active) : Prop where
  archive : ∃ disk, s'.archive = { s.archive with disk }
  data : s'.writer.data = s.writer.data
  written : s'.writer.written = s.writer.written
  expected : s'.writer.expected = s.writer.expected
  sectorIndex : s'.writer.sectorIndex = s.writer.sectorIndex
  options : s'.writer.options = s.writer.options

structure SameCounters (s s' : Active) : Prop extends SameInput s s' where
  packedTotal : s'.writer.packedTotal = s.writer.packedTotal

instance : Std.Refl SameCounters :=
  ⟨fun s => by repeat constructor⟩

instance : IsTrans Active SameCounters where
  trans s s' s'' first second := by
    obtain ⟨d, step⟩ := first.archive
    obtain ⟨d', step'⟩ := second.archive
    refine ⟨⟨⟨d', by rw [step', step]⟩, ?_, ?_, ?_, ?_, ?_⟩, ?_⟩
    · exact second.data.trans first.data
    · exact second.written.trans first.written
    · exact second.expected.trans first.expected
    · exact second.sectorIndex.trans first.sectorIndex
    · exact second.options.trans first.options
    · exact second.packedTotal.trans first.packedTotal

theorem streamDisk_sameCounters {α : Type} (x : Op Error Disk α) :
    Keeps SameCounters (streamDisk x) :=
  Keeps.zoom (S := fun a a' => ∃ disk, a' = { a with disk })
    (Keeps.zoom (Keeps.of_true x) fun a d _ => ⟨d, rfl⟩)
    (by rintro s a ⟨disk, rfl⟩; exact ⟨⟨⟨disk, rfl⟩, rfl, rfl, rfl, rfl, rfl⟩, rfl⟩)

theorem recordOffset_sameCounters : Keeps SameCounters recordOffset := by
  refine Keeps.bind Keeps.get fun s => ?_
  split
  · refine Keeps.bind (streamDisk_sameCounters _) fun _ => ?_
    exact Keeps.modify fun s => ⟨⟨⟨s.archive.disk, rfl⟩, rfl, rfl, rfl, rfl, rfl⟩, rfl⟩
  · exact Keeps.pure ()

inductive FlushOutcome (s : Active) : EStateM.Result Error Active Unit → Prop
  | failed {e : Error} {s' : Active} : SameCounters s s' → FlushOutcome s (.error e s')
  | done {s' : Active} {mask : UInt32} :
      nextMask s.writer = .ok mask → s'.writer.data = [] → s'.writer.written = s.writer.written →
      s'.writer.packedTotal ≤ s.writer.packedTotal + s.writer.data.length →
      FlushOutcome s (.ok () s')
  | unusable {s' : Active} {e : Error} :
      SameInput s s' → nextMask s.writer = .error e → FlushOutcome s (.error e s')

theorem flushSector_outcome (codecs : Codecs) (s : Active) :
    FlushOutcome s (flushSector codecs s) := by
  have failed : ∀ e s', SameCounters s s' → FlushOutcome s (.error e s') := fun _ _ => .failed
  refine Keeps.bind_elim (R := SameCounters) Keeps.get (refl_of _ s) failed fun _ t got same => ?_
  cases got
  refine Keeps.bind_elim (Keeps.failIf _ _) same failed fun _ _ _ same => ?_
  refine Keeps.bind_elim (streamDisk_sameCounters _) same failed fun packed _ pack same => ?_
  refine Keeps.bind_elim (Keeps.modify fun s => ?_) same failed fun _ _ _ same => ?_
  · exact ⟨⟨⟨s.archive.disk, rfl⟩, rfl, rfl, rfl, rfl, rfl⟩, rfl⟩
  refine Keeps.bind_elim (streamDisk_sameCounters _) same failed fun stored _ encrypt same => ?_
  refine Keeps.bind_elim recordOffset_sameCounters same failed fun _ _ _ same => ?_
  refine Keeps.bind_elim (streamDisk_sameCounters _) same failed fun _ t _ same => ?_
  have length : stored.length ≤ s.writer.data.length := by
    obtain ⟨_, pack, -⟩ := streamDisk_ok.mp pack
    obtain ⟨_, pack, -⟩ := Disk.onPlan_ok pack
    obtain ⟨_, encrypt, -⟩ := streamDisk_ok.mp encrypt
    obtain ⟨_, encrypt, -⟩ := Disk.onPlan_ok encrypt
    exact (encryptSector_length encrypt).trans_le (packSector_length_le pack)
  cases next : nextMask s.writer with
  | error e => exact .unusable ⟨same.archive, same.data, same.written, same.expected,
      same.sectorIndex, same.options⟩ next
  | ok mask =>
    refine .done next rfl same.written ?_
    exact Nat.add_le_add same.packedTotal.le length

def Stuck (s : Active) : Prop :=
  s.writer.sectorIndex = 0 ∧ s.archive.sectorSize ≤ s.writer.data.length ∧
    ∃ e, nextMask s.writer = .error e

def Accounted (s : Active) : Prop :=
  s.writer.packedTotal + s.writer.data.length ≤ s.writer.written ∨ Stuck s

theorem nextMask_congr {w w' : Writer} (data : w'.data = w.data) (expected : w'.expected = w.expected)
    (sectorIndex : w'.sectorIndex = w.sectorIndex) (options : w'.options = w.options) :
    nextMask w' = nextMask w := by
  simp only [nextMask, data, expected, sectorIndex, options]

theorem SameInput.stuck {s s' : Active} (same : SameInput s s') (stuck : Stuck s) : Stuck s' := by
  obtain ⟨first, full, e, unusable⟩ := stuck
  obtain ⟨disk, archive⟩ := same.archive
  refine ⟨same.sectorIndex.trans first, ?_, e, ?_⟩
  · rw [archive, same.data]
    exact full
  · rw [nextMask_congr same.data same.expected same.sectorIndex same.options, unusable]

theorem nextMask_error {w : Writer} {e : Error} (unusable : nextMask w = .error e) :
    w.sectorIndex = 0 := by
  unfold nextMask at unusable
  by_contra later
  rw [if_neg fun first => later first.1] at unusable
  cases unusable

theorem flushSector_accounted {codecs : Codecs} {s : Active} (full : s.archive.sectorSize ≤ s.writer.data.length)
    (ok : Accounted s) : Accounted (final (flushSector codecs s)) := by
  cases outcome : flushSector codecs s with
  | error e s' =>
    cases outcome ▸ flushSector_outcome codecs s with
    | failed same =>
      rcases ok with counted | stuck
      · refine .inl ?_
        simp only [final_error, same.packedTotal, same.data, same.written]
        exact counted
      · exact .inr (same.stuck stuck)
    | unusable same unusable => exact .inr (same.stuck ⟨nextMask_error unusable, full, e, unusable⟩)
  | ok _ s' =>
    cases outcome ▸ flushSector_outcome codecs s with
    | done usable data written total =>
      rcases ok with counted | ⟨-, -, e, unusable⟩
      · refine .inl ?_
        simp only [final_ok, data, written, List.length_nil]
        omega
      · cases usable.symm.trans unusable

theorem absorb_accounted {s : Active} {data : Bytes}
    (fits : data.length ≤ s.archive.sectorSize - s.writer.data.length) (ok : Accounted s) :
    Accounted { s with writer := absorb data s.writer } := by
  rcases ok with counted | ⟨first, full, e, unusable⟩
  · refine .inl ?_
    simp only [absorb, List.length_append]
    omega
  · -- A full sector takes nothing, so the probe sees the same bytes again.
    have nothing : data = [] := List.length_eq_zero_iff.mp (by omega)
    subst nothing
    refine .inr ⟨first, by simpa [absorb] using full, e, ?_⟩
    rw [← unusable]
    exact nextMask_congr (by simp [absorb]) rfl rfl rfl

theorem step_accounted {codecs : Codecs} {s : Active} {data : Bytes}
    (fits : data.length ≤ (sectorBuffer codecs).room s) (ok : Accounted s) :
    Accounted (final ((sectorBuffer codecs).step data s)) := by
  have pushed : Accounted ((sectorBuffer codecs).push data s) := absorb_accounted fits ok
  rw [Buffer.step_run]
  split
  next full => exact flushSector_accounted (by simpa [sectorBuffer, Nat.sub_eq_zero_iff_le] using full) pushed
  next => exact pushed

theorem streamWrite_accounted (codecs : Codecs) (data : Bytes) {s : Active} (ok : Accounted s) :
    Accounted (final (streamWrite codecs data s)) := by
  let R : Active → Active → Prop := fun s s' => Accounted s → Accounted s'
  have : Std.Refl R := ⟨fun _ => id⟩
  have : IsTrans Active R := ⟨fun _ _ _ first second ok => second (first ok)⟩
  have keeps : Keeps R (streamWrite codecs data) :=
    Keeps.bind Keeps.get fun _ => Keeps.bind (Keeps.failIf _ _) fun _ =>
      Buffer.feed_keeps (fun _ _ fits => step_accounted fits) _ _
  exact keeps s ok

end Writing

end LibMpq
