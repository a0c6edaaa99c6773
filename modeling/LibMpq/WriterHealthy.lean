import LibMpq.WriterArchive
import LibMpq.WriterFrame

set_option autoImplicit false

namespace LibMpq

open Effect Bits Chunked

namespace Writing

variable {α : Type}

theorem onDisk_run {x : Op Error Disk α} {a : WriteArchive} {r : α} {disk : Disk}
    (run : x a.disk = .ok r disk) : onDisk x a = .ok r { a with disk } := by
  simp only [onDisk, zoom, run]

theorem streamDisk_run {x : Op Error Disk α} {s : Active} {r : α} {disk : Disk}
    (run : x s.archive.disk = .ok r disk) :
    streamDisk x s = .ok r { s with archive := { s.archive with disk } } := by
  simp only [streamDisk, onArchive, zoom, onDisk, run]

theorem onDisk_alloc {a : WriteArchive} (calm : a.disk.Calm) (e : Error) :
    onDisk (Disk.alloc e) a = .ok () a := onDisk_run (Disk.alloc_calm calm e)

theorem streamDisk_alloc {s : Active} (calm : s.archive.disk.Calm) (e : Error) :
    streamDisk (Disk.alloc e) s = .ok () s := streamDisk_run (Disk.alloc_calm calm e)

def reserved (o : CreateOptions) : Disk where
  file := File.empty.write 0 (Bytes.zeros (min 4096 (firstPayloadOf o)))
  pos := firstPayloadOf o
  plan := Faults.healthy

theorem archiveCreate_calm {o : CreateOptions} (valid : validateOptions o = true)
    (fits : o.version = versionOne → firstPayloadOf o ≤ uint32Max) :
    archiveCreate o Faults.healthy = .ok (newArchive o (reserved o)) := by
  have calm : Disk.Calm ⟨File.empty, 0, Faults.healthy⟩ := rfl
  have tables : reserveTables o ⟨File.empty, 0, Faults.healthy⟩ = .ok () (reserved o) := by
    unfold reserveTables
    rw [bind_of_ok (Disk.alloc_calm calm _), bind_of_ok (Disk.alloc_calm calm _),
      bind_of_ok (failIf_false (fun big => Nat.not_lt.mpr (fits big.1) big.2) _ _),
      bind_of_ok (Disk.alloc_calm calm _), bind_of_ok (Disk.alloc_calm calm _),
      bind_of_ok (Disk.write_calm calm _ _)]
    exact Disk.seek_calm (Disk.put_calm calm _) _ _
  rw [archiveCreate, if_pos valid, tables]

structure Acceptable (a : WriteArchive) (name : Bytes) (options : FileOptions) : Prop where
  idle : a.current = none
  notSignature : a.signature = true → sameIdentity name signatureName = false
  noMarker : has options.flags Flag.deleteMarker = false
  room : a.nextBlock < a.capacity
  methods : ∀ b, checkOptions a options b = .ok () b
  unique : duplicate a name options a.hashCapacity 0 = false
  sectorSize : a.sectorSize ≠ 0

theorem prepareWriter_calm {a : WriteArchive} {name : Bytes} {size : Nat} {options : FileOptions}
    (calm : a.disk.Calm) (ok : Acceptable a name options) {rows : Option (Nat → FileAttributes)}
    (reserved : reserveAttributes name a = .ok () { a with attributes := rows }) :
    prepareWriter name size options .none a =
      reserveOffsets (newWriter a name size (effectiveOptions a size options) .none a.disk.pos)
        { a with attributes := rows } := by
  have calm' : ({ a with attributes := rows } : WriteArchive).disk.Calm := calm
  unfold prepareWriter
  rw [bind_of_ok (get_run a), bind_of_ok (failIf_false (by simp [ok.idle, PatchPrefix.none]) _ _),
    bind_of_ok (failIf_false (by simpa using ok.notSignature) _ _),
    bind_of_ok (failIf_false (by simp [ok.noMarker]) _ _), bind_of_ok reserved,
    bind_of_ok (onDisk_alloc calm' _), bind_of_ok (failIf_false (Nat.not_le.mpr ok.room) _ _),
    bind_of_ok (ok.methods _), bind_of_ok (failIf_false (by simpa using ok.unique) _ _),
    bind_of_ok (onDisk_alloc calm' _), bind_of_ok (failIf_false ok.sectorSize _ _),
    bind_of_ok (onDisk_run (Disk.tell_calm calm' _)), if_pos (show PatchPrefix.none.bytes = [] from rfl), bind_of_ok (pure_run _ _)]
  rfl

end Writing

end LibMpq
