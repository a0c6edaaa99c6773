import LibMpq.Query

set_option autoImplicit false

namespace LibMpq

open Effect Bits

namespace Reading

theorem fetch_front {source : File} {offset size count : Nat} {plan rest : Faults} {stored : Bytes}
    (run : fetch source offset size plan = (⟨stored, none⟩, rest)) (front : count ≤ size)
    (some : size = 0 ∨ 0 < count) :
    fetch source offset count plan = (⟨stored.take count, none⟩, rest) := by
  have bytes := fetch_ok run
  unfold fetch at run ⊢
  split at run
  · cases run
  next inside =>
    rw [if_neg (by omega)]
    by_cases empty : size = 0
    · rw [if_pos empty] at run
      cases run
      rw [if_pos (by omega), List.take_nil]
    · rw [if_neg empty] at run
      rw [if_neg (by omega)]
      split at run
      · cases run
      · split at run
        · cases run
          obtain ⟨more, rfl⟩ := Nat.exists_eq_add_of_le front
          simp only [*, File.read_take]
        · cases run

theorem sourceReadAt_front {source : File} {offset size count : Nat} {plan rest : Faults} {stored : Bytes}
    (run : sourceReadAt source offset size plan = .ok stored rest) (front : count ≤ size)
    (some : size = 0 ∨ 0 < count) :
    sourceReadAt source offset count plan = .ok (stored.take count) rest := by
  unfold sourceReadAt at run ⊢
  cases result : fetch source offset size plan with
  | mk got left =>
    obtain ⟨bytes, error⟩ := got
    rw [result] at run
    cases error with
    | none =>
      cases run
      rw [fetch_front result front some]
    | some e => cases run

-- How much of a sector is read to see its method, for a packed size.
def prefixSize (a : ReadArchive) (number size : Nat) : Nat :=
  min size (if has (entry a number).flags Flag.encrypted then 4 else 1)

theorem prefixSize_pos {size : Nat} (a : ReadArchive) (number : Nat) (filled : 0 < size) :
    0 < prefixSize a number size := by
  unfold prefixSize
  split <;> omega

theorem headD_take {count : Nat} (filled : 0 < count) (data : Bytes) :
    (data.take count).headD 0 = data.headD 0 := by
  obtain ⟨less, rfl⟩ := Nat.exists_eq_succ_of_ne_zero (Nat.pos_iff_ne_zero.mp filled)
  cases data <;> simp

-- An encrypted sector of a word or more is decrypted by its first word, a shorter one is literal.
theorem methodByte_eq {a : ReadArchive} {number block size : Nat} {file : FileCache} {packed : Bytes}
    {w w' : Window} (held : a.cache number = some file) (plan : w.plan = a.plan)
    (full : readPacked a number block file size w = .ok packed w') :
    methodByte number block (prefixSize a number size) a =
      .ok (packed.headD 0).toUInt32 { a with plan := w'.plan } := by
  obtain ⟨raw, w'', got, full⟩ := bind_ok.mp full
  obtain ⟨rest, read, rfl⟩ := zoom_ok.mp got
  rw [plan] at read
  have front : prefixSize a number size ≤ size := Nat.min_le_left _ _
  have filled : size = 0 ∨ 0 < prefixSize a number size :=
    (Nat.eq_zero_or_pos size).imp_right (prefixSize_pos a number)
  have head : (raw.take (prefixSize a number size)).headD 0 = raw.headD 0 := by
    rcases filled with none | filled
    · rw [sourceReadAt_ok read, none]
      simp [File.read]
    · exact headD_take filled raw
  have fetched : onPlan (sourceReadAt a.source
      (payloadOffset a (entryIndex a number) + (file.packedOffset block).toNat)
      (prefixSize a number size)) a = .ok (raw.take (prefixSize a number size)) { a with plan := rest } :=
    zoom_ok.mpr ⟨rest, sourceReadAt_front read front filled, rfl⟩
  unfold methodByte
  rw [bind_of_ok (get_run _)]
  simp only [held]
  rw [bind_of_ok fetched]
  by_cases encrypted : has (entry a number).flags Flag.encrypted = true
  · by_cases whole : 4 ≤ size
    · have four : prefixSize a number size = 4 := by
        simp only [prefixSize, encrypted, if_true]
        omega
      rw [if_pos ⟨encrypted, whole⟩] at full
      rw [if_pos ⟨encrypted, four.ge⟩]
      cases key : file.seed with
      | none =>
        rw [key] at full
        cases full
      | some seed =>
        rw [key] at full
        cases full
        simp only [four, Crypto.decryptBlock_take (show 4 % 4 = 0 by rfl), headD_take (show 0 < 4 by decide)]
        rfl
    · rw [if_neg fun both => whole both.2] at full
      rw [if_neg fun both => whole (le_trans both.2 front), head]
      cases full
      rfl
  · rw [if_neg fun both => encrypted both.1] at full
    rw [if_neg fun both => encrypted both.1, head]
    cases full
    rfl

structure CipherLaws (data : Bytes) (seed : UInt32) : Prop where
  decrypted : Crypto.decryptBlock (Crypto.encryptBlock data seed) seed = data
  encrypted : Crypto.encryptBlock (Crypto.decryptBlock data seed) seed = data
  lengths : (Crypto.encryptBlock data seed).length = data.length ∧
    (Crypto.decryptBlock data seed).length = data.length
  trailing :
    let whole := data.length - data.length % 4
    (Crypto.encryptBlock data seed).drop whole = data.drop whole ∧
      (Crypto.decryptBlock data seed).drop whole = data.drop whole
  front : ∀ k, Crypto.decryptBlock (data.take (4 * k)) seed = (Crypto.decryptBlock data seed).take (4 * k)

theorem cipherLaws (data : Bytes) (seed : UInt32) : CipherLaws data seed where
  decrypted := Crypto.decryptBlock_encryptBlock data seed
  encrypted := Crypto.encryptBlock_decryptBlock data seed
  lengths := ⟨Crypto.encryptBlock_length data seed, Crypto.decryptBlock_length data seed⟩
  trailing := by
    have after := Crypto.encryptBlock_leftover data seed
    have before := Crypto.decryptBlock_leftover data seed
    simp only [Crypto.leftover_eq, Crypto.encryptBlock_length, Crypto.decryptBlock_length] at after before
    exact ⟨after, before⟩
  front k := Crypto.decryptBlock_take (Nat.mul_mod_right 4 k) data seed

theorem cipher_laws_sectors (data : Bytes) (seed : UInt32) :
    CipherLaws data seed ∧
      ∀ (a : ReadArchive) (number block size : Nat) (file : FileCache) (packed : Bytes) (w w' : Window),
        a.cache number = some file → w.plan = a.plan →
          readPacked a number block file size w = .ok packed w' →
            methodByte number block (prefixSize a number size) a =
              .ok (packed.headD 0).toUInt32 { a with plan := w'.plan } :=
  ⟨cipherLaws data seed, fun _ _ _ _ _ _ _ _ held plan full => methodByte_eq held plan full⟩

-- Five bytes of an encrypted, compressed member: one word and a literal byte.
def quintet : ReadArchive :=
  unnamed (File.ofBytes [1, 2, 3, 4, 5]) 0
    { offset := 0, packedSize := 5, unpackedSize := 9,
      flags := Flag.exists_ ||| Flag.encrypted ||| Flag.compress }

def quintetOffsets : FileCache where
  packedOffset i := if i = 0 then 0 else 5
  packedOffsetCount := 2
  openCount := 1
  seed := some 7

def quintetWindow : Window := ⟨Faults.healthy, Bytes.zeros 9, false, false⟩

theorem quintet_read :
    readPacked (storeCache 0 (some quintetOffsets) quintet) 0 0 quintetOffsets 5 quintetWindow =
      .ok (Crypto.decryptBlock [1, 2, 3, 4, 5] 7) quintetWindow := by
  have bytes : (File.ofBytes [1, 2, 3, 4, 5]).read 0 5 = [1, 2, 3, 4, 5] := by decide
  have read := @windowPlan_healthy _ _ quintetWindow _ rfl
    (@sourceReadAt_healthy (File.ofBytes [1, 2, 3, 4, 5]) 0 5 (by decide))
  rw [bytes] at read
  rw [readPacked]
  refine (bind_of_ok read _).trans ?_
  rw [if_pos ⟨by decide, by decide⟩]
  rfl

theorem cipher_laws_quintet :
    CipherLaws [1, 2, 3, 4, 5] 7 ∧
      methodByte 0 0 4 (storeCache 0 (some quintetOffsets) quintet) =
        .ok 211 (storeCache 0 (some quintetOffsets) quintet) := by
  obtain ⟨laws, sectors⟩ := cipher_laws_sectors [1, 2, 3, 4, 5] 7
  refine ⟨laws, ?_⟩
  have method := sectors _ 0 0 5 _ _ _ _ rfl rfl quintet_read
  have head : (Crypto.decryptBlock [1, 2, 3, 4, 5] 7).headD 0 = 211 := by decide +kernel
  rw [head] at method
  exact method

end Reading

end LibMpq
