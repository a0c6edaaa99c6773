import LibMpq.Base.Fips180
import LibMpq.Base.Rfc1321
import LibMpq.Checksum
import Mathlib.Data.List.GetD

set_option autoImplicit false

namespace LibMpq

open Effect Chunked Iterated

theorem foldl_holds {σ : Type} {update : σ → Bytes → σ} {holds : Bytes → σ → Prop}
    (step : ∀ {message s}, holds message s → ∀ piece, holds (message ++ piece) (update s piece)) {message : Bytes} {s : σ}
    (start : holds message s) (pieces : List Bytes) : holds (message ++ pieces.flatten) (pieces.foldl update s) := by
  induction pieces generalizing message s with
  | nil => simpa using start
  | cons piece rest ih =>
    have next := ih (step start piece)
    simpa [List.append_assoc] using next

-- The padding that both finish with, for the bytes used of the last block.
theorem padding_eq (length : Nat) :
    (0x80 :: Bytes.zeros 63).take (if length % 64 < 56 then 56 - length % 64 else 120 - length % 64) =
      0x80 :: Bytes.zeros (fill length) := by
  have count : (if length % 64 < 56 then 56 - length % 64 else 120 - length % 64) = fill length + 1 := by
    unfold fill
    split <;> omega
  have most : fill length ≤ 63 := by
    unfold fill
    omega
  rw [count, List.take_succ_cons, Bytes.zeros, Bytes.zeros, List.take_replicate, Nat.min_eq_left most]

namespace Md5

def registers (s : Md5) : Rfc1321.Registers := ⟨s.a, s.b, s.c, s.d⟩

theorem index_order : ∀ i : Fin 64,
    (if i.1 < 16 then i.1 else if i.1 < 32 then (5 * i.1 + 1) % 16
      else if i.1 < 48 then (3 * i.1 + 5) % 16 else (7 * i.1) % 16) = Rfc1321.order.getD i.1 0 ∧
      Rfc1321.order.getD i.1 0 < 16 := by decide

theorem shift_rotation : ∀ i : Fin 64,
    shifts.getD ((i.1 / 16) * 4 + i.1 % 4) 0 =
      (Rfc1321.rotations.getD (i.1 / 16) []).getD (i.1 % 4) 0 := by decide

theorem mixing_eq {i : Nat} (inside : i < 64) (b c d : UInt32) :
    (if i < 16 then (b &&& c) ||| (~~~b &&& d)
      else if i < 32 then (d &&& b) ||| (~~~d &&& c)
      else if i < 48 then b ^^^ c ^^^ d
      else c ^^^ (b ||| ~~~d)) = Rfc1321.mixing (i / 16) b c d := by
  by_cases first : i < 16
  · rw [if_pos first, Nat.div_eq_of_lt first]
    rfl
  · rw [if_neg first]
    by_cases second : i < 32
    · rw [if_pos second, show i / 16 = 1 by omega, UInt32.and_comm d, UInt32.and_comm (~~~d)]
      rfl
    · rw [if_neg second]
      by_cases third : i < 48
      · rw [if_pos third, show i / 16 = 2 by omega]
        rfl
      · rw [if_neg third, show i / 16 = 3 by omega]
        rfl

def blockWords (block : Bytes) : List UInt32 :=
  (List.range 16).map fun i => Crypto.loadLe32 (block.drop (4 * i))

theorem blockWords_getD (block : Bytes) {k : Nat} (inside : k < 16) :
    (blockWords block).getD k 0 = Rfc1321.word block k := by
  simp [blockWords, List.getD_eq_getElem?_getD, inside, Rfc1321.word, Crypto.loadLe32]

-- One step of the code: the registers move on by one place.
theorem mixRound_eq (block : Bytes) (s : Md5) {i : Nat} (inside : i < 64) :
    mixRound (blockWords block) s i =
      { s with
        a := s.d, b := Rfc1321.assigned (Rfc1321.word block) i s.a s.b s.c s.d, c := s.b, d := s.c } := by
  obtain ⟨index, small⟩ := index_order ⟨i, inside⟩
  have shift := shift_rotation ⟨i, inside⟩
  simp only at index small shift
  rw [mixRound]
  simp only [mixing_eq inside, index, shift, blockWords_getD block small]
  rw [UInt32.add_assoc (_ + _), UInt32.add_comm (UInt32.ofNat _), ← UInt32.add_assoc]
  rfl

theorem mixRounds_row (block : Bytes) (s : Md5) {n : Nat} (inside : n < 16) :
    registers ((List.range' (4 * n) 4).foldl (mixRound (blockWords block)) s) =
      Rfc1321.row (Rfc1321.word block) (registers s) n := by
  have steps : List.range' (4 * n) 4 = [4 * n, 4 * n + 1, 4 * n + 2, 4 * n + 3] := rfl
  rw [steps]
  simp only [List.foldl_cons, List.foldl_nil]
  rw [mixRound_eq block _ (by omega), mixRound_eq block _ (by omega), mixRound_eq block _ (by omega),
    mixRound_eq block _ (by omega)]
  rfl

theorem mixRounds_rows (block : Bytes) (s : Md5) {n : Nat} (inside : n ≤ 16) :
    registers ((List.range (4 * n)).foldl (mixRound (blockWords block)) s) =
      (List.range n).foldl (Rfc1321.row (Rfc1321.word block)) (registers s) := by
  induction n with
  | zero => rfl
  | succ n ih =>
    have rows : List.range (4 * (n + 1)) = List.range (4 * n) ++ List.range' (4 * n) 4 := by
      rw [List.range_eq_range', List.range_eq_range', Nat.mul_succ, ← List.range'_append]
      simp
    rw [rows, List.foldl_append, mixRounds_row block _ (by omega), ih (by omega), List.range_succ,
      List.foldl_append]
    rfl

theorem transform_registers (s : Md5) (block : Bytes) :
    registers (transform s block) = Rfc1321.compress (registers s) block := by
  have rows := mixRounds_rows block s (Nat.le_refl 16)
  rw [show 4 * 16 = 64 by decide] at rows
  rw [Rfc1321.compress, ← rows, transform, ← blockWords]
  generalize (List.range 64).foldl (mixRound (blockWords block)) s = mixed
  rfl

theorem registers_pending (s : Md5) (pending : Bytes) : registers { s with pending } = registers s := rfl

theorem buffer_blockwise : Blockwise buffer 64 Rfc1321.compress registers pending where
  room _ := rfl
  push _ _ := ⟨rfl, rfl⟩
  flush s := by
    refine ⟨{ transform s s.pending with pending := [] }, rfl, ?_, rfl⟩
    rw [registers_pending, transform_registers]

structure Holds (message : Bytes) (s : Md5) : Prop where
  absorbed : Absorbed 64 Rfc1321.compress Rfc1321.start message s.registers s.pending
  size : s.size = UInt64.ofNat message.length

theorem init_holds : init.Holds [] where
  absorbed := Absorbed.nil (by decide) Rfc1321.start
  size := rfl

theorem step_size {x part : Bytes} {s s' : Md5} (size : s.size = UInt64.ofNat x.length)
    (run : buffer.step part s = .ok () s') : s'.size = UInt64.ofNat (x ++ part).length := by
  have pushed : (buffer.push part s).size = UInt64.ofNat (x ++ part).length := by
    simp only [buffer, size, List.length_append, UInt64.ofNat_add]
  rw [Buffer.step_run] at run
  split at run <;> cases run
  · exact pushed
  · exact pushed

theorem update_holds {message : Bytes} {s : Md5} (holds : s.Holds message) (data : Bytes) :
    (update s data).Holds (message ++ data) := by
  rw [update]
  cases run : buffer.feed data.length data s with
  | error e _ => exact e.elim
  | ok _ s' =>
    obtain ⟨absorbed, size⟩ :=
      @Blockwise.feed _ _ _ _ _ _ _ _ buffer_blockwise (fun x s => s.size = UInt64.ofNat x.length)
        (fun _ _ _ _ => step_size) _ _ _ _ _ _ holds.absorbed holds.size le_rfl run
    exact ⟨absorbed, size⟩

theorem finish_holds {message : Bytes} {s : Md5} (holds : s.Holds message) :
    (finish s).1 = Rfc1321.digest message := by
  have used : s.size.toNat % 64 = message.length % 64 := by
    rw [holds.size, UInt64.toNat_ofNat']
    omega
  have bits : (s.size * 8).toNat = 8 * message.length % 2 ^ 64 := by
    rw [holds.size, UInt64.toNat_mul, UInt64.toNat_ofNat']
    simp only [UInt64.reduceToNat]
    omega
  have last := update_holds (update_holds holds (0x80 :: Bytes.zeros (fill message.length)))
    (Bytes.ofNat 8 (s.size * 8).toNat)
  have whole := @padded_whole Rfc1321.lengthBytes message (by simp [Rfc1321.lengthBytes])
  rw [bits] at last
  have chain := last.absorbed.chain_eq whole
  simp only [finish, used, padding_eq, bits]
  rw [Rfc1321.digest, padded, Rfc1321.lengthBytes, ← chain]
  rfl

end Md5

namespace Sha1

def words (s : Sha1) : Fips180.Words := ⟨s.a, s.b, s.c, s.d, s.e⟩

-- The standard joins the choices with exclusive or; both sides are never set together.
theorem choice_eq (x y z : UInt32) : (x &&& y) ||| (~~~x &&& z) = Fips180.ch x y z := by
  rw [Fips180.ch]
  apply UInt32.toBitVec_inj.mp
  ext i inside
  simp
  cases x.toBitVec[i] <;> simp

theorem majority_eq (x y z : UInt32) :
    (x &&& y) ||| (x &&& z) ||| (y &&& z) = Fips180.maj x y z := by
  rw [Fips180.maj]
  apply UInt32.toBitVec_inj.mp
  ext i inside
  simp
  cases x.toBitVec[i] <;> cases y.toBitVec[i] <;> cases z.toBitVec[i] <;> rfl

theorem mixing_eq (i : Nat) (b c d : UInt32) :
    (if i < 20 then (b &&& c) ||| (~~~b &&& d)
      else if i < 40 then b ^^^ c ^^^ d
      else if i < 60 then (b &&& c) ||| (b &&& d) ||| (c &&& d)
      else b ^^^ c ^^^ d) = Fips180.f i b c d := by
  rw [choice_eq, majority_eq, Fips180.f]
  simp only [← Nat.lt_succ_iff]
  split_ifs <;> rfl

theorem constant_eq (i : Nat) :
    (if i < 20 then 0x5A827999 else if i < 40 then 0x6ED9EBA1 else if i < 60 then 0x8F1BBCDC
      else 0xCA62C1D6) = Fips180.k i := by
  rw [Fips180.k]
  simp only [← Nat.lt_succ_iff]

def blockWords (block : Bytes) : List UInt32 :=
  (List.range 16).map fun i => loadBe32 (block.drop (4 * i))

def extended (block : Bytes) (count : Nat) : List UInt32 :=
  (List.range' 16 count).foldl extendWords (blockWords block)

theorem extended_schedule (block : Bytes) (count : Nat) :
    (extended block count).length = 16 + count ∧
      ∀ t, t < 16 + count → (extended block count).getD t 0 = Fips180.schedule block t := by
  induction count with
  | zero =>
    refine ⟨by simp [extended, blockWords], ?_⟩
    intro t inside
    rw [Fips180.schedule, if_pos inside]
    have inside : t < 16 := inside
    simp [extended, blockWords, List.getD_eq_getElem?_getD, inside, loadBe32, Fips180.word]
  | succ count ih =>
    obtain ⟨length, words⟩ := ih
    have next : extended block (count + 1) = extendWords (extended block count) (16 + count) := by
      rw [extended, List.range'_concat, List.foldl_append]
      simp [extended]
    rw [next, extendWords]
    refine ⟨by simp [length]; omega, ?_⟩
    intro t inside
    by_cases last : t = 16 + count
    · rw [last, List.getD_append_right _ _ _ _ length.le, length, Nat.sub_self, Fips180.schedule,
        if_neg (by omega), words _ (by omega), words _ (by omega), words _ (by omega), words _ (by omega)]
      rfl
    · rw [List.getD_append _ _ _ _ (by omega)]
      exact words t (by omega)

theorem mixRound_words (block : Bytes) (s : Sha1) {i : Nat} (inside : i < 80) :
    words (mixRound (extended block 64) s i) = Fips180.round (Fips180.schedule block) (words s) i := by
  rw [mixRound]
  simp only [mixing_eq, constant_eq, (extended_schedule block 64).2 i inside]
  rfl

theorem mixRounds_words (block : Bytes) (s : Sha1) {n : Nat} (inside : n ≤ 80) :
    words ((List.range n).foldl (mixRound (extended block 64)) s) =
      (List.range n).foldl (Fips180.round (Fips180.schedule block)) (words s) := by
  induction n with
  | zero => rfl
  | succ n ih =>
    rw [List.range_succ, List.foldl_append, List.foldl_append, ← ih (by omega)]
    exact mixRound_words block _ (by omega)

theorem transform_words (s : Sha1) (block : Bytes) :
    words (transform s block) = Fips180.compress (words s) block := by
  have rounds := mixRounds_words block s (Nat.le_refl 80)
  rw [Fips180.compress, ← rounds, transform, ← blockWords, ← extended]
  generalize (List.range 80).foldl (mixRound (extended block 64)) s = mixed
  simp only [words, UInt32.add_comm s.a, UInt32.add_comm s.b, UInt32.add_comm s.c, UInt32.add_comm s.d,
    UInt32.add_comm s.e]

theorem words_pending (s : Sha1) (pending : Bytes) : words { s with pending } = words s := rfl

theorem buffer_blockwise : Blockwise buffer 64 Fips180.compress words pending where
  room _ := rfl
  push _ _ := ⟨rfl, rfl⟩
  flush s := by
    refine ⟨{ transform s s.pending with pending := [] }, rfl, ?_, rfl⟩
    rw [words_pending, transform_words]

structure Holds (message : Bytes) (s : Sha1) : Prop where
  absorbed : Absorbed 64 Fips180.compress Fips180.start message s.words s.pending
  bits : s.bits = UInt64.ofNat message.length * 8

theorem init_holds : init.Holds [] where
  absorbed := Absorbed.nil (by decide) Fips180.start
  bits := rfl

-- The sums at the end of a block, which leave the count of bits alone.
def summed (s mixed : Sha1) : Sha1 :=
  { s with
    a := s.a + mixed.a, b := s.b + mixed.b, c := s.c + mixed.c, d := s.d + mixed.d, e := s.e + mixed.e }

theorem summed_bits (s mixed : Sha1) : (summed s mixed).bits = s.bits := rfl

theorem transform_bits (s : Sha1) (block : Bytes) : (transform s block).bits = s.bits := by
  have sums : transform s block = summed s ((List.range 80).foldl (mixRound (extended block 64)) s) := rfl
  rw [sums, summed_bits]

theorem bits_pending (s : Sha1) (pending : Bytes) : { s with pending }.bits = s.bits := rfl

theorem step_bits {bits : UInt64} {part : Bytes} {s s' : Sha1} (same : s.bits = bits)
    (run : buffer.step part s = .ok () s') : s'.bits = bits := by
  rw [Buffer.step_run] at run
  split at run
  next =>
    simp only [buffer, modify_run] at run
    injection run with _ flushed
    rw [← flushed]
    rw [bits_pending, transform_bits]
    exact same
  next =>
    cases run
    exact same

-- The code counts the bits before it copies, so the copies leave the count alone.
theorem update_holds {message : Bytes} {s : Sha1} (holds : s.Holds message) (data : Bytes) :
    (update s data).Holds (message ++ data) := by
  have absorbed : Absorbed 64 Fips180.compress Fips180.start message
      (words { s with bits := s.bits + UInt64.ofNat data.length * 8 }) s.pending := holds.absorbed
  have bits : s.bits + UInt64.ofNat data.length * 8 = UInt64.ofNat (message ++ data).length * 8 := by
    rw [holds.bits, List.length_append, UInt64.ofNat_add, UInt64.add_mul]
  rw [update]
  cases run : buffer.feed data.length data { s with bits := s.bits + UInt64.ofNat data.length * 8 } with
  | error e _ => exact e.elim
  | ok _ s' =>
    obtain ⟨absorbed, bits⟩ :=
      @Blockwise.feed _ _ _ _ _ _ _ _ buffer_blockwise
        (fun _ t => t.bits = UInt64.ofNat (message ++ data).length * 8) (fun _ _ _ _ => step_bits)
        _ _ _ _ _ _ absorbed bits le_rfl run
    exact ⟨absorbed, bits⟩

theorem finish_holds {message : Bytes} {s : Sha1} (holds : s.Holds message) (small : message.length < 2 ^ 61) :
    finish s = Fips180.digest message := by
  have used : s.pending.length = message.length % 64 := holds.absorbed.pending_length
  have bits : s.bits.toNat = 8 * message.length := by
    rw [holds.bits, UInt64.toNat_mul, UInt64.toNat_ofNat']
    simp only [UInt64.reduceToNat]
    omega
  have last := update_holds (update_holds holds (0x80 :: Bytes.zeros (fill message.length)))
    (Bytes.ofNat 8 s.bits.toNat).reverse
  have whole := @padded_whole Fips180.lengthBytes message (by simp [Fips180.lengthBytes])
  rw [bits] at last
  have chain := last.absorbed.chain_eq whole
  simp only [finish, used, padding_eq, bits]
  rw [Fips180.digest, padded, Fips180.lengthBytes, ← chain]
  rfl

end Sha1

theorem digests_standard (pieces : List Bytes) (small : pieces.flatten.length < 2 ^ 61) :
    ((pieces.foldl Md5.update Md5.init).finish : Bytes) = Rfc1321.digest pieces.flatten ∧
      (pieces.foldl Sha1.update Sha1.init).finish = Fips180.digest pieces.flatten :=
  ⟨Md5.finish_holds (foldl_holds Md5.update_holds Md5.init_holds pieces),
    Sha1.finish_holds (foldl_holds Sha1.update_holds Sha1.init_holds pieces) small⟩

theorem digests_standard_abc :
    ([[], [0x61], [0x62, 0x63]].foldl Md5.update Md5.init).finish.1 = Rfc1321.digest [0x61, 0x62, 0x63] ∧
      ([[], [0x61], [0x62, 0x63]].foldl Sha1.update Sha1.init).finish = Fips180.digest [0x61, 0x62, 0x63] :=
  digests_standard [[], [0x61], [0x62, 0x63]] (by decide)

end LibMpq
