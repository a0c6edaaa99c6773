import LibMpq.HuffmanLockstep

set_option autoImplicit false

namespace Bitstream

theorem bitsOf_toNat (data : Bytes) : bitsOf (8 * data.length) (Bytes.toNat data) = ofBytes data := by
  induction data with
  | nil => rfl
  | cons b rest ih =>
    have low : (b.toNat + 256 * Bytes.toNat rest) / 2 ^ 8 = Bytes.toNat rest := by
      have := b.toNat_lt
      omega
    have byte : bitsOf 8 (b.toNat + 256 * Bytes.toNat rest) = bitsOf 8 b.toNat := by
      rw [← bitsOf_mod, show (256 : Nat) = 2 ^ 8 from rfl, Nat.add_mul_mod_self_left, bitsOf_mod]
    rw [List.length_cons, Nat.mul_succ, Nat.add_comm, Bytes.toNat, bitsOf_add, low, ih, byte, ofBytes_cons]

end Bitstream

namespace LibMpq

open Effect Function Sibling Bitstream

namespace Huffman

def encodeUpTo (x : Bytes) : Enc Unit := do
  beginStream
  x.forM encodeByte

theorem forM_cons {e : Encoder} {byte : UInt8} {x : Bytes} :
    List.forM (byte :: x) encodeByte e = (do encodeByte byte; x.forM encodeByte : Enc Unit) e := rfl

theorem encodeUpTo_append {x y : Bytes} {e e' : Encoder} :
    encodeUpTo (x ++ y) e = .ok () e' ↔ ∃ e1, encodeUpTo x e = .ok () e1 ∧ y.forM encodeByte e1 = .ok () e' := by
  have each : ∀ (x : Bytes) (e e' : Encoder), (x ++ y).forM encodeByte e = .ok () e' ↔
      ∃ e1, x.forM encodeByte e = .ok () e1 ∧ y.forM encodeByte e1 = .ok () e' := by
    intro x
    induction x with
    | nil =>
      intro e e'
      constructor
      · exact fun run => ⟨e, rfl, run⟩
      · rintro ⟨e1, same, run⟩
        cases same
        exact run
    | cons byte x ih =>
      intro e e'
      rw [List.cons_append, forM_cons, bind_ok]
      constructor
      · rintro ⟨_, e1, first, rest⟩
        obtain ⟨e2, middle, last⟩ := (ih e1 e').mp rest
        exact ⟨e2, by rw [forM_cons, bind_of_ok first, middle], last⟩
      · rintro ⟨e2, front, last⟩
        rw [forM_cons] at front
        obtain ⟨_, e1, first, middle⟩ := bind_ok.mp front
        exact ⟨(), e1, first, (ih e1 e').mpr ⟨e2, middle, last⟩⟩
  rw [encodeUpTo, encodeUpTo, bind_ok, ]
  constructor
  · rintro ⟨_, e0, start, run⟩
    obtain ⟨e1, first, last⟩ := (each x e0 e').mp run
    exact ⟨e1, by rw [bind_of_ok start, first], last⟩
  · rintro ⟨e1, first, last⟩
    obtain ⟨_, e0, start, front⟩ := bind_ok.mp first
    exact ⟨(), e0, start, (each x e0 e').mpr ⟨e1, front, last⟩⟩

/-- Neither counter of the encoder's tree starts again from zero. -/
def EncodeInRange (x : Bytes) (capacity : UInt32) : Prop :=
  ∀ front byte back e, x = front ++ byte :: back → encodeUpTo front (Encoder.start capacity) = .ok () e →
    InRange e.ht (changesFor e.ht byte)

theorem beginStream_run {capacity : UInt32} {e : Encoder} (run : beginStream (Encoder.start capacity) = .ok () e) :
    ∃ ht root slots, treeBuild 0 (treeInit true Tree.zero) = .ok () ht ∧ e.ht = { ht with compressionTypeZero := true } ∧
      Rooted e.ht root slots none ∧ ht.generation = 1 ∧ ht.quickDecodeCache = Tree.zero.quickDecodeCache ∧
      e.os.Sound ∧ e.os.written = bitsOf 8 0 := by
  have known : (0 : UInt32).toNat < initialWeightTypes := by decide +kernel
  obtain ⟨ht, root, slots, build, rooted, _, generation, cache⟩ := treeBuild_run true Tree.zero known
  have same : treeInit false (Encoder.start capacity).ht = treeInit true Tree.zero := rfl
  refine ⟨ht, root, slots, build, ?_⟩
  rw [beginStream, bind_of_ok (get_run _)] at run
  by_cases small : (Encoder.start capacity).os.capacity < 4
  next =>
    rw [if_pos small] at run
    exact absurd run nofun
  next =>
    rw [if_neg small] at run
    beta_reduce at run
    rw [bind_of_ok (modify_run _ _), bind_of_ok (modify_run _ _)] at run
    obtain ⟨_, e1, built, last⟩ := bind_ok.mp run
    obtain ⟨ht1, tree, rfl⟩ := inTree_ok.mp built
    have tree : treeBuild 0 (treeInit false (Encoder.start capacity).ht) = .ok () ht1 := tree
    rw [same, build] at tree
    cases tree
    cases last
    exact ⟨rfl, rooted.congr ⟨rfl, rfl, rfl, rfl⟩ rfl rfl rfl rfl, generation, cache,
      ⟨Nat.one_pos, Nat.zero_lt_succ 7⟩, List.append_nil _⟩

theorem start_holds {inBuf : Bytes} (long : 4 ≤ inBuf.length) : (Decoder.start inBuf).is.Holds (ofBytes inBuf) := by
  have four : (inBuf.take 4).length = 4 := by rw [List.length_take]; omega
  have small := Bytes.toNat_lt (inBuf.take 4)
  rw [four] at small
  have word : (Wire.le32.decode inBuf).toNat = Bytes.toNat (inBuf.take 4) :=
    UInt32.toNat_ofNat_of_lt' (by simpa [UInt32.size] using small)
  refine ⟨⟨?_, Nat.le_refl 32⟩, ?_, rfl⟩
  · show (Wire.le32.decode inBuf).toNat < 2 ^ 32
    exact (Wire.le32.decode inBuf).toNat_lt
  · show bitsOf 32 (Wire.le32.decode inBuf).toNat ++ ofBytes (inBuf.drop 4) = _
    have first := bitsOf_toNat (inBuf.take 4)
    rw [four] at first
    rw [word, first, ← ofBytes_append, List.take_append_drop]

theorem openStream_zero {ht : Tree} {root : Nat} {slots : List (Slot Nat)} (rooted : Rooted ht root slots none)
    (build : treeBuild 0 (treeInit true Tree.zero) = .ok () ht) (generation : ht.generation = 1)
    (cache : ht.quickDecodeCache = Tree.zero.quickDecodeCache) {inBuf : Bytes} (long : 4 ≤ inBuf.length)
    {rest : List Bool} (view : ofBytes inBuf = bitsOf 8 0 ++ rest) :
    ∃ d, openStream (Decoder.start inBuf) = .ok () d ∧
      Lockstep root { ht with compressionTypeZero := true } d rest [] := by
  have holds := start_holds long
  rw [view] at holds
  obtain ⟨is, byte, run, zero, after, sound, failed⟩ := readByte_run holds.toSound (by rw [holds.view]; simp)
  rw [holds.view, List.take_left' (bitsOf_length 8 0), value_bitsOf] at zero
  rw [holds.view, List.drop_left' (bitsOf_length 8 0)] at after
  have clean := failed.trans holds.clean
  obtain rfl : byte = 0 := UInt32.toNat.inj zero
  have known : (0 : UInt32).toNat < initialWeightTypes := by decide +kernel
  refine ⟨{ ht := { ht with compressionTypeZero := true }, is := is, out := [] }, ?_, ⟨⟨slots, ?_⟩, rfl,
    ⟨ht.quickDecodeCache, ?_, ⟨fun index _ => ?_, fun index _ now => ?_⟩⟩, ⟨sound, after, clean⟩, rfl⟩⟩
  · rw [openStream, bind_of_ok (onStream_ok run),
      bind_of_ok (@checkFailed_clean { Decoder.start inBuf with is := is } clean), if_neg (not_not.mpr known)]
    beta_reduce
    rw [bind_of_ok (@onTree_ok _ _ { Decoder.start inBuf with is := is } _ _ build), modify_run]
    rfl
  · exact rooted.congr ⟨rfl, rfl, rfl, rfl⟩ rfl rfl rfl rfl
  · simp [Tree.disguised]
  · show (ht.quickDecodeCache index).generation ≤ ht.generation + 0
    rw [cache, generation]
    exact (by decide : (0 : UInt32) ≤ 1 + 0)
  · have now : (ht.quickDecodeCache index).generation = ht.generation + 0 := now
    rw [cache, generation] at now
    exact absurd now (by decide : (0 : UInt32) ≠ 1 + 0)

structure Begun (ht : Tree) (root : Nat) : Prop where
  build : treeBuild 0 (treeInit true Tree.zero) = .ok () ht
  rooted : ∃ slots, Rooted ht root slots none
  generation : ht.generation = 1
  cache : ht.quickDecodeCache = Tree.zero.quickDecodeCache

theorem begun : ∃ ht root, Begun ht root := by
  have known : (0 : UInt32).toNat < initialWeightTypes := by decide +kernel
  obtain ⟨ht, root, slots, build, rooted, _, generation, cache⟩ := treeBuild_run true Tree.zero known
  exact ⟨ht, root, build, ⟨slots, rooted⟩, generation, cache⟩

structure Encoding (root : Nat) (e : Encoder) : Prop where
  rooted : ∃ slots, Rooted e.ht root slots none
  zero : e.ht.compressionTypeZero = true
  sound : e.os.Sound

theorem encodeUpTo_concat {front : Bytes} {byte : UInt8} {e e' : Encoder} :
    encodeUpTo (front ++ [byte]) e = .ok () e' ↔ ∃ e1, encodeUpTo front e = .ok () e1 ∧ encodeByte byte e1 = .ok () e' := by
  rw [encodeUpTo_append]
  refine exists_congr fun e1 => and_congr_right fun _ => ?_
  rw [forM_cons, bind_ok]
  constructor
  · rintro ⟨_, e2, run, last⟩
    cases last
    exact run
  · exact fun run => ⟨(), e', run, rfl⟩

theorem Code.keeps {root : Nat} {slots : List (Slot Nat)} {ht ht' : Tree} {byte : UInt8} {bits : List Bool}
    (rooted : Rooted ht root slots none) (zero : ht.compressionTypeZero = true) (code : Code root ht byte bits ht') :
    (∃ slots', Rooted ht' root slots' none) ∧ ht'.compressionTypeZero = true := by
  have raised : ∀ {ht1 slots1}, Rooted ht1 root slots1 none → ht1.compressionTypeZero = true →
      (∃ i, ht1.symbolNodes byte.toNat = some i) → Change.InRange ht1 (.update byte.toNat) →
      Change.run (.update byte.toNat) ht1 = .ok () ht' →
      (∃ slots', Rooted ht' root slots' none) ∧ ht'.compressionTypeZero = true := by
    intro ht1 slots1 rooted1 zero1 node range run
    obtain ⟨kept, _⟩ := rooted1.step (.update byte.toNat) ⟨byte.toNat_lt, node⟩ range run
    exact ⟨kept.rooted, kept.zero.trans zero1⟩
  cases code with
  | known node path range run => exact raised rooted zero ⟨_, node⟩ range.1 (all_one run)
  | new node path range run =>
    obtain ⟨_, ht1, inserted, updated⟩ := bind_ok.mp run
    have small : (byte.toUInt32).toNat < 0x100 := by
      rw [UInt8.toNat_toUInt32]
      exact byte.toNat_lt
    obtain ⟨kept, i, named⟩ := rooted.step (.insert byte.toUInt32) ⟨small, zero⟩ range.1 inserted
    obtain ⟨slots1, rooted1⟩ := kept.rooted
    exact raised rooted1 (kept.zero.trans zero) ⟨i, named⟩ (range.2 ht1 inserted).1 (all_one updated)

section Run

variable {x : Bytes} {capacity : UInt32} {ht0 : Tree} {root : Nat}

theorem encoding (begun : Begun ht0 root) (range : EncodeInRange x capacity) {front back : Bytes} (split : x = front ++ back)
    {e : Encoder} (run : encodeUpTo front (Encoder.start capacity) = .ok () e) : Encoding root e := by
  induction front using List.reverseRecOn generalizing back e with
  | nil =>
    obtain ⟨_, e0, start, last⟩ := bind_ok.mp run
    cases last
    obtain ⟨ht, _, _, build, tree, _, _, _, sound, _⟩ := beginStream_run start
    rw [begun.build] at build
    cases build
    obtain ⟨slots, rooted⟩ := begun.rooted
    exact ⟨⟨slots, tree ▸ rooted.congr ⟨rfl, rfl, rfl, rfl⟩ rfl rfl rfl rfl⟩, by rw [tree], sound⟩
  | append_singleton front byte ih =>
    rw [List.append_assoc] at split
    obtain ⟨e1, run1, next⟩ := encodeUpTo_concat.mp run
    obtain ⟨⟨slots, rooted⟩, zero, sound⟩ := ih split run1
    obtain ⟨bits, code, wrote⟩ := encodeByte_run rooted sound (range front byte back e1 split run1) next
    obtain ⟨rooted', zero'⟩ := code.keeps rooted zero
    exact ⟨rooted', zero', wrote.sound⟩

theorem encode_step (begun : Begun ht0 root) (range : EncodeInRange x capacity) {front back : Bytes} {byte : UInt8}
    (split : x = front ++ byte :: back) {e e' : Encoder} (run : encodeUpTo front (Encoder.start capacity) = .ok () e)
    (next : encodeByte byte e = .ok () e') : ∃ bits, Code root e.ht byte bits e'.ht ∧ Wrote e.os e'.os bits := by
  obtain ⟨⟨slots, rooted⟩, _, sound⟩ := encoding begun range split run
  exact encodeByte_run rooted sound (range front byte back e split run) next

theorem encode_extends (begun : Begun ht0 root) (range : EncodeInRange x capacity) {front back : Bytes} (middle : Bytes)
    (split : x = front ++ middle ++ back) {e e' : Encoder} (run : encodeUpTo front (Encoder.start capacity) = .ok () e)
    (run' : encodeUpTo (front ++ middle) (Encoder.start capacity) = .ok () e') :
    ∃ bits, e'.os.written = e.os.written ++ bits := by
  induction middle using List.reverseRecOn generalizing back e' with
  | nil =>
    rw [List.append_nil, run] at run'
    cases run'
    exact ⟨[], by simp⟩
  | append_singleton middle byte ih =>
    rw [← List.append_assoc] at split run'
    rw [List.append_assoc (front ++ middle)] at split
    obtain ⟨e1, run1, next⟩ := encodeUpTo_concat.mp run'
    obtain ⟨bits, written⟩ := ih split run1
    obtain ⟨bits', _, wrote⟩ := encode_step begun range split run1 next
    exact ⟨bits ++ bits', by rw [wrote.written, written, List.append_assoc]⟩

theorem encodeUpTo_front {front back : Bytes} {e' : Encoder}
    (run : encodeUpTo (front ++ back) (Encoder.start capacity) = .ok () e') :
    ∃ e, encodeUpTo front (Encoder.start capacity) = .ok () e := by
  obtain ⟨e, run, _⟩ := encodeUpTo_append.mp run
  exact ⟨e, run⟩

theorem finishStream_run {e e' : Encoder} {r : Int} (encoding : Encoding root e) (run : finishStream e = .ok r e') :
    ∃ i code pad, e.ht.symbolNodes 0x100 = some i ∧ e.ht.path root code = some i ∧
      ofBytes e'.os.out = e.os.written ++ (code ++ pad) ∧ 4 ≤ e'.os.out.length := by
  obtain ⟨slots, rooted⟩ := encoding.rooted
  obtain ⟨i, node, _⟩ := rooted.controls 0x100 (.inl rfl)
  have inside := (rooted.grown.used i).mpr (rooted.symbols _ i node).1
  obtain ⟨_, e1, marker, run⟩ := bind_ok.mp run
  rw [failAs_ok, bind_of_ok (get_run e), node] at marker
  obtain ⟨code, path, _, wrote⟩ := encodeSymbol_run rooted.grown encoding.sound inside marker
  have few := wrote.sound.few
  have small := wrote.sound.small
  -- the buffer filled up to a byte, and the stream to four bytes
  have ends : ∃ out pad, ofBytes out = e1.os.written ++ pad ∧
      e'.os.out = out ++ Bytes.zeros (4 - out.length) := by
    rw [bind_of_ok (get_run e1)] at run
    by_cases none_ : e1.os.bits ≠ 0
    next =>
      rw [if_pos none_, bind_of_ok (get_run _), bind_of_ok (get_run _)] at run
      by_cases room : e1.os.out.length ≥ e1.os.capacity.toNat
      next =>
        rw [if_pos room] at run
        exact absurd run nofun
      next =>
        rw [if_neg room] at run
        cases run
        refine ⟨e1.os.out ++ [e1.os.bitBuf.toUInt8], bitsOf (8 - e1.os.bits) 0, ?_, rfl⟩
        have fits : e1.os.bitBuf.toNat < 2 ^ 8 := small.trans (Nat.pow_lt_pow_right (by decide) few)
        have byte : (e1.os.bitBuf.toUInt8).toNat = e1.os.bitBuf.toNat := by
          rw [UInt32.toNat_toUInt8, Nat.mod_eq_of_lt fits]
        have cut : bitsOf 8 e1.os.bitBuf.toNat = bitsOf e1.os.bits e1.os.bitBuf.toNat ++ bitsOf (8 - e1.os.bits) 0 := by
          have whole := bitsOf_add e1.os.bits (8 - e1.os.bits) e1.os.bitBuf.toNat
          rwa [Nat.add_sub_cancel' (by omega), Nat.div_eq_of_lt small] at whole
        rw [ofBytes_append, ofBytes_cons, byte, cut, OutputStream.written]
        simp
    next =>
      rw [if_neg none_] at run
      cases run
      refine ⟨e1.os.out, [], ?_, rfl⟩
      rw [OutputStream.written, show e1.os.bits = 0 by omega]
      simp [bitsOf]
  obtain ⟨out, pad, whole, final⟩ := ends
  refine ⟨i, code, pad ++ ofBytes (Bytes.zeros (4 - out.length)), node, path, ?_, ?_⟩
  · rw [final, ofBytes_append, whole, wrote.written]
    simp
  · rw [final, List.length_append, Bytes.zeros_length]
    omega

/-- Seven bits or more are there at the last of so many bytes. -/
def Peeks (front : Bytes) (capacity : UInt32) (whole : List Bool) : Prop :=
  ∀ front' byte e, front = front' ++ [byte] → encodeUpTo front' (Encoder.start capacity) = .ok () e →
    e.os.written.length + 7 ≤ whole.length

theorem Peeks.before (begun : Begun ht0 root) (range : EncodeInRange x capacity) {front back : Bytes} {byte : UInt8}
    (split : x = front ++ byte :: back) {e : Encoder} (run : encodeUpTo (front ++ [byte]) (Encoder.start capacity) = .ok () e)
    {whole : List Bool} (peeks : Peeks (front ++ [byte]) capacity whole) : Peeks front capacity whole := by
  rintro front' byte' e' rfl run'
  obtain ⟨e1, run1, _⟩ := encodeUpTo_concat.mp run
  have enough := peeks _ byte e1 rfl run1
  obtain ⟨bits, written⟩ := encode_extends begun range [byte'] split run' run1
  rw [written, List.length_append] at enough
  omega

theorem lockstep_run (begun : Begun ht0 root) (range : EncodeInRange x capacity) {front back : Bytes}
    (split : x = front ++ back) {e : Encoder} (run : encodeUpTo front (Encoder.start capacity) = .ok () e) {inBuf : Bytes}
    (long : 4 ≤ inBuf.length) {rest : List Bool} (whole : ofBytes inBuf = e.os.written ++ rest)
    (peeks : Peeks front capacity (ofBytes inBuf)) {n : Nat} (more : front.length < n) :
    ∃ d0 d, openStream (Decoder.start inBuf) = .ok () d0 ∧
      turns (decodeRound fetchSymbol) front.length n d0 = .ok (.inl (n - front.length)) d ∧
      Lockstep root e.ht d rest front := by
  induction front using List.reverseRecOn generalizing back e rest with
  | nil =>
    obtain ⟨_, e0, start, last⟩ := bind_ok.mp run
    cases last
    obtain ⟨ht, _, _, build, tree, _, _, _, _, written⟩ := beginStream_run start
    rw [begun.build] at build
    cases build
    obtain ⟨slots, rooted⟩ := begun.rooted
    rw [written] at whole
    obtain ⟨d, opened, lock⟩ := openStream_zero rooted begun.build begun.generation begun.cache long whole
    exact ⟨d, d, opened, rfl, tree ▸ lock⟩
  | append_singleton front byte ih =>
    rw [List.append_assoc] at split
    obtain ⟨e1, run1, next⟩ := encodeUpTo_concat.mp run
    obtain ⟨bits, code, wrote⟩ := encode_step begun range split run1 next
    rw [wrote.written, List.append_assoc] at whole
    have enough := peeks front byte e1 rfl run1
    rw [whole, List.length_append] at enough
    rw [List.length_append, List.length_singleton] at more ⊢
    obtain ⟨d0, d1, opened, turned, lock⟩ := ih split run1 whole (peeks.before begun range split run) (by omega)
    obtain ⟨d2, round, lock2⟩ := lock.step (n - front.length) (by omega) code (by omega)
    refine ⟨d0, d2, opened, ?_, lock2⟩
    rw [turns, bind_of_ok turned]
    show decodeRound fetchSymbol (n - front.length) d1 = _
    rw [round, Nat.sub_sub]

theorem lockstep_stops {d : Decoder} {ht : Tree} {view : List Bool} {out : Bytes} (lock : Lockstep root ht d view out)
    (short : view.length < 7) (left : Nat) : ∃ d', decodeRound fetchSymbol left d = .error (.error .unpack) d' := by
  obtain ⟨d', stop⟩ := fetchSymbol_short lock.holds.toSound (by rw [lock.holds.view]; omega)
  exact ⟨d', by rw [decodeRound, bind_of_error stop]⟩

theorem encode_whole (begun : Begun ht0 root) (range : EncodeInRange x capacity) {r : Int} {e : Encoder}
    (run : encode x (Encoder.start capacity) = .ok r e) :
    ∃ e1 i code pad, encodeUpTo x (Encoder.start capacity) = .ok () e1 ∧ Encoding root e1 ∧
      e1.ht.symbolNodes 0x100 = some i ∧ e1.ht.path root code = some i ∧
      ofBytes e.os.out = e1.os.written ++ (code ++ pad) ∧ 4 ≤ e.os.out.length := by
  obtain ⟨_, e0, start, run⟩ := bind_ok.mp run
  obtain ⟨_, e1, each, finish⟩ := bind_ok.mp run
  have upTo : encodeUpTo x (Encoder.start capacity) = .ok () e1 := by rw [encodeUpTo, bind_of_ok start, each]
  have inside := encoding begun range (List.append_nil x).symm upTo
  obtain ⟨i, code, pad, node, path, whole, long⟩ := finishStream_run inside finish
  exact ⟨e1, i, code, pad, upTo, inside, node, path, whole, long⟩

end Run

structure InStep (front : Bytes) (e : Encoder) (d : Decoder) : Prop where
  out : d.out = front
  tree : { d.ht with quickDecodeCache := e.ht.quickDecodeCache } = e.ht

def CodeAhead (byte : UInt8) (e e' : Encoder) (d : Decoder) : Prop :=
  ∃ root code literal rest leaf, e'.os.written = e.os.written ++ (code ++ literal) ∧ d.is.view = code ++ (literal ++ rest) ∧
    rootItem d.ht = .ok (some root) d.ht ∧ d.ht.path root code = some leaf ∧ d.ht.child leaf = none ∧
    (literal = [] ∧ (d.ht.dcmpByte leaf).toNat = byte.toNat ∨
      literal = bitsOf 8 byte.toNat ∧ (d.ht.dcmpByte leaf).toNat = 0x101)

/-- After so many bytes with room for more, the decoder is in step and before the code of the next byte. -/
def Follows (front back : Bytes) (capacity n : UInt32) (inBuf : Bytes) : Prop :=
  ∃ e d0 d, encodeUpTo front (Encoder.start capacity) = .ok () e ∧ openStream (Decoder.start inBuf) = .ok () d0 ∧
    turns (decodeRound fetchSymbol) front.length n.toNat d0 = .ok (.inl (n.toNat - front.length)) d ∧ InStep front e d ∧
    ∀ byte back', back = byte :: back' → ∃ e', encodeByte byte e = .ok () e' ∧ CodeAhead byte e e' d

theorem Lockstep.inStep {root : Nat} {e : Encoder} {d : Decoder} {view : List Bool} {front : Bytes}
    (lock : Lockstep root e.ht d view front) : InStep front e d := by
  obtain ⟨cache, tree, _⟩ := lock.tree
  refine ⟨lock.out, ?_⟩
  rw [tree]
  simp [Tree.disguised]

theorem Lockstep.codeAhead {root : Nat} {e e' : Encoder} {d : Decoder} {bits rest : List Bool} {front : Bytes} {byte : UInt8}
    (lock : Lockstep root e.ht d (bits ++ rest) front) (code : Code root e.ht byte bits e'.ht) (wrote : Wrote e.os e'.os bits) :
    CodeAhead byte e e' d := by
  obtain ⟨slots, rooted⟩ := lock.rooted
  obtain ⟨cache, tree, _⟩ := lock.tree
  have path : ∀ code, d.ht.path root code = e.ht.path root code := fun code =>
    tree ▸ @SameShape.path e.ht (e.ht.disguised 0 cache) ⟨rfl, rfl, rfl, rfl⟩ root code
  have same : Rooted (e.ht.disguised 0 cache) root slots none := rooted.congr ⟨rfl, rfl, rfl, rfl⟩ rfl rfl rfl rfl
  have top : rootItem d.ht = .ok (some root) d.ht := tree ▸ rootItem_run same.grown
  have leaf : ∀ {s i}, e.ht.symbolNodes s = some i → d.ht.child i = none ∧ (d.ht.dcmpByte i).toNat = s := fun node =>
    tree ▸ (rooted.symbols _ _ node).2
  generalize after : e'.ht = ht' at code
  cases code with
  | @known i bits _ node down _ _ =>
    refine ⟨root, bits, [], rest, i, by simpa using wrote.written, lock.holds.view, top, (path bits).trans down,
      (leaf node).1, .inl ⟨rfl, (leaf node).2⟩⟩
  | @new i bits _ node down _ _ =>
    refine ⟨root, bits, bitsOf 8 byte.toNat, rest, i, wrote.written, ?_, top, (path bits).trans down, (leaf node).1,
      .inr ⟨rfl, (leaf node).2⟩⟩
    rw [lock.holds.view, List.append_assoc]

section Whole

variable {x : Bytes} {capacity : UInt32} {r : Int} {e : Encoder}

theorem encode_split {ht0 : Tree} {root : Nat} (begun : Begun ht0 root) (range : EncodeInRange x capacity)
    (run : encode x (Encoder.start capacity) = .ok r e) {front back : Bytes} (split : x = front ++ back) :
    4 ≤ e.os.out.length ∧ ∃ e1 rest, encodeUpTo front (Encoder.start capacity) = .ok () e1 ∧ Encoding root e1 ∧
      ofBytes e.os.out = e1.os.written ++ rest := by
  obtain ⟨ex, i, code, pad, upTo, _, _, _, whole, long⟩ := encode_whole begun range run
  rw [split] at upTo
  obtain ⟨e1, run1⟩ := encodeUpTo_front upTo
  obtain ⟨bits, written⟩ := encode_extends begun range back (by rw [List.append_nil, ← split]) run1 upTo
  refine ⟨long, e1, bits ++ (code ++ pad), run1, encoding begun range split run1, ?_⟩
  rw [whole, written, List.append_assoc]

theorem peeks_of_turns {ht0 : Tree} {root : Nat} (begun : Begun ht0 root) (range : EncodeInRange x capacity)
    (run : encode x (Encoder.start capacity) = .ok r e) {front back : Bytes} (split : x = front ++ back) {n left : Nat}
    (more : front.length < n) {d0 d : Decoder} (opened : openStream (Decoder.start e.os.out) = .ok () d0)
    (turned : turns (decodeRound fetchSymbol) front.length n d0 = .ok (.inl left) d) :
    Peeks front capacity (ofBytes e.os.out) := by
  induction front using List.reverseRecOn generalizing back left d with
  | nil => exact fun front' byte e' none_ => absurd none_ (by simp)
  | append_singleton front byte ih =>
    rw [List.length_append, List.length_singleton] at more turned
    rw [List.append_assoc] at split
    obtain ⟨a, d1, turned1, round⟩ := bind_ok.mp turned
    cases a with
    | inr result => exact absurd round nofun
    | inl left1 =>
      have peeks := ih split (by omega) turned1
      obtain ⟨long, e1, rest, run1, _, whole⟩ := encode_split begun range run split
      obtain ⟨d0', d1', opened', turned', lock⟩ := lockstep_run begun range split run1 long whole peeks
        (show front.length < n by omega)
      rw [opened] at opened'
      cases opened'
      rw [turned1] at turned'
      cases turned'
      have enough : 7 ≤ rest.length := by
        by_contra short
        obtain ⟨d', stop⟩ := lockstep_stops lock (by omega) (n - front.length)
        exact absurd (stop.symm.trans round) nofun
      intro front' byte' e' same run'
      obtain ⟨rfl, _⟩ := List.append_inj' same rfl
      rw [run1] at run'
      cases run'
      rw [whole, List.length_append]
      omega

end Whole

end Huffman

end LibMpq
