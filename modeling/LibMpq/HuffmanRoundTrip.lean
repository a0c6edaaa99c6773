import LibMpq.HuffmanCounters

set_option autoImplicit false

namespace LibMpq

open Effect Function Sibling Bitstream

namespace Huffman

section Whole

variable {x : Bytes} {capacity : UInt32} {r : Int} {e : Encoder}

theorem Peeks.of_last (some_ : x ≠ []) {whole : List Bool}
    (enough : ∀ e1, encodeUpTo x.dropLast (Encoder.start capacity) = .ok () e1 → e1.os.written.length + 7 ≤ whole.length) :
    Peeks x capacity whole := by
  rintro front byte e1 rfl run
  exact enough e1 (by rwa [List.dropLast_concat])

theorem huffman_lockstep (run : encode x (Encoder.start capacity) = .ok r e) (range : EncodeInRange x capacity)
    (front back : Bytes) (split : x = front ++ back) (n : UInt32) (more : front.length < n.toNat) :
    Follows front back capacity n e.os.out ↔ Peeks front capacity (ofBytes e.os.out) := by
  obtain ⟨ht0, root, begun⟩ := begun
  constructor
  · rintro ⟨e1, d0, d, _, opened, turned, _⟩
    exact peeks_of_turns begun range run split more opened turned
  · intro peeks
    obtain ⟨long, e1, rest, run1, _, whole⟩ := encode_split begun range run split
    obtain ⟨d0, d, opened, turned, lock⟩ := lockstep_run begun range split run1 long whole peeks more
    refine ⟨e1, d0, d, run1, opened, turned, lock.inStep, ?_⟩
    rintro byte back' rfl
    have cut : x = (front ++ [byte]) ++ back' := by rw [split, List.append_assoc]; rfl
    obtain ⟨_, e2, rest2, run2, _, whole2⟩ := encode_split begun range run cut
    obtain ⟨e1', run1', next⟩ := encodeUpTo_concat.mp run2
    rw [run1] at run1'
    cases run1'
    obtain ⟨bits, code, wrote⟩ := encode_step begun range split run1 next
    rw [whole, wrote.written, List.append_assoc, List.append_cancel_left_eq] at whole2
    exact ⟨e2, next, (whole2 ▸ lock).codeAhead code wrote⟩

end Whole

-- Whether seven bits or more are left behind so many bytes.
def sevenAfter (front : Bytes) (capacity : UInt32) (stream : Bytes) : Bool :=
  match encodeUpTo front (Encoder.start capacity) with
  | .ok _ e => decide (e.os.written.length + 7 ≤ (ofBytes stream).length)
  | .error _ _ => true

theorem sevenAfter_ok {front stream : Bytes} {capacity : UInt32} (enough : sevenAfter front capacity stream = true)
    {e : Encoder} (run : encodeUpTo front (Encoder.start capacity) = .ok () e) :
    e.os.written.length + 7 ≤ (ofBytes stream).length := by
  unfold sevenAfter at enough
  rw [run] at enough
  exact of_decide_eq_true enough

def hello : Bytes := [0x68, 0x65, 0x6C, 0x6C, 0x6F]

def helloRun : Bool :=
  match encode hello (Encoder.start 64) with
  | .ok _ e => [3, 4, 5].all fun k => sevenAfter (hello.take k) 64 e.os.out
  | .error _ _ => false

theorem hello_encoded : ∃ r e, encode hello (Encoder.start 64) = .ok r e ∧
    ∀ k ∈ [3, 4, 5], sevenAfter (hello.take k) 64 e.os.out = true := by
  have runs : helloRun = true := by decide +kernel
  unfold helloRun at runs
  cases run : encode hello (Encoder.start 64) with
  | error f e =>
    rw [run] at runs
    cases runs
  | ok r e =>
    rw [run] at runs
    exact ⟨r, e, rfl, List.all_eq_true.mp runs⟩

-- three new letters and an update, before another new letter
theorem huffman_lockstep_hello : ∃ r e, encode hello (Encoder.start 64) = .ok r e ∧
    Follows [0x68, 0x65, 0x6C, 0x6C] [0x6F] 64 5 e.os.out := by
  obtain ⟨r, e, run, enough⟩ := hello_encoded
  refine ⟨r, e, run, (huffman_lockstep run (encodeInRange_short (by decide) 64) _ _ rfl 5 (by decide)).mpr ?_⟩
  exact Peeks.of_last (by decide) fun _ upTo => sevenAfter_ok (enough 3 (by decide)) upTo

theorem nineteen_zeros :
    (match encode (List.replicate 19 0) (Encoder.start 64) with
      | .ok _ e =>
        (match openStream (Decoder.start e.os.out) with
          | .ok _ d =>
            (match turns (decodeRound fetchSymbol) 19 20 d with
              | .ok (.inl _) _ => false
              | _ => true)
          | _ => true) &&
        (match decompressHuffman e.os.out 19 with
          | .ok _ _ => false
          | _ => true)
      | _ => false) = true := by
  decide +kernel

theorem huffman_lockstep_nineteen : ¬ ∀ (x : Bytes) (capacity : UInt32) (r : Int) (e : Encoder),
    encode x (Encoder.start capacity) = .ok r e → ∀ (front back : Bytes) (n : UInt32), x = front ++ back →
      front.length < n.toNat → Follows front back capacity n e.os.out := by
  intro always
  have stops := nineteen_zeros
  cases run : encode (List.replicate 19 0) (Encoder.start 64) with
  | error f e =>
    rw [run] at stops
    exact absurd stops nofun
  | ok r e =>
    rw [run] at stops
    obtain ⟨_, d0, d, _, opened, turned, _⟩ := always _ _ _ _ run (List.replicate 19 0) [] 20 (List.append_nil _).symm
      (by decide)
    have turned : turns (decodeRound fetchSymbol) 19 20 d0 = .ok (.inl 1) d := turned
    simp only [opened, turned] at stops
    exact absurd stops nofun

theorem rounds_result {ε σ α β : Type} {body : α → Op (Stop ε) σ (α ⊕ β)} {fuel : Nat} {a : α} {b : β} {s s' : σ}
    (run : rounds body fuel a s = .ok b s') : ∃ a' s1, body a' s1 = .ok (.inr b) s' := by
  induction fuel generalizing a s with
  | zero => exact absurd run nofun
  | succ fuel ih =>
    obtain ⟨next, s1, step, rest⟩ := bind_ok.mp run
    cases next with
    | inl a' => exact ih rest
    | inr b' =>
      cases rest
      exact ⟨a, s, step⟩

theorem returned_small (out : Bytes) : returned out < 2 ^ 31 := Int32.toInt_lt _

theorem returned_of_small {out : Bytes} (small : out.length < 2 ^ 31) : returned out = out.length :=
  Int32.toInt_ofNat_of_lt small

theorem emit_returns {symbol : UInt32} {left : Nat} {d d' : Decoder} {r : Int}
    (run : emit symbol left d = .ok (.inr r) d') : r < 2 ^ 31 := by
  by_cases marker : symbol = 0x100
  next =>
    rw [marker, emit_end] at run
    cases run
    exact returned_small _
  by_cases last : left - 1 = 0
  next =>
    rw [emit_last marker last] at run
    cases run
    exact returned_small _
  next =>
    rw [emit_more marker last] at run
    obtain ⟨_, d1, _, done⟩ := bind_ok.mp run
    cases done

theorem decodeRound_returns {left : Nat} {d d' : Decoder} {r : Int}
    (run : decodeRound fetchSymbol left d = .ok (.inr r) d') : r < 2 ^ 31 := by
  obtain ⟨symbol, d1, _, rest⟩ := bind_ok.mp run
  cases symbol with
  | none =>
    cases rest
    decide
  | some symbol =>
    have rest : digest symbol left d1 = .ok (.inr r) d' := rest
    unfold digest at rest
    split at rest
    next =>
      obtain ⟨value, d2, _, rest⟩ := bind_ok.mp rest
      obtain ⟨_, d3, _, rest⟩ := bind_ok.mp rest
      obtain ⟨new, d4, _, rest⟩ := bind_ok.mp rest
      cases new with
      | true => exact emit_returns rest
      | false =>
        cases rest
        decide
    next => exact emit_returns rest

theorem decode_returns {n : UInt32} {d d' : Decoder} {r : Int} (run : decode n d = .ok r d') : r < 2 ^ 31 := by
  rw [decode, decodeWith] at run
  split at run
  next =>
    cases run
    decide
  next =>
    obtain ⟨_, d1, _, rest⟩ := bind_ok.mp run
    obtain ⟨_, d2, round⟩ := rounds_result rest
    exact decodeRound_returns round

theorem decompress_returns {stream : Bytes} {n : UInt32} {d : Decoder} {r : Int}
    (run : decompressHuffman stream n = .ok r d) : r < 2 ^ 31 := by
  unfold decompressHuffman at run
  split at run
  next => cases run
  next => exact decode_returns run

theorem decode_from {n : UInt32} {start d0 d : Decoder} {k left : Nat} (more : k < n.toNat)
    (opened : openStream start = .ok () d0) (turned : turns (decodeRound fetchSymbol) k n.toNat d0 = .ok (.inl left) d) :
    ∃ fuel, decode n start = rounds (decodeRound fetchSymbol) (fuel + 1) left d := by
  have some_ : ¬ n = 0 := by
    rintro rfl
    exact absurd more (Nat.not_lt_zero _)
  refine ⟨n.toNat - k - 1, ?_⟩
  have cut := rounds_add (decodeRound fetchSymbol) k (n.toNat - k - 1 + 1) n.toNat d0
  rw [show k + (n.toNat - k - 1 + 1) = n.toNat by omega] at cut
  rw [decode, decodeWith, if_neg some_, bind_of_ok opened, cut, bind_of_ok turned]
  rfl

section RoundTrip

variable {x : Bytes} {capacity : UInt32} {r : Int} {e : Encoder} {ht0 : Tree} {root : Nat}

theorem Peeks.of_end (begun : Begun ht0 root) (range : EncodeInRange x capacity) {e1 : Encoder}
    (run : encodeUpTo x (Encoder.start capacity) = .ok () e1) {whole : List Bool}
    (enough : e1.os.written.length + 7 ≤ whole.length) : Peeks x capacity whole := by
  rintro front byte e' rfl run'
  obtain ⟨bits, written⟩ := encode_extends begun range [byte] (List.append_nil _).symm run' run
  rw [written, List.length_append] at enough
  omega

theorem decode_encode (begun : Begun ht0 root) (range : EncodeInRange x capacity)
    (run : encode x (Encoder.start capacity) = .ok r e) (small : x.length < 2 ^ 31) {n : UInt32}
    (more : x.length < n.toNat) {e1 : Encoder} (upTo : encodeUpTo x (Encoder.start capacity) = .ok () e1)
    (enough : e1.os.written.length + 7 ≤ (ofBytes e.os.out).length) :
    ∃ d, decode n (Decoder.start e.os.out) = .ok (x.length : Int) d ∧ d.out = x := by
  have peeks := Peeks.of_end begun range upTo enough
  obtain ⟨ex, i, code, pad, run1, _, node, path, whole, long⟩ := encode_whole begun range run
  rw [upTo] at run1
  cases run1
  obtain ⟨d0, d, opened, turned, lock⟩ := lockstep_run begun range (List.append_nil x).symm upTo long whole peeks more
  have seven : 7 ≤ (code ++ pad).length := by
    rw [whole, List.length_append] at enough
    omega
  obtain ⟨d', round, out⟩ := lock.ends (n.toNat - x.length) seven node path
  obtain ⟨fuel, from_⟩ := decode_from more opened turned
  refine ⟨d', ?_, out⟩
  rw [from_, rounds_done round, returned_of_small small]

theorem decode_encode_full (begun : Begun ht0 root) (range : EncodeInRange x capacity)
    (run : encode x (Encoder.start capacity) = .ok r e) (some_ : x ≠ []) (small : x.length < 2 ^ 31) {n : UInt32}
    (full : n.toNat = x.length) (peeks : Peeks x capacity (ofBytes e.os.out)) :
    ∃ d, decode n (Decoder.start e.os.out) = .ok (x.length : Int) d ∧ d.out = x := by
  obtain ⟨front, byte, rfl⟩ : ∃ front byte, x = front ++ [byte] := by
    rcases List.eq_nil_or_concat x with nil | ⟨front, byte, is⟩
    · exact absurd nil some_
    · exact ⟨front, byte, by rw [is, List.concat_eq_append]⟩
  obtain ⟨_, e1, rest1, upTo, _, whole1⟩ := encode_split begun range run (List.append_nil _).symm
  obtain ⟨long, e2, rest, run2, _, whole⟩ := encode_split begun range run rfl
  rw [List.length_append, List.length_singleton] at full
  have shorter : Peeks front capacity (ofBytes e.os.out) := Peeks.before begun range rfl upTo peeks
  obtain ⟨d0, d, opened, turned, lock⟩ := lockstep_run begun range rfl run2 long whole shorter
    (show front.length < n.toNat by omega)
  obtain ⟨e2', run2', next⟩ := encodeUpTo_concat.mp upTo
  rw [run2] at run2'
  cases run2'
  obtain ⟨bits, code, wrote⟩ := encode_step begun range rfl run2 next
  have cut : rest = bits ++ rest1 := by
    rw [whole, wrote.written, List.append_assoc, List.append_cancel_left_eq] at whole1
    exact whole1
  have seven : 7 ≤ (bits ++ rest1).length := by
    have := peeks front byte e2 rfl run2
    rw [whole, List.length_append, cut] at this
    omega
  obtain ⟨d', round, out⟩ := (cut ▸ lock).last (n.toNat - front.length) seven code (by omega)
  obtain ⟨fuel, from_⟩ := decode_from (show front.length < n.toNat by omega) opened turned
  refine ⟨d', ?_, out⟩
  rw [from_, rounds_done round, returned_of_small small]

theorem enough_of_decode (begun : Begun ht0 root) (range : EncodeInRange x capacity)
    (run : encode x (Encoder.start capacity) = .ok r e) {n : UInt32} {r' : Int} {d' : Decoder}
    (done : decode n (Decoder.start e.os.out) = .ok r' d') {front back : Bytes} (split : x = front ++ back)
    (more : front.length < n.toNat) (peeks : Peeks front capacity (ofBytes e.os.out)) {e1 : Encoder}
    (upTo : encodeUpTo front (Encoder.start capacity) = .ok () e1) :
    e1.os.written.length + 7 ≤ (ofBytes e.os.out).length := by
  obtain ⟨long, e1', rest, run1, _, whole⟩ := encode_split begun range run split
  rw [upTo] at run1
  cases run1
  obtain ⟨d0, d, opened, turned, lock⟩ := lockstep_run begun range split upTo long whole peeks more
  by_contra short
  rw [whole, List.length_append] at short
  obtain ⟨d1, stop⟩ := lockstep_stops lock (by omega) (n.toNat - front.length)
  obtain ⟨fuel, from_⟩ := decode_from more opened turned
  rw [from_, rounds_error stop] at done
  exact absurd done nofun

theorem peeks_of_decode (begun : Begun ht0 root) (range : EncodeInRange x capacity)
    (run : encode x (Encoder.start capacity) = .ok r e) {n : UInt32} {r' : Int} {d' : Decoder}
    (done : decode n (Decoder.start e.os.out) = .ok r' d') (front back : Bytes) (split : x = front ++ back)
    (more : front.length ≤ n.toNat) : Peeks front capacity (ofBytes e.os.out) := by
  induction front using List.reverseRecOn generalizing back with
  | nil => exact fun front' byte e' none_ => absurd none_ (by simp)
  | append_singleton front byte ih =>
    rw [List.append_assoc] at split
    rw [List.length_append, List.length_singleton] at more
    have peeks := ih ([byte] ++ back) split (by omega)
    intro front' byte' e' same run'
    obtain ⟨rfl, _⟩ := List.append_inj' same rfl
    exact enough_of_decode begun range run done split (by omega) peeks run'

def beforeLast (x : Bytes) (n : UInt32) : Bytes :=
  if x.length < n.toNat then x else x.dropLast

theorem beforeLast_split (some_ : x ≠ []) {n : UInt32} (room : x.length ≤ n.toNat) :
    ∃ back, x = beforeLast x n ++ back ∧ (beforeLast x n).length < n.toNat := by
  unfold beforeLast
  split
  next more => exact ⟨[], (List.append_nil x).symm, more⟩
  next =>
    have one : 0 < x.length := List.length_pos_iff.mpr some_
    refine ⟨[x.getLast some_], (List.dropLast_append_getLast some_).symm, ?_⟩
    rw [List.length_dropLast]
    omega

/-- Seven bits or more are there where the decoder fetches its last symbol. -/
def SevenAhead (x : Bytes) (n capacity : UInt32) (stream : Bytes) : Prop :=
  ∀ e, encodeUpTo (beforeLast x n) (Encoder.start capacity) = .ok () e →
    e.os.written.length + 7 ≤ (ofBytes stream).length

-- Seven bits ahead are enough for the bytes to come back, and while the generations fit
-- nothing less is.
theorem huffman_round_trip (some_ : x ≠ []) (run : encode x (Encoder.start capacity) = .ok r e) (n : UInt32)
    (room : x.length ≤ n.toNat) :
    (x.length < 2 ^ 31 ∧ GenerationsFit x capacity ∧ SevenAhead x n capacity e.os.out →
      ∃ d, decompressHuffman e.os.out n = .ok (x.length : Int) d ∧ d.out = x) ∧
    ((∃ d, decompressHuffman e.os.out n = .ok (x.length : Int) d ∧ d.out = x) →
      x.length < 2 ^ 31 ∧ (GenerationsFit x capacity → SevenAhead x n capacity e.os.out)) := by
  obtain ⟨ht0, root, begun⟩ := begun
  have decompress : 4 ≤ e.os.out.length → decompressHuffman e.os.out n = decode n (Decoder.start e.os.out) := fun long => by
    rw [decompressHuffman, if_neg (by omega)]
  constructor
  · rintro ⟨small, generations, ahead⟩
    have range := generations.inRange small
    obtain ⟨long, _⟩ := encode_split begun range run (List.append_nil x).symm
    rw [decompress long]
    by_cases more : x.length < n.toNat
    next =>
      obtain ⟨e1, _, _, _, upTo, _⟩ := encode_whole begun range run
      exact decode_encode begun range run small more upTo (ahead e1 (by rwa [beforeLast, if_pos more]))
    next =>
      refine decode_encode_full begun range run some_ small (by omega) (Peeks.of_last some_ fun e1 upTo => ahead e1 ?_)
      rwa [beforeLast, if_neg more]
  · rintro ⟨d, done, _⟩
    have small : x.length < 2 ^ 31 := by
      have := decompress_returns done
      omega
    refine ⟨small, fun generations e1 upTo => ?_⟩
    have range := generations.inRange small
    obtain ⟨long, _⟩ := encode_split begun range run (List.append_nil x).symm
    rw [decompress long] at done
    obtain ⟨back, split, more⟩ := beforeLast_split some_ room
    exact enough_of_decode begun range run done split more (peeks_of_decode begun range run done _ back split (by omega)) upTo

end RoundTrip

theorem huffman_round_trip_hello : ∃ r e, encode hello (Encoder.start 64) = .ok r e ∧
    (∃ d, decompressHuffman e.os.out 5 = .ok 5 d ∧ d.out = hello) ∧
    ∃ d, decompressHuffman e.os.out 6 = .ok 5 d ∧ d.out = hello := by
  obtain ⟨r, e, run, enough⟩ := hello_encoded
  have fit := (encodeInRange_short (x := hello) (by decide) 64).generations
  refine ⟨r, e, run, (huffman_round_trip (by decide) run 5 (by decide)).1 ⟨by decide, fit, fun _ upTo => ?_⟩,
    (huffman_round_trip (by decide) run 6 (by decide)).1 ⟨by decide, fit, fun _ upTo => ?_⟩⟩
  · exact sevenAfter_ok (enough 4 (by decide)) upTo
  · exact sevenAfter_ok (enough 5 (by decide)) upTo

theorem huffman_round_trip_nineteen : ¬ ∀ (x : Bytes) (capacity : UInt32) (r : Int) (e : Encoder), x ≠ [] →
    encode x (Encoder.start capacity) = .ok r e → ∀ n : UInt32, x.length ≤ n.toNat →
      ∃ d, decompressHuffman e.os.out n = .ok (x.length : Int) d ∧ d.out = x := by
  intro always
  have stops := nineteen_zeros
  cases run : encode (List.replicate 19 0) (Encoder.start 64) with
  | error f e =>
    rw [run] at stops
    exact absurd stops nofun
  | ok r e =>
    rw [run] at stops
    obtain ⟨d, done, _⟩ := always _ _ _ _ (by simp) run 19 (by decide)
    simp [done] at stops

end Huffman

end LibMpq
