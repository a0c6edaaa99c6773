import LibMpq.Base.Chunked

set_option autoImplicit false

namespace Iterated

open Effect Chunked

variable {ε σ τ : Type} {width : Nat} {compress : σ → Bytes → σ}

def blocks (width : Nat) (compress : σ → Bytes → σ) : Nat → Bytes → σ → σ
  | 0, _, s => s
  | count + 1, data, s => blocks width compress count (data.drop width) (compress s (data.take width))

def chained (width : Nat) (compress : σ → Bytes → σ) (start : σ) (message : Bytes) : σ :=
  blocks width compress (message.length / width) message start

theorem blocks_append {count : Nat} {first : Bytes} (whole : first.length = count * width) (more : Nat)
    (second : Bytes) (s : σ) :
    blocks width compress (count + more) (first ++ second) s =
      blocks width compress more second (blocks width compress count first s) := by
  induction count generalizing first s with
  | zero =>
    have none : first = [] := List.length_eq_zero_iff.mp (by simpa using whole)
    simp [none, blocks]
  | succ count ih =>
    have long : width ≤ first.length := by
      rw [whole, Nat.succ_mul]
      omega
    have rest : (first.drop width).length = count * width := by
      rw [List.length_drop, whole, Nat.succ_mul]
      omega
    rw [show count + 1 + more = count + more + 1 by omega, blocks, blocks,
      List.take_append_of_le_length long, List.drop_append_of_le_length long, ih rest]

theorem chained_append {first second : Bytes} (some : 0 < width) (whole : first.length % width = 0)
    (start : σ) :
    chained width compress start (first ++ second) =
      chained width compress (chained width compress start first) second := by
  obtain ⟨count, length⟩ := Nat.dvd_of_mod_eq_zero whole
  rw [Nat.mul_comm] at length
  have more : (count * width + second.length) / width = count + second.length / width := by
    rw [Nat.add_comm, Nat.add_mul_div_right _ _ some, Nat.add_comm]
  rw [chained, List.length_append, length, more, blocks_append length, chained, chained, length,
    Nat.mul_div_cancel _ some]

theorem chained_block {block : Bytes} (some : 0 < width) (whole : block.length = width) (start : σ) :
    chained width compress start block = compress start block := by
  have one : block.length / width = 1 := by rw [whole, Nat.div_self some]
  rw [chained, one, blocks, List.take_of_length_le whole.le]
  rfl

-- A mark, zeros up to the place of the length, and the length in bits.
def fill (length : Nat) : Nat := (119 - length % 64) % 64

def padded (encode : Nat → Bytes) (message : Bytes) : Bytes :=
  message ++ 0x80 :: Bytes.zeros (fill message.length) ++ encode (8 * message.length)

theorem fill_least (length : Nat) :
    (length + 1 + fill length) % 64 = 56 ∧ ∀ n, (length + 1 + n) % 64 = 56 → fill length ≤ n := by
  unfold fill
  exact ⟨by omega, fun n same => by omega⟩

theorem padded_whole {encode : Nat → Bytes} (message : Bytes)
    (eight : (encode (8 * message.length)).length = 8) : (padded encode message).length % 64 = 0 := by
  have least := (fill_least message.length).1
  simp only [padded, List.length_append, List.length_cons, Bytes.zeros_length, eight]
  omega

structure Blockwise (buffer : Buffer ε τ) (width : Nat) (compress : σ → Bytes → σ) (chain : τ → σ)
    (pending : τ → Bytes) : Prop where
  room : ∀ s, buffer.room s = width - (pending s).length
  push : ∀ data s, chain (buffer.push data s) = chain s ∧ pending (buffer.push data s) = pending s ++ data
  flush : ∀ s, ∃ s', buffer.flush s = .ok () s' ∧ chain s' = compress (chain s) (pending s) ∧ pending s' = []

/-- The state after a message: its whole blocks are compressed, the rest is pending. -/
structure Absorbed (width : Nat) (compress : σ → Bytes → σ) (start : σ) (message : Bytes) (chain : σ)
    (pending : Bytes) : Prop where
  short : pending.length < width
  split : ∃ whole, message = whole ++ pending ∧ whole.length % width = 0 ∧
    chain = chained width compress start whole

namespace Absorbed

variable {start : σ} {message pending : Bytes} {chain : σ}

theorem nil (some : 0 < width) (start : σ) : Absorbed width compress start [] start [] where
  short := some
  split := ⟨[], by simp, by simp, by simp [chained, blocks]⟩

theorem append (absorbed : Absorbed width compress start message chain pending) {data : Bytes}
    (short : (pending ++ data).length < width) :
    Absorbed width compress start (message ++ data) chain (pending ++ data) := by
  obtain ⟨whole, joined, aligned, value⟩ := absorbed.split
  exact ⟨short, whole, by rw [joined, List.append_assoc], aligned, value⟩

theorem full (absorbed : Absorbed width compress start message chain pending) {data : Bytes}
    (full : (pending ++ data).length = width) :
    Absorbed width compress start (message ++ data) (compress chain (pending ++ data)) [] := by
  obtain ⟨whole, joined, aligned, value⟩ := absorbed.split
  have some : 0 < width := Nat.lt_of_le_of_lt (Nat.zero_le _) absorbed.short
  refine ⟨some, whole ++ (pending ++ data), by simp [joined], ?_, ?_⟩
  · rw [List.length_append, full, Nat.add_mod_right, aligned]
  · rw [chained_append some aligned, chained_block some full, value]

theorem pending_length (absorbed : Absorbed width compress start message chain pending) :
    pending.length = message.length % width := by
  obtain ⟨whole, joined, aligned, -⟩ := absorbed.split
  rw [joined, List.length_append, Nat.add_mod, aligned, Nat.zero_add, Nat.mod_mod,
    Nat.mod_eq_of_lt absorbed.short]

theorem chain_eq (absorbed : Absorbed width compress start message chain pending)
    (whole : message.length % width = 0) : chain = chained width compress start message := by
  have length := absorbed.pending_length
  rw [whole] at length
  obtain ⟨front, joined, -, value⟩ := absorbed.split
  rw [List.length_eq_zero_iff.mp length, List.append_nil] at joined
  rw [joined, value]

end Absorbed

namespace Blockwise

variable {buffer : Buffer ε τ} {chain : τ → σ} {pending : τ → Bytes}
  (blockwise : Blockwise buffer width compress chain pending)

include blockwise

theorem step {start : σ} {message part : Bytes} {s s' : τ}
    (absorbed : Absorbed width compress start message (chain s) (pending s))
    (fits : part.length ≤ buffer.room s) (run : buffer.step part s = .ok () s') :
    Absorbed width compress start (message ++ part) (chain s') (pending s') := by
  obtain ⟨kept, longer⟩ := blockwise.push part s
  have short := absorbed.short
  have room := blockwise.room (buffer.push part s)
  rw [blockwise.room] at fits
  rw [longer, List.length_append] at room
  rw [Buffer.step_run] at run
  split at run
  next =>
    obtain ⟨t, flushed, value, empty⟩ := blockwise.flush (buffer.push part s)
    rw [flushed] at run
    cases run
    rw [value, empty, kept, longer]
    exact absorbed.full (by rw [List.length_append]; omega)
  next =>
    cases run
    rw [kept, longer]
    exact absorbed.append (by rw [List.length_append]; omega)

theorem feed {Q : Bytes → τ → Prop}
    (copies : ∀ x part s s', Q x s → buffer.step part s = .ok () s' → Q (x ++ part) s')
    {start : σ} {message data : Bytes} {s s' : τ} {fuel : Nat}
    (absorbed : Absorbed width compress start message (chain s) (pending s)) (extra : Q message s)
    (enough : data.length ≤ fuel) (run : buffer.feed fuel data s = .ok () s') :
    Absorbed width compress start (message ++ data) (chain s') (pending s') ∧ Q (message ++ data) s' := by
  have opens : ∀ x s, Absorbed width compress start x (chain s) (pending s) ∧ Q x s → 0 < buffer.room s := by
    intro x s both
    have := both.1.short
    rw [blockwise.room]
    omega
  refine @Buffer.feed_ok _ _ _ (fun x s => Absorbed width compress start x (chain s) (pending s) ∧ Q x s)
    ?_ opens _ _ _ _ _ ⟨absorbed, extra⟩ enough run
  intro x part s s' both fits step
  exact ⟨blockwise.step both.1 fits step, copies x part s s' both.2 step⟩

end Blockwise

end Iterated
