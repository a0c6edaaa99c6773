import LibMpq.HuffmanUnseen
import LibMpq.HuffmanWalk

set_option autoImplicit false

-- An entry as old as the tree is shows where the walk from the root comes to with the first
-- seven bits. Whenever items trade places the generation moves on and leaves all entries
-- behind, unless it starts again from zero.

namespace LibMpq

open Effect Function Sibling Bitstream

namespace Huffman

def Describes (ht : Tree) (root index : Nat) (entry : QuickDecode) : Prop :=
  match entry.value with
  | .inr item => 7 < entry.bits.toNat ∧ ∃ i, item = some i ∧ ht.path root (bitsOf 7 index) = some i ∧ ht.child i ≠ none
  | .inl symbol => entry.bits.toNat ≤ 7 ∧ ∃ leaf, ht.path root (bitsOf entry.bits.toNat index) = some leaf ∧
      ht.child leaf = none ∧ ht.dcmpByte leaf = symbol

structure Cached (ht : Tree) (root : Nat) : Prop where
  past : ∀ index < 0x80, (ht.quickDecodeCache index).generation ≤ ht.generation
  current : ∀ index < 0x80, (ht.quickDecodeCache index).generation = ht.generation →
    Describes ht root index (ht.quickDecodeCache index)

theorem path_leaf {ht : Tree} {i j : Nat} {bits : List Bool} (leaf : ht.child i = none) (path : ht.path i bits = some j) :
    bits = [] ∧ j = i := by
  cases bits with
  | nil => exact ⟨rfl, (Option.some.inj path).symm⟩
  | cons bit bits =>
    rw [Tree.path, Tree.turn, leaf] at path
    cases path

theorem path_unique {ht : Tree} {i leaf leaf' : Nat} {bits bits' rest rest' : List Bool} (path : ht.path i bits = some leaf)
    (free : ht.child leaf = none) (path' : ht.path i bits' = some leaf') (free' : ht.child leaf' = none)
    (same : bits ++ rest = bits' ++ rest') : bits = bits' ∧ leaf = leaf' := by
  rcases List.append_eq_append_iff.mp same with ⟨more, rfl, _⟩ | ⟨more, rfl, _⟩
  · rw [path_append, path] at path'
    obtain ⟨rfl, rfl⟩ := path_leaf free path'
    exact ⟨by simp, rfl⟩
  · rw [path_append, path'] at path
    obtain ⟨rfl, rfl⟩ := path_leaf free' path
    exact ⟨by simp, rfl⟩

theorem Describes.congr {ht ht' : Tree} {root index : Nat} {entry : QuickDecode} (describes : Describes ht root index entry)
    (shape : SameShape ht ht') (dcmpByte : ht'.dcmpByte = ht.dcmpByte) : Describes ht' root index entry := by
  unfold Describes at *
  simp only [shape.path, shape.child, dcmpByte]
  exact describes

theorem Cached.older {ht ht' : Tree} {root : Nat} (cached : Cached ht root) (later : ht.generation < ht'.generation)
    (same : ht'.quickDecodeCache = ht.quickDecodeCache) : Cached ht' root := by
  have past : ∀ index < 0x80, (ht'.quickDecodeCache index).generation < ht'.generation := by
    intro index below
    rw [same]
    exact UInt32.lt_of_le_of_lt (cached.past index below) later
  exact ⟨fun index below => UInt32.le_of_lt (past index below),
    fun index below now => absurd now (UInt32.ne_of_lt (past index below))⟩

theorem generation_later {a : UInt32} {trades : Nat} (positive : 0 < trades) (room : a.toNat + trades < 2 ^ 32) :
    a < a + UInt32.ofNat trades := by
  have small : (UInt32.ofNat trades).toNat = trades := UInt32.toNat_ofNat_of_lt' (by simp [UInt32.size]; omega)
  rw [UInt32.lt_iff_toNat_lt, UInt32.toNat_add, small, Nat.mod_eq_of_lt room]
  omega

theorem fillCache_apply (entry : QuickDecode) (add fuel index : Nat) (cache : Nat → QuickDecode) (i : Nat) :
    fillCache entry add fuel index cache i = cache i ∨
      fillCache entry add fuel index cache i = entry ∧ ∃ j, i = index + add * j := by
  induction fuel generalizing index cache with
  | zero => exact .inl rfl
  | succ fuel ih =>
    rw [fillCache]
    by_cases within : index ≤ 0x7F
    next =>
      rw [if_pos within]
      rcases ih (index + add) (update cache index entry) with same | ⟨new, j, place⟩
      · rw [same]
        by_cases here : i = index
        next =>
          rw [here, update_self]
          exact .inr ⟨rfl, 0, rfl⟩
        next =>
          rw [update_of_ne here]
          exact .inl rfl
      · exact .inr ⟨new, j + 1, by rw [place, Nat.mul_add]; omega⟩
    next =>
      rw [if_neg within]
      exact .inl rfl

theorem mask_ones : ∀ count < 8, 0 < count →
    ((0xFFFFFFFF : UInt32) >>> (32 - UInt32.ofNat count)).toNat = 2 ^ count - 1 := by
  decide

theorem Cached.put {ht : Tree} {root : Nat} (cached : Cached ht root) {cache : Nat → QuickDecode}
    (each : ∀ index < 0x80, cache index = ht.quickDecodeCache index ∨
      (cache index).generation = ht.generation ∧ Describes ht root index (cache index)) :
    Cached { ht with quickDecodeCache := cache } root := by
  refine ⟨fun index below => ?_, fun index below now => ?_⟩
  · show (cache index).generation ≤ ht.generation
    rcases each index below with same | ⟨now, _⟩
    · rw [same]
      exact cached.past index below
    · exact now ▸ UInt32.le_refl _
  · have now : (cache index).generation = ht.generation := now
    have describes : Describes ht root index (cache index) := by
      rcases each index below with same | ⟨_, describes⟩
      · rw [same] at now ⊢
        exact cached.current index below now
      · exact describes
    exact describes.congr ⟨rfl, rfl, rfl, rfl⟩ rfl

section Walk

variable {ht : Tree} {root : Nat} {slots : List (Slot Nat)} {due : Option Nat}

def Walk.start (root : Nat) : Walk := { item := root, bitCount := 0, seventh := none }

def Walk.done (ht : Tree) (root : Nat) (bits : List Bool) (leaf : Nat) : Walk :=
  { item := leaf, bitCount := bits.length, seventh := seventhOf ht (Walk.start root) bits }

theorem record_run (grown : Grown ht [root] slots due) (internal : ht.child root ≠ none) (cached : Cached ht root)
    {bits rest : List Bool} {n7bits : UInt32} (window : n7bits.toNat = value ((bits ++ rest).take 7))
    (enough : 7 ≤ (bits ++ rest).length) {leaf : Nat} (path : ht.path root bits = some leaf) (free : ht.child leaf = none) :
    ∃ cache, record n7bits (Walk.done ht root bits leaf) ht = .ok () { ht with quickDecodeCache := cache } ∧
      Cached { ht with quickDecodeCache := cache } root := by
  have short := grown.path_short (by simp) path
  have count : (UInt32.ofNat bits.length).toNat = bits.length :=
    UInt32.toNat_ofNat_of_lt' (by unfold poolSize at short; simp [UInt32.size]; omega)
  have full : ((bits ++ rest).take 7).length = 7 := by rw [List.length_take]; omega
  have seven : bitsOf 7 n7bits.toNat = (bits ++ rest).take 7 := by rw [window, bitsOf_value_of_length full]
  rw [record, bind_of_ok (get_run ht)]
  by_cases long : (Walk.done ht root bits leaf).bitCount > 7
  next =>
    rw [if_pos long]
    have long : 7 < bits.length := long
    refine ⟨_, modify_run _ _, cached.put fun index below => ?_⟩
    by_cases here : index = n7bits.toNat
    next =>
      rw [here, update_self]
      obtain ⟨i, first, further⟩ : ∃ i, ht.path root (bits.take 7) = some i ∧ ht.path i (bits.drop 7) = some leaf := by
        rw [← List.take_append_drop 7 bits, path_append] at path
        exact Option.bind_eq_some_iff.mp path
      have seventh : seventhOf ht (Walk.start root) bits = some i := by
        rw [seventhOf, if_pos ⟨Nat.zero_lt_succ 6, by simp [Walk.start]; omega⟩]
        exact first
      refine .inr ⟨rfl, ?_, i, seventh, ?_, fun leaf' => ?_⟩
      · show 7 < (UInt32.ofNat bits.length).toNat
        rwa [count]
      · rw [seven, List.take_append_of_le_length (by omega), first]
      · have := congrArg List.length (path_leaf leaf' further).1
        rw [List.length_drop, List.length_nil] at this
        omega
    next =>
      rw [update_of_ne here]
      exact .inl rfl
  next =>
    rw [if_neg long]
    have long : ¬ 7 < bits.length := long
    refine ⟨_, modify_run _ _, cached.put fun index below => ?_⟩
    have some_ : 0 < bits.length := by
      cases bits with
      | nil =>
        obtain rfl := Option.some.inj path
        exact absurd free internal
      | cons bit bits => exact Nat.zero_lt_succ _
    have base : (n7bits &&& 0xFFFFFFFF >>> (32 - UInt32.ofNat bits.length)).toNat = n7bits.toNat % 2 ^ bits.length := by
      rw [UInt32.toNat_and, mask_ones _ (by omega) some_, Nat.and_two_pow_sub_one_eq_mod]
    rcases fillCache_apply _ (2 ^ (Walk.done ht root bits leaf).bitCount) 0x80 _ ht.quickDecodeCache index with same | ⟨new, j, place⟩
    · exact .inl same
    · rw [new]
      refine .inr ⟨rfl, ?_, leaf, ?_, free, rfl⟩
      · show (UInt32.ofNat bits.length).toNat ≤ 7
        omega
      · show ht.path root (bitsOf (UInt32.ofNat bits.length).toNat index) = some leaf
        have place : index = (n7bits &&& 0xFFFFFFFF >>> (32 - UInt32.ofNat bits.length)).toNat + 2 ^ bits.length * j := place
        have same : bitsOf bits.length index = bits := by
          rw [place, base, ← bitsOf_mod, Nat.add_mul_mod_self_left, Nat.mod_mod, bitsOf_mod,
            ← take_bitsOf (show bits.length ≤ 7 by omega), seven, List.take_take, Nat.min_eq_left (by omega), List.take_left]
        rw [count, same, path]

end Walk

section Symbols

variable {d : Decoder} {root : Nat} {slots : List (Slot Nat)} {due : Option Nat}

theorem walkFrom_run (grown : Grown d.ht [root] slots due) {i : Nat} (inside : i ∈ [root] ++ flat slots)
    (internal : d.ht.child i ≠ none) {bits rest : List Bool} (holds : d.is.Holds (bits ++ rest)) {leaf : Nat}
    (path : d.ht.path i bits = some leaf) (free : d.ht.child leaf = none) :
    ∃ is, walkFrom (some i) d = .ok (some (Walk.done d.ht i bits leaf)) { d with is := is } ∧ is.Holds rest := by
  have short := grown.path_short inside path
  obtain ⟨is, run, holds'⟩ := @walk_run _ _ _ _ (Walk.start i) grown inside internal _ _ holds _ path free (poolSize + 1)
    (by omega)
  refine ⟨is, ?_, holds'⟩
  rw [walkFrom, show ({ item := i, bitCount := 0, seventh := none } : Walk) = Walk.start i from rfl, run]
  simp [Walk.done, Walk.start]

theorem walkFrom_fails (grown : Grown d.ht [root] slots due) {i : Nat} (inside : i ∈ [root] ++ flat slots)
    (internal : d.ht.child i ≠ none) {bits : List Bool} (holds : d.is.Holds bits) {last : Nat}
    (path : d.ht.path i bits = some last) (more : d.ht.child last ≠ none) :
    ∃ is, walkFrom (some i) d = .error (.error .unpack) { d with is := is } ∧ is.Spent := by
  have short := grown.path_short inside path
  exact @walk_fails _ _ _ _ (Walk.start i) grown inside internal _ holds _ path more (poolSize + 1) (by omega)

theorem walkSymbol_run (rooted : Rooted d.ht root slots due) {bits rest : List Bool} (holds : d.is.Holds (bits ++ rest))
    {leaf : Nat} (path : d.ht.path root bits = some leaf) (free : d.ht.child leaf = none) :
    ∃ is, walkSymbol d = .ok (some (d.ht.dcmpByte leaf)) { d with is := is } ∧ is.Holds rest := by
  obtain ⟨is, run, holds'⟩ := walkFrom_run rooted.grown (by simp) rooted.internal holds path free
  refine ⟨is, ?_, holds'⟩
  rw [walkSymbol, bind_of_ok (onTree_ok (rootItem_run rooted.grown)), bind_of_ok run]
  rfl

theorem walkSymbol_fails (rooted : Rooted d.ht root slots due) {bits : List Bool} (holds : d.is.Holds bits) {last : Nat}
    (path : d.ht.path root bits = some last) (more : d.ht.child last ≠ none) :
    ∃ is, walkSymbol d = .error (.error .unpack) { d with is := is } ∧ is.Spent := by
  obtain ⟨is, run, spent⟩ := walkFrom_fails rooted.grown (by simp) rooted.internal holds path more
  refine ⟨is, ?_, spent⟩
  rw [walkSymbol, bind_of_ok (onTree_ok (rootItem_run rooted.grown)), bind_of_error run]

theorem fetchSymbol_short (holds : d.is.Sound) (short : ¬ 7 ≤ d.is.view.length) :
    ∃ d', fetchSymbol d = .error (.error .unpack) d' := by
  obtain ⟨is, run, failed⟩ := peekSevenBits_fails holds short
  refine ⟨{ d with is := is }, ?_⟩
  rw [fetchSymbol, bind_of_ok (onStream_ok run), bind_of_error (@checkFailed_failed { d with is := is } failed)]

theorem path_tail {ht : Tree} {i j last : Nat} {view : List Bool} {count : Nat} (first : ht.path i (view.take count) = some j)
    (path : ht.path i view = some last) : ht.path j (view.drop count) = some last := by
  rw [← List.take_append_drop count view, path_append, first] at path
  exact path

theorem fetchSymbol_peek {bits : List Bool} (holds : d.is.Holds bits) (enough : 7 ≤ bits.length) :
    ∃ is n7bits, fetchSymbol d = quickSymbol n7bits { d with is := is } ∧ is.Holds bits ∧ 7 ≤ is.bits ∧
      n7bits.toNat < 0x80 ∧ n7bits.toNat = value (bits.take 7) ∧ bitsOf 7 n7bits.toNat = bits.take 7 := by
  obtain ⟨is, n7bits, run, window, view, sound, failed, seven⟩ := peekSevenBits_run holds.toSound (holds.view ▸ enough)
  rw [holds.view] at window view
  have full : (bits.take 7).length = 7 := by
    rw [List.length_take]
    exact Nat.min_eq_left enough
  refine ⟨is, n7bits, ?_, ⟨sound, view, failed.trans holds.clean⟩, seven, ?_, window, ?_⟩
  · rw [fetchSymbol, bind_of_ok (onStream_ok run),
      bind_of_ok (@checkFailed_clean { d with is := is } (failed.trans holds.clean))]
  · rw [window, ← show 2 ^ (bits.take 7).length = 0x80 by rw [full]; rfl]
    exact value_lt _
  · rw [window, bitsOf_value_of_length full]

theorem fetchSymbol_run (rooted : Rooted d.ht root slots due) (cached : Cached d.ht root) {bits rest : List Bool}
    (holds : d.is.Holds (bits ++ rest)) (enough : 7 ≤ (bits ++ rest).length) {leaf : Nat}
    (path : d.ht.path root bits = some leaf) (free : d.ht.child leaf = none) :
    ∃ is cache, fetchSymbol d =
        .ok (some (d.ht.dcmpByte leaf)) { d with is := is, ht := { d.ht with quickDecodeCache := cache } } ∧
      is.Holds rest ∧ Cached { d.ht with quickDecodeCache := cache } root := by
  obtain ⟨is1, n7bits, peek, holds1, seven, below, window, bitsSeven⟩ := fetchSymbol_peek holds enough
  have past := cached.past _ below
  have current := cached.current _ below
  rw [peek, quickSymbol, bind_of_ok (get_run _)]
  simp only
  generalize d.ht.quickDecodeCache n7bits.toNat = qd at past current
  by_cases now : qd.generation ≥ d.ht.generation
  next =>
    have describes := current (UInt32.le_antisymm past now)
    rw [if_pos now]
    obtain ⟨generation, count, symbol | item⟩ := qd
    next =>
      obtain ⟨few, leaf', path', free', rfl⟩ := describes
      have few : count.toNat ≤ 7 := few
      rw [← take_bitsOf few, bitsSeven, List.take_take, Nat.min_eq_left few] at path'
      obtain ⟨same, rfl⟩ := path_unique path free path' free' (List.take_append_drop _ (bits ++ rest)).symm
      obtain ⟨is2, run2, view2, sound2, failed2⟩ := skip_run holds1.toSound (show count.toNat ≤ is1.bits by omega) (by omega)
      have after : is2.view = rest := by
        have size : bits.length = count.toNat := by
          rw [same, List.length_take]
          exact Nat.min_eq_left (by omega)
        rw [view2, holds1.view, ← size, List.drop_left]
      refine ⟨is2, d.ht.quickDecodeCache, ?_, ⟨sound2, after, failed2.trans holds1.clean⟩, cached⟩
      simp only
      rw [if_neg (show ¬ count > 7 by rw [gt_iff_lt, UInt32.lt_iff_toNat_lt]; simpa using few),
        bind_of_ok (@onStream_ok _ _ { d with is := is1 } _ _ run2), pure_run]
    next =>
      obtain ⟨long, i, rfl, first, internal⟩ := describes
      rw [bitsSeven] at first
      -- the leaf lies below the item after the seventh bit
      have beyond : 7 ≤ bits.length := by
        by_contra short
        rw [List.take_append, List.take_of_length_le (by omega), path_append, path] at first
        exact internal ((path_leaf free first).2 ▸ free)
      rw [List.take_append_of_le_length beyond] at first
      obtain ⟨is2, run2, view2, sound2, failed2⟩ := skip_run holds1.toSound seven (by decide)
      have holds2 : is2.Holds (bits.drop 7 ++ rest) := by
        refine ⟨sound2, ?_, failed2.trans holds1.clean⟩
        rw [view2, holds1.view, List.drop_append_of_le_length beyond]
      obtain ⟨is3, run3, holds3⟩ := @walkFrom_run { d with is := is2 } _ _ _ rooted.grown _
        (rooted.grown.path_after (by simp) first).1 internal _ _ holds2 _ (path_tail first path) free
      refine ⟨is3, d.ht.quickDecodeCache, ?_, holds3, cached⟩
      simp only
      rw [if_neg (show ¬ ¬ count > 7 by rw [not_not, gt_iff_lt, UInt32.lt_iff_toNat_lt]; simpa using long),
        bind_of_ok (@onStream_ok _ _ { d with is := is1 } _ _ run2), bind_of_ok run3]
      rfl
  next =>
    rw [if_neg now]
    obtain ⟨is2, run2, holds2⟩ := @walkFrom_run { d with is := is1 } _ _ _ rooted.grown _ (by simp) rooted.internal _ _ holds1
      _ path free
    obtain ⟨cache, run3, cached3⟩ := record_run rooted.grown rooted.internal cached window enough path free
    refine ⟨is2, cache, ?_, holds2, cached3⟩
    rw [bind_of_ok (@onTree_ok _ _ { d with is := is1 } _ _ (rootItem_run rooted.grown)), bind_of_ok run2]
    simp only
    rw [bind_of_ok (@onTree_ok _ _ { d with is := is2 } _ _ run3)]
    rfl

theorem fetchSymbol_fails (rooted : Rooted d.ht root slots due) (cached : Cached d.ht root) {bits : List Bool}
    (holds : d.is.Holds bits) (enough : 7 ≤ bits.length) {last : Nat} (path : d.ht.path root bits = some last)
    (more : d.ht.child last ≠ none) :
    ∃ is, fetchSymbol d = .error (.error .unpack) { d with is := is } ∧ is.Spent := by
  obtain ⟨is1, n7bits, peek, holds1, seven, below, window, bitsSeven⟩ := fetchSymbol_peek holds enough
  have past := cached.past _ below
  have current := cached.current _ below
  rw [peek, quickSymbol, bind_of_ok (get_run _)]
  simp only
  generalize d.ht.quickDecodeCache n7bits.toNat = qd at past current
  by_cases now : qd.generation ≥ d.ht.generation
  next =>
    have describes := current (UInt32.le_antisymm past now)
    rw [if_pos now]
    obtain ⟨generation, count, symbol | item⟩ := qd
    next =>
      -- the path of the entry would end at a leaf
      obtain ⟨few, leaf', path', free', _⟩ := describes
      have few : count.toNat ≤ 7 := few
      rw [← take_bitsOf few, bitsSeven, List.take_take, Nat.min_eq_left few] at path'
      exact absurd ((path_leaf free' (path_tail path' path)).2 ▸ free') more
    next =>
      obtain ⟨long, i, rfl, first, internal⟩ := describes
      rw [bitsSeven] at first
      obtain ⟨is2, run2, view2, sound2, failed2⟩ := skip_run holds1.toSound seven (by decide)
      have holds2 : is2.Holds (bits.drop 7) := ⟨sound2, by rw [view2, holds1.view], failed2.trans holds1.clean⟩
      obtain ⟨is3, run3, spent⟩ := @walkFrom_fails { d with is := is2 } _ _ _ rooted.grown _
        (rooted.grown.path_after (by simp) first).1 internal _ holds2 _ (path_tail first path) more
      refine ⟨is3, ?_, spent⟩
      simp only
      rw [if_neg (show ¬ ¬ count > 7 by rw [not_not, gt_iff_lt, UInt32.lt_iff_toNat_lt]; simpa using long),
        bind_of_ok (@onStream_ok _ _ { d with is := is1 } _ _ run2), bind_of_error run3]
  next =>
    rw [if_neg now]
    obtain ⟨is2, run2, spent⟩ := @walkFrom_fails { d with is := is1 } _ _ _ rooted.grown _ (by simp) rooted.internal _ holds1 _
      path more
    refine ⟨is2, ?_, spent⟩
    rw [bind_of_ok (@onTree_ok _ _ { d with is := is1 } _ _ (rootItem_run rooted.grown)), bind_of_error run2]

end Symbols

end Huffman

end LibMpq
