import LibMpq.HuffmanPath

set_option autoImplicit false

namespace LibMpq

open Effect Function Sibling Bitstream

namespace Huffman

theorem onTree_ok {α : Type} {x : Act α} {d : Decoder} {a : α} {ht : Tree} (run : x d.ht = .ok a ht) :
    onTree x d = .ok a { d with ht := ht } := by
  rw [onTree, zoom, run]

theorem onTree_error {α : Type} {x : Act α} {d : Decoder} {e : Stop Error} {ht : Tree} (run : x d.ht = .error e ht) :
    onTree x d = .error e { d with ht := ht } := by
  rw [onTree, zoom, run]

theorem onStream_ok {α : Type} {x : In α} {d : Decoder} {a : α} {is : InputStream} (run : x d.is = .ok a is) :
    onStream x d = .ok a { d with is := is } := by
  rw [onStream, zoom, run]

theorem checkFailed_clean {d : Decoder} (clean : d.is.failed = false) : checkFailed d = .ok () d := by
  rw [checkFailed, bind_of_ok (get_run d), if_neg (by simp [clean])]
  rfl

theorem checkFailed_failed {d : Decoder} (failed : d.is.failed = true) : checkFailed d = .error (.error .unpack) d := by
  rw [checkFailed, bind_of_ok (get_run d), if_pos failed]
  rfl

structure InputStream.Holds (is : InputStream) (bits : List Bool) : Prop extends is.Sound where
  view : is.view = bits
  clean : is.failed = false

structure InputStream.Spent (is : InputStream) : Prop extends is.Sound where
  view : is.view = []
  failed : is.failed = true

def Walk.down (walk : Walk) (j : Nat) : Walk where
  item := j
  bitCount := walk.bitCount + 1
  seventh := if walk.bitCount + 1 = 7 then some j else walk.seventh

section Walk

variable {d : Decoder} {root : Nat} {slots : List (Slot Nat)} {due : Option Nat}

theorem branch_run {walk : Walk} (grown : Grown d.ht [root] slots due) (inside : walk.item ∈ [root] ++ flat slots)
    {bit : Bool} {bits : List Bool} (holds : d.is.Holds (bit :: bits)) {j : Nat} (down : d.ht.turn walk.item bit = some j) :
    ∃ is, branch walk d =
      .ok (if d.ht.child j = none then .inr (some (walk.down j)) else .inl (walk.down j)) { d with is := is } ∧
      is.Holds bits := by
  obtain ⟨is, run, view, sound, clean⟩ := readBit_run holds.toSound holds.view
  have holds' : is.Holds bits := ⟨sound, view, clean.trans holds.clean⟩
  obtain ⟨s, member, own, is'⟩ := grown.turn_some inside down
  have child : d.ht.child walk.item = some s.first := by rw [← own, grown.owing.children s member]
  have link : (if bit then d.ht.prev (.item s.first) else .to (.item s.first)) = .to (.item j) := by
    cases bit with
    | false => rw [is']; rfl
    | true =>
      have one := (grown.turn_slot member).2
      rw [own, Tree.turn, child] at one
      rw [is']
      show d.ht.prev (.item s.first) = .to (.item s.second)
      simp only [if_true] at one
      split at one
      next second same => rw [same, Option.some.inj one]
      next => cases one
  refine ⟨is, ?_, holds'⟩
  rw [branch, bind_of_ok (get_run d), child]
  simp only
  rw [bind_of_ok (onStream_ok run), bind_of_ok (get_run _)]
  simp only [link]
  rw [bind_of_ok (@checkFailed_clean { d with is := is } holds'.clean)]
  simp only [itemAt]
  rw [bind_of_ok (@onTree_ok _ _ { d with is := is } _ _ (pure_run j _)), bind_of_ok (get_run _)]
  by_cases leaf : d.ht.child j = none
  next => simp [leaf, Walk.down]
  next => simp [leaf, Walk.down]

theorem branch_fails {walk : Walk} (holds : d.is.Holds []) (internal : d.ht.child walk.item ≠ none) :
    ∃ is, branch walk d = .error (.error .unpack) { d with is := is } ∧ is.Spent := by
  obtain ⟨is, run, view, sound, failed⟩ := readBit_fails holds.toSound holds.view
  obtain ⟨c, child⟩ := Option.ne_none_iff_exists'.mp internal
  refine ⟨is, ?_, sound, view, failed⟩
  rw [branch, bind_of_ok (get_run d), child]
  simp only
  rw [bind_of_ok (onStream_ok run), bind_of_ok (get_run _)]
  simp only [Bool.false_eq_true, if_false]
  rw [bind_of_error (@checkFailed_failed { d with is := is } failed)]

def seventhOf (ht : Tree) (walk : Walk) (bits : List Bool) : Option Nat :=
  if walk.bitCount < 7 ∧ 7 ≤ walk.bitCount + bits.length then ht.path walk.item (bits.take (7 - walk.bitCount))
  else walk.seventh

theorem walk_run {walk : Walk} (grown : Grown d.ht [root] slots due) (inside : walk.item ∈ [root] ++ flat slots)
    (internal : d.ht.child walk.item ≠ none) {bits rest : List Bool} (holds : d.is.Holds (bits ++ rest)) {leaf : Nat}
    (path : d.ht.path walk.item bits = some leaf) (free : d.ht.child leaf = none) {fuel : Nat}
    (enough : bits.length ≤ fuel) :
    ∃ is, rounds branch fuel walk d =
      .ok (some { item := leaf, bitCount := walk.bitCount + bits.length, seventh := seventhOf d.ht walk bits })
        { d with is := is } ∧ is.Holds rest := by
  induction bits generalizing walk d fuel with
  | nil =>
    obtain rfl := Option.some.inj path
    exact absurd free internal
  | cons bit bits ih =>
    cases fuel with
    | zero => simp at enough
    | succ fuel =>
    rw [Tree.path] at path
    obtain ⟨j, down, further⟩ := Option.bind_eq_some_iff.mp path
    obtain ⟨is, run, holds'⟩ := branch_run grown inside holds down
    have inside' := (grown.turn_after inside down).1
    by_cases last : d.ht.child j = none
    next =>
      cases bits with
      | cons bit' bits =>
        rw [Tree.path, Tree.turn, last] at further
        cases further
      | nil =>
        obtain rfl := Option.some.inj further
        rw [if_pos last] at run
        refine ⟨is, ?_, holds'⟩
        rw [rounds_done run]
        have same : walk.down j = { item := j, bitCount := walk.bitCount + 1, seventh := seventhOf d.ht walk [bit] } := by
          rw [Walk.down, seventhOf]
          congr 1
          by_cases now : walk.bitCount + 1 = 7
          next =>
            rw [if_pos now, if_pos (by simp; omega), show 7 - walk.bitCount = 1 by omega]
            simp [Tree.path, down]
          next => rw [if_neg now, if_neg (by simp; omega)]
        rw [same]
        rfl
    next =>
      rw [if_neg last] at run
      obtain ⟨is2, run2, holds2⟩ := @ih { d with is := is } (walk.down j) grown inside' last holds' further free
        fuel (by simpa using enough)
      refine ⟨is2, ?_, holds2⟩
      rw [rounds_next run, run2]
      have same : seventhOf d.ht (walk.down j) bits = seventhOf d.ht walk (bit :: bits) := by
        rw [seventhOf, seventhOf, Walk.down, List.length_cons]
        by_cases now : walk.bitCount + 1 = 7
        next =>
          rw [if_neg (by simp; omega), if_pos now, if_pos (by omega), show 7 - walk.bitCount = 1 by omega]
          simp [Tree.path, down]
        next =>
          rw [if_neg now]
          by_cases later : walk.bitCount < 7 ∧ 7 ≤ walk.bitCount + (bits.length + 1)
          next =>
            rw [if_pos (by simp; omega), if_pos later, show 7 - walk.bitCount = (7 - (walk.bitCount + 1)) + 1 by omega,
              List.take_succ_cons, Tree.path, down]
            rfl
          next => rw [if_neg (by simp; omega), if_neg later]
      rw [same, Walk.down, List.length_cons, Nat.add_assoc, Nat.add_comm 1]

theorem walk_fails {walk : Walk} (grown : Grown d.ht [root] slots due) (inside : walk.item ∈ [root] ++ flat slots)
    (internal : d.ht.child walk.item ≠ none) {bits : List Bool} (holds : d.is.Holds bits) {last : Nat}
    (path : d.ht.path walk.item bits = some last) (more : d.ht.child last ≠ none) {fuel : Nat} (enough : bits.length < fuel) :
    ∃ is, rounds branch fuel walk d = .error (.error .unpack) { d with is := is } ∧ is.Spent := by
  induction bits generalizing walk d fuel with
  | nil =>
    cases fuel with
    | zero => simp at enough
    | succ fuel =>
      obtain ⟨is, run, spent⟩ := branch_fails holds internal
      exact ⟨is, rounds_error run, spent⟩
  | cons bit bits ih =>
    cases fuel with
    | zero => simp at enough
    | succ fuel =>
    rw [Tree.path] at path
    obtain ⟨j, down, further⟩ := Option.bind_eq_some_iff.mp path
    obtain ⟨is, run, holds'⟩ := branch_run grown inside holds down
    have inside' := (grown.turn_after inside down).1
    have internal' : d.ht.child j ≠ none := by
      intro leaf
      cases bits with
      | nil =>
        obtain rfl := Option.some.inj further
        exact more leaf
      | cons bit' bits =>
        rw [Tree.path, Tree.turn, leaf] at further
        cases further
    rw [if_neg internal'] at run
    obtain ⟨is2, run2, spent⟩ := @ih { d with is := is } (walk.down j) grown inside' internal' holds' further more fuel
      (by simpa using enough)
    exact ⟨is2, by rw [rounds_next run, run2], spent⟩

end Walk

theorem rootItem_run {ht : Tree} {root : Nat} {slots : List (Slot Nat)} {due : Option Nat}
    (grown : Grown ht [root] slots due) : rootItem ht = .ok (some root) ht := by
  have first : ht.next .first = .to (.item root) := @Listed.next_end _ _ [] _ grown.listed
  have next : ht.next (.item root) = .to (startOf (flat slots)) := @Listed.next_item _ _ [] _ _ grown.listed
  have back : ht.prev (startOf (flat slots)) = .to (.item root) := by
    rw [@Listed.prev_start _ _ [root] _ grown.listed, show endOf [root] = .item root from endOf_concat [] root]
    rfl
  rw [rootItem, bind_of_ok (get_run ht), first]
  simp only [follow]
  rw [bind_of_ok (pure_run _ _), next]
  simp only
  rw [bind_of_ok (pure_run _ _), back]
  rfl

theorem Rooted.internal {ht : Tree} {root : Nat} {slots : List (Slot Nat)} {due : Option Nat}
    (rooted : Rooted ht root slots due) : ht.child root ≠ none := by
  obtain ⟨i, node, _⟩ := rooted.controls 0x100 (.inl rfl)
  obtain ⟨j, node', _⟩ := rooted.controls 0x101 (.inr rfl)
  obtain ⟨used, _, is⟩ := rooted.symbols _ i node
  obtain ⟨used', _, is'⟩ := rooted.symbols _ j node'
  by_cases top : i = root
  next =>
    refine rooted.grown.root_internal ((rooted.grown.used j).mpr used') ?_
    rintro rfl
    rw [top, is'] at is
    exact absurd is (by decide)
  next => exact rooted.grown.root_internal ((rooted.grown.used i).mpr used) top

end Huffman

end LibMpq
