import LibMpq.Base.Ring
import LibMpq.Huffman

set_option autoImplicit false

namespace LibMpq

open Effect Function

namespace Huffman

def Link.back : Place → Link
  | .item i => .to (.item i)
  | p => .not p

structure Listed (next prev : Place → Link) (order : List Nat) : Prop where
  ring : Ring.Closed Link.to Link.back next prev .first (order.map .item)
  reusable : prev .current = .not .current
  loose : ∀ i, i ∉ order → next (.item i) = .null

def endOf (items : List Nat) : Place := (items.map Place.item).getLastD .first

def startOf (items : List Nat) : Place := (items.map Place.item).headD .first

@[simp] theorem endOf_nil : endOf [] = .first := rfl

@[simp] theorem endOf_concat (items : List Nat) (i : Nat) : endOf (items ++ [i]) = .item i := by
  simp [endOf]

@[simp] theorem startOf_nil : startOf [] = .first := rfl

@[simp] theorem startOf_cons (i : Nat) (items : List Nat) : startOf (i :: items) = .item i := rfl

theorem endOf_cases (items : List Nat) : endOf items = .first ∧ items = [] ∨ ∃ j ∈ items, endOf items = .item j := by
  rcases List.eq_nil_or_concat items with rfl | ⟨front, j, rfl⟩
  · exact .inl ⟨rfl, rfl⟩
  · exact .inr ⟨j, by simp, by simp⟩

theorem startOf_cases (items : List Nat) : startOf items = .first ∧ items = [] ∨ ∃ j ∈ items, startOf items = .item j := by
  cases items with
  | nil => exact .inl ⟨rfl, rfl⟩
  | cons j items => exact .inr ⟨j, by simp, rfl⟩

theorem startOf_current (items : List Nat) : startOf items ≠ .current := by
  rcases startOf_cases items with ⟨place, _⟩ | ⟨j, _, place⟩ <;> simp [place]

theorem endOf_outside {items : List Nat} {i : Nat} (outside : i ∉ items) : Place.item i ≠ endOf items := by
  rcases endOf_cases items with ⟨place, _⟩ | ⟨j, inside, place⟩
  · simp [place]
  · rw [place]
    rintro ⟨⟩
    exact outside inside

theorem startOf_outside {items : List Nat} {i : Nat} (outside : i ∉ items) : Place.item i ≠ startOf items := by
  rcases startOf_cases items with ⟨place, _⟩ | ⟨j, inside, place⟩
  · simp [place]
  · rw [place]
    rintro ⟨⟩
    exact outside inside

namespace Listed

variable {next prev : Place → Link} {before after : List Nat} {i : Nat}

theorem nodup {order : List Nat} (listed : Listed next prev order) : order.Nodup :=
  List.Nodup.of_map _ (List.nodup_cons.mp listed.ring.distinct).2

theorem next_item (listed : Listed next prev (before ++ i :: after)) : next (.item i) = .to (startOf after) := by
  have ring := listed.ring
  rw [List.map_append, List.map_cons] at ring
  exact ring.behind

theorem prev_item (listed : Listed next prev (before ++ i :: after)) : prev (.item i) = Link.back (endOf before) := by
  have ring := listed.ring
  rw [List.map_append, List.map_cons] at ring
  exact ring.front.2

theorem next_end (listed : Listed next prev (before ++ after)) : next (endOf before) = .to (startOf after) := by
  have ring := listed.ring
  rw [List.map_append] at ring
  exact ring.around.1

theorem prev_start (listed : Listed next prev (before ++ after)) : prev (startOf after) = Link.back (endOf before) := by
  have ring := listed.ring
  rw [List.map_append] at ring
  exact ring.around.2

theorem tail (listed : Listed next prev (before ++ [i])) : prev .first = .to (.item i) := by
  rw [← List.append_nil (before ++ [i])] at listed
  have start := listed.prev_start
  rwa [endOf_concat] at start

theorem unique {order order' : List Nat} (listed : Listed next prev order) (listed' : Listed next prev order') :
    order = order' := by
  have same := listed.ring.unique (fun _ _ => Link.to.inj) listed'.ring
  exact (List.map_injective_iff.mpr fun _ _ => Place.item.inj) same

theorem outside (listed : Listed next prev (before ++ i :: after)) : i ∉ before ∧ i ∉ after := by
  have distinct := List.nodup_append.mp listed.nodup
  exact ⟨fun twice => distinct.2.2 i twice i (by simp) rfl, (List.nodup_cons.mp distinct.2.1).1⟩

theorem unlinked (listed : Listed next prev (before ++ i :: after)) (link : Link) :
    Listed (update (update next (endOf before) (next (.item i))) (.item i) .null)
      (update (update prev (startOf after) (prev (.item i))) (.item i) link) (before ++ after) where
  ring := by
    have ring := listed.ring
    rw [List.map_append, List.map_cons] at ring
    have fewer := ring.remove
    rw [← List.map_append] at fewer
    have apart : ∀ a ∈ Place.first :: (before ++ after).map .item, a ≠ .item i := by
      rintro a member rfl
      simp only [List.mem_cons, reduceCtorEq, List.mem_map, List.mem_append, Place.item.injEq, exists_eq_right,
        false_or] at member
      exact member.elim listed.outside.1 listed.outside.2
    exact fewer.congr (fun a member => update_of_ne (apart a member) _ _) fun b member =>
      update_of_ne (apart b member) _ _
  reusable := by
    have other : Place.current ≠ .item i := nofun
    rw [update_of_ne other, update_of_ne (startOf_current after).symm]
    exact listed.reusable
  loose j outside := by
    by_cases same : j = i
    next => rw [same, update_self]
    rw [List.mem_append, not_or] at outside
    rw [update_of_ne (by simpa using same), update_of_ne (endOf_outside outside.1)]
    exact listed.loose j (by simp [outside, same])

theorem linked (listed : Listed next prev (before ++ after)) (fresh : i ∉ before ++ after) :
    Listed (update (update next (.item i) (next (endOf before))) (endOf before) (.to (.item i)))
      (update (update prev (.item i) (prev (startOf after))) (startOf after) (.to (.item i))) (before ++ i :: after) where
  ring := by
    have ring := listed.ring
    rw [List.map_append] at ring
    rw [List.map_append, List.map_cons]
    refine ring.insert ?_ rfl
    simpa using fresh
  reusable := by
    have other : Place.current ≠ .item i := nofun
    rw [update_of_ne (startOf_current after).symm, update_of_ne other]
    exact listed.reusable
  loose j outside := by
    simp only [List.mem_append, List.mem_cons, not_or] at outside
    rw [update_of_ne (endOf_outside outside.1), update_of_ne (by simpa using outside.2.1)]
    exact listed.loose j (by simp [outside])

end Listed

def Tree.relink (ht : Tree) (next prev : Place → Link) : Tree := { ht with next := next, prev := prev }

theorem previousItem_run {ht : Tree} {before after : List Nat} {i : Nat}
    (listed : Listed ht.next ht.prev (before ++ i :: after)) :
    previousItem (.item i) ht = .ok (endOf before) ht := by
  have back := listed.prev_item
  have shape : before ++ i :: after = (before ++ [i]) ++ after := by simp
  have ahead := listed.next_item
  rw [shape] at listed
  have start := listed.prev_start
  rw [endOf_concat] at start
  rw [previousItem, bind_of_ok (get_run ht)]
  rcases endOf_cases before with ⟨place, rfl⟩ | ⟨j, _, place⟩
  · rw [place] at back ⊢
    rw [back]
    rfl
  · rw [place] at back ⊢
    rw [back]
    simp only [Link.back] at start
    simp only [Link.back, ahead, follow]
    rw [bind_of_ok (pure_run _ _), bind_of_ok (require_of start ht), pure_run]

theorem unlink_run {ht : Tree} {before after : List Nat} {i : Nat}
    (listed : Listed ht.next ht.prev (before ++ i :: after)) :
    ∃ next prev, unlink i ht = .ok () (ht.relink next prev) ∧ Listed next prev (before ++ after) := by
  have ahead := listed.next_item
  have e := endOf_outside listed.outside.1
  have s := startOf_outside listed.outside.2
  refine ⟨_, _, ?_, listed.unlinked .null⟩
  rw [unlink, bind_of_ok (previousItem_run listed)]
  simp [bind_run, setNext, setPrev, update_of_ne e, ahead, follow, Tree.relink]

theorem linkAfter_run {ht : Tree} {before after : List Nat} {i : Nat} (listed : Listed ht.next ht.prev (before ++ after))
    (fresh : i ∉ before ++ after) :
    ∃ next prev, linkAfter i (endOf before) ht = .ok () (ht.relink next prev) ∧
      Listed next prev (before ++ i :: after) := by
  have ahead := listed.next_end
  refine ⟨_, _, ?_, listed.linked fresh⟩
  rw [linkAfter, bind_of_ok (get_run ht), ahead]
  simp [bind_run, setNext, setPrev, follow, Tree.relink]

theorem removeItem_run {ht : Tree} {before after : List Nat} {i : Nat}
    (listed : Listed ht.next ht.prev (before ++ i :: after)) :
    ∃ next prev, removeItem i ht = .ok () (ht.relink next prev) ∧ Listed next prev (before ++ after) := by
  have ahead := listed.next_item
  have back := listed.prev_item
  have shape : before ++ i :: after = (before ++ [i]) ++ after := by simp
  have start := (shape ▸ listed).prev_start
  have e := endOf_outside listed.outside.1
  rw [endOf_concat] at start
  refine ⟨_, _, ?_, listed.unlinked .null⟩
  rw [removeItem, bind_of_ok (get_run ht), if_pos (by simp [ahead])]
  rcases endOf_cases before with ⟨place, rfl⟩ | ⟨j, _, place⟩
  · rw [place] at back
    simp only [Link.back] at back
    simp [back, place, bind_run, setNext, setPrev, ahead, follow, Tree.relink]
  · rw [place] at e back
    simp only [Link.back] at start back
    simp [back, place, bind_run, setNext, setPrev, update_of_ne e, ahead, follow, Tree.relink, require_of start]

theorem insertItem_switch {ht : Tree} {order : List Nat} {i : Nat} (listed : Listed ht.next ht.prev order)
    (fresh : i ∉ order) :
    ∃ next prev, insertItem i .switchItems ht = .ok () (ht.relink next prev) ∧ Listed next prev (i :: order) := by
  obtain ⟨next, prev, run, listed'⟩ := @linkAfter_run ht [] order i listed fresh
  refine ⟨next, prev, ?_, listed'⟩
  rw [insertItem, bind_of_ok (get_run ht), if_neg (by simp [listed.loose i fresh])]
  exact run

theorem insertItem_insert {ht : Tree} {order : List Nat} {i : Nat} (listed : Listed ht.next ht.prev order)
    (fresh : i ∉ order) (some_ : order ≠ []) :
    ∃ next prev, insertItem i .insertItem ht = .ok () (ht.relink next prev) ∧ Listed next prev (order ++ [i]) := by
  rw [← List.append_nil order] at listed fresh
  have last := listed.prev_start
  have behind := listed.next_end
  refine ⟨_, _, ?_, listed.linked fresh⟩
  have loose := listed.loose i fresh
  rcases endOf_cases order with ⟨_, none_⟩ | ⟨j, _, place⟩
  · exact absurd none_ some_
  · rw [place] at last behind ⊢
    simp only [startOf_nil, Link.back] at last behind
    simp [insertItem, bind_run, setNext, setPrev, loose, last, behind, follow, Tree.relink]

def Tree.attached (ht : Tree) (order : List Nat) (i : Nat) : Tree :=
  { ht with
    next := update (update ht.next (.item i) (.to .first)) (endOf order) (.to (.item i))
    prev := update (update ht.prev (.item i) (ht.prev .first)) .first (.to (.item i))
    parent := update ht.parent i none
    child := update ht.child i none }

theorem attach_run {ht : Tree} {order : List Nat} {i : Nat} (listed : Listed ht.next ht.prev order) (fresh : i ∉ order) :
    attach i ht = .ok () (ht.attached order i) ∧
      Listed (ht.attached order i).next (ht.attached order i).prev (order ++ [i]) := by
  rw [← List.append_nil order] at listed fresh
  have last := listed.prev_start
  have behind := listed.next_end
  have linked := listed.linked fresh
  have loose := listed.loose i fresh
  rw [behind] at linked
  refine ⟨?_, linked⟩
  rw [startOf_nil] at last
  rcases endOf_cases order with ⟨place, _⟩ | ⟨j, _, place⟩
  · simp [attach, bind_run, setNext, setPrev, setParent, setChild, loose, last, place, Link.back, Tree.attached]
  · simp [attach, bind_run, setNext, setPrev, setParent, setChild, loose, last, place, Link.back, Tree.attached]

theorem acquireItem_run {ht : Tree} {order : List Nat} (listed : Listed ht.next ht.prev order)
    (fresh : ht.items ∉ order) (room : ht.items < poolSize) :
    acquireItem ht = .ok (some ht.items) ({ ht with items := ht.items + 1 }.attached order ht.items) := by
  have attached := (@attach_run { ht with items := ht.items + 1 } order ht.items listed fresh).1
  rw [acquireItem, bind_of_ok (get_run ht)]
  simp only [listed.reusable, if_pos room]
  rw [bind_of_ok (set_run _ _), bind_of_ok attached, pure_run]

theorem acquireItem_full {ht : Tree} {order : List Nat} (listed : Listed ht.next ht.prev order)
    (full : ¬ ht.items < poolSize) : acquireItem ht = .ok none ht := by
  rw [acquireItem, bind_of_ok (get_run ht)]
  simp only [listed.reusable, if_neg full]
  rfl

theorem takeItem_run {ht : Tree} {order : List Nat} (listed : Listed ht.next ht.prev order) (room : ht.items < poolSize) :
    takeItem ht = .ok ht.items { ht with items := ht.items + 1 } := by
  rw [takeItem, bind_of_ok (get_run ht)]
  simp only [listed.reusable]
  rw [bind_of_ok (require_of room ht), bind_of_ok (set_run _ _), pure_run]

theorem leaderOf_run {ht s : Tree} (weight : UInt32) {fuel : Nat} {front post : List Nat} {i : Nat}
    (listed : Listed ht.next ht.prev (front ++ i :: post)) (enough : front.length < fuel) :
    ∃ hi y lo, front ++ [i] = hi ++ y :: lo ∧ leaderOf ht weight fuel i s = .ok (y, hi.getLast?) s ∧
      (∀ u ∈ y :: lo, u ≠ i → ht.byteValue u < weight) ∧ ∀ u, hi.getLast? = some u → weight ≤ ht.byteValue u := by
  induction fuel generalizing front post i with
  | zero => omega
  | succ fuel ih =>
    have back := listed.prev_item
    rcases List.eq_nil_or_concat front with rfl | ⟨front, j, rfl⟩
    · refine ⟨[], i, [], rfl, ?_, by simp, nofun⟩
      rw [leaderOf, back]
      rfl
    · rw [List.concat_eq_append] at *
      rw [endOf_concat] at back
      have shape : front ++ [j] ++ i :: post = front ++ j :: i :: post := by simp
      have walk : leaderOf ht weight (fuel + 1) i s =
          (if ht.byteValue j ≥ weight then pure (i, some j) else leaderOf ht weight fuel j : Act (Nat × Option Nat)) s := by
        rw [leaderOf, back]
        rfl
      rw [walk]
      by_cases heavy : ht.byteValue j ≥ weight
      next =>
        refine ⟨front ++ [j], i, [], rfl, ?_, by simp, ?_⟩
        · rw [if_pos heavy, List.getLast?_concat, pure_run]
        · rintro u last
          rw [List.getLast?_concat] at last
          exact Option.some.inj last ▸ heavy
      next =>
        rw [List.length_append, List.length_singleton] at enough
        obtain ⟨hi, y, lo, cut, run, lighter, heavier⟩ := ih (shape ▸ listed) (by omega)
        refine ⟨hi, y, lo ++ [i], ?_, ?_, ?_, heavier⟩
        · rw [cut, List.append_assoc, List.cons_append]
        · rw [if_neg heavy, run]
        · intro u member other
          rw [← List.cons_append, List.mem_append, List.mem_singleton] at member
          rcases member with member | rfl
          · by_cases own : u = j
            next => exact own ▸ UInt32.not_le.mp heavy
            next => exact lighter u member own
          · exact absurd rfl other

theorem notLighter_run {ht s : Tree} (weight : UInt32) {fuel : Nat} {front post : List Nat}
    (listed : Listed ht.next ht.prev (front ++ post)) (enough : front.length < fuel) :
    ∃ hi lo, front = hi ++ lo ∧ notLighter ht weight fuel (Link.back (endOf front)) s = .ok hi.getLast? s ∧
      (∀ u ∈ lo, ht.byteValue u < weight) ∧ ∀ u, hi.getLast? = some u → weight ≤ ht.byteValue u := by
  induction fuel generalizing front post with
  | zero => omega
  | succ fuel ih =>
    rcases List.eq_nil_or_concat front with rfl | ⟨front, j, rfl⟩
    · exact ⟨[], [], rfl, rfl, by simp, nofun⟩
    · rw [List.concat_eq_append] at *
      have shape : front ++ [j] ++ post = front ++ j :: post := by simp
      rw [shape] at listed
      have back := listed.prev_item
      have walk : notLighter ht weight (fuel + 1) (Link.back (endOf (front ++ [j]))) s =
          (if ht.byteValue j ≥ weight then pure (some j)
            else notLighter ht weight fuel (Link.back (endOf front)) : Act (Option Nat)) s := by
        rw [endOf_concat, Link.back, notLighter, ← back]
        rfl
      rw [walk]
      by_cases heavy : ht.byteValue j ≥ weight
      next =>
        refine ⟨front ++ [j], [], by simp, ?_, by simp, ?_⟩
        · rw [if_pos heavy, List.getLast?_concat, pure_run]
        · rintro u last
          rw [List.getLast?_concat] at last
          exact Option.some.inj last ▸ heavy
      next =>
        rw [List.length_append, List.length_singleton] at enough
        obtain ⟨hi, lo, cut, run, lighter, heavier⟩ := ih listed (by omega)
        refine ⟨hi, lo ++ [j], ?_, ?_, ?_, heavier⟩
        · rw [cut, List.append_assoc]
        · rw [if_neg heavy, run]
        · intro u member
          rcases List.mem_append.mp member with member | own
          · exact lighter u member
          · exact List.mem_singleton.mp own ▸ UInt32.not_le.mp heavy

end Huffman

end LibMpq
