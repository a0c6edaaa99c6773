import LibMpq.Base.Unseen
import LibMpq.HuffmanInvariant

set_option autoImplicit false

namespace LibMpq

open Effect Function

namespace Huffman

def Tree.disguised (more : UInt32) (cache : Nat → QuickDecode) (ht : Tree) : Tree :=
  { ht with generation := ht.generation + more, quickDecodeCache := cache }

section Unseen

variable {more : UInt32} {cache : Nat → QuickDecode}

theorem setNext_unseen (p : Place) (l : Link) : Unseen (Tree.disguised more cache) (setNext p l) := .modify fun _ => rfl

theorem setPrev_unseen (p : Place) (l : Link) : Unseen (Tree.disguised more cache) (setPrev p l) := .modify fun _ => rfl

theorem setParent_unseen (i : Nat) (p : Option Nat) : Unseen (Tree.disguised more cache) (setParent i p) :=
  .modify fun _ => rfl

theorem setChild_unseen (i : Nat) (c : Option Nat) : Unseen (Tree.disguised more cache) (setChild i c) :=
  .modify fun _ => rfl

theorem setDcmpByte_unseen (i : Nat) (symbol : UInt32) : Unseen (Tree.disguised more cache) (setDcmpByte i symbol) :=
  .modify fun _ => rfl

theorem setByteValue_unseen (i : Nat) (weight : UInt32) : Unseen (Tree.disguised more cache) (setByteValue i weight) :=
  .modify fun _ => rfl

theorem setSymbolNode_unseen (symbol i : Nat) : Unseen (Tree.disguised more cache) (setSymbolNode symbol i) :=
  .modify fun _ => rfl

theorem follow_unseen (l : Link) : Unseen (Tree.disguised more cache) (follow l) := by
  rcases l with _ | p | p
  · exact .throw _
  · exact .pure p
  · exact .throw _

theorem itemAt_unseen (p : Place) : Unseen (Tree.disguised more cache) (itemAt p) := by
  cases p with
  | item i => exact .pure i
  | current => exact .throw _
  | first => exact .throw _

theorem given_unseen (i : Option Nat) : Unseen (Tree.disguised more cache) (given i) := by
  cases i with
  | none => exact .throw _
  | some i => exact .pure i

theorem previousItem_unseen (p : Place) : Unseen (Tree.disguised more cache) (previousItem p) := by
  refine .get (fun _ => rfl) fun ht => ?_
  rcases ht.prev p with _ | q | q
  · exact .throw _
  · exact .bind (follow_unseen _) fun behind => .bind (.require _) fun _ => .pure q
  · exact .pure q

theorem unlink_unseen (i : Nat) : Unseen (Tree.disguised more cache) (unlink i) :=
  .bind (previousItem_unseen _) fun _ => .get (fun _ => rfl) fun _ => .bind (setNext_unseen _ _) fun _ =>
    .get (fun _ => rfl) fun _ => .bind (follow_unseen _) fun _ => .get (fun _ => rfl) fun _ =>
    .bind (setPrev_unseen _ _) fun _ => .bind (setNext_unseen _ _) fun _ => setPrev_unseen _ _

theorem detach_unseen (i : Nat) : Unseen (Tree.disguised more cache) (detach i) :=
  .bind (previousItem_unseen _) fun _ => .get (fun _ => rfl) fun _ => .bind (follow_unseen _) fun _ =>
    .get (fun _ => rfl) fun _ => .bind (setNext_unseen _ _) fun _ => .bind (setPrev_unseen _ _) fun _ =>
    .bind (setNext_unseen _ _) fun _ => setPrev_unseen _ _

theorem linkAfter_unseen (i : Nat) (p : Place) : Unseen (Tree.disguised more cache) (linkAfter i p) :=
  .get (fun _ => rfl) fun _ => .bind (follow_unseen _) fun _ => .bind (setNext_unseen _ _) fun _ =>
    .bind (setPrev_unseen _ _) fun _ => .bind (setPrev_unseen _ _) fun _ => setNext_unseen _ _

theorem attach_unseen (i : Nat) : Unseen (Tree.disguised more cache) (attach i) := by
  have linked : ∀ rest : Tree → Act Unit, (∀ ht, Unseen (Tree.disguised more cache) (rest ht)) →
      (∀ ht, rest (ht.disguised more cache) = rest ht) →
      Unseen (Tree.disguised more cache) (do
        setNext (.item i) (.to .first)
        setPrev (.item i) ((← get).prev .first)
        rest (← get)) := fun rest unseen same =>
    .bind (setNext_unseen _ _) fun _ => .get (fun _ => rfl) fun ht => .bind (setPrev_unseen _ _) fun _ => .get same unseen
  refine .get (fun _ => rfl) fun ht => .ite (.bind (detach_unseen i) fun _ => linked _ ?_ ?_) (linked _ ?_ ?_)
  all_goals
    intro ht
    first
    | rfl
    | rcases ht.prev .first with _ | p | p
      · exact .throw _
      all_goals
        exact .bind (setNext_unseen _ _) fun _ => .bind (setPrev_unseen _ _) fun _ => .bind (setParent_unseen _ _) fun _ =>
          setChild_unseen _ _

theorem acquireItem_unseen : Unseen (Tree.disguised more cache) acquireItem := by
  intro ht
  have fresh : ∀ i, Unseen (Tree.disguised more cache) (do attach i; pure (some i) : Act (Option Nat)) := fun i =>
    .bind (attach_unseen i) fun _ => .pure _
  have next : (if ht.items < poolSize then do
        set { ht.disguised more cache with items := ht.items + 1 }
        attach ht.items
        pure (some ht.items)
      else pure none : Act (Option Nat)) (ht.disguised more cache) =
      through (Tree.disguised more cache) ((if ht.items < poolSize then do
        set { ht with items := ht.items + 1 }
        attach ht.items
        pure (some ht.items)
      else pure none : Act (Option Nat)) ht) := by
    by_cases room : ht.items < poolSize
    next =>
      rw [if_pos room, if_pos room, bind_of_ok (set_run _ _), bind_of_ok (set_run _ _)]
      exact fresh ht.items { ht with items := ht.items + 1 }
    next => rw [if_neg room, if_neg room]; rfl
  rw [acquireItem, bind_of_ok (get_run _), bind_of_ok (get_run _),
    show (ht.disguised more cache).prev = ht.prev from rfl, show (ht.disguised more cache).items = ht.items from rfl]
  rcases ht.prev .current with _ | (_ | _ | i) | p
  · exact next
  · rfl
  · rfl
  · exact Unseen.ite (fresh i) (.pure _) ht
  · exact next

theorem leaderOf_unseen (weight : UInt32) (ht : Tree) (fuel i : Nat) :
    leaderOf (ht.disguised more cache) weight fuel i = leaderOf ht weight fuel i ∧
      Unseen (Tree.disguised more cache) (leaderOf ht weight fuel i) := by
  induction fuel generalizing i with
  | zero => exact ⟨rfl, .throw _⟩
  | succ fuel ih =>
    rw [leaderOf, leaderOf, show (ht.disguised more cache).prev = ht.prev from rfl,
      show (ht.disguised more cache).byteValue = ht.byteValue from rfl]
    rcases ht.prev (.item i) with _ | p | p
    · exact ⟨rfl, .pure _⟩
    · simp only [ih]
      exact ⟨trivial, .bind (itemAt_unseen p) fun before => .ite (.pure _) (ih before).2⟩
    · exact ⟨rfl, .pure _⟩

theorem exchange_unseen (i leader : Nat) (before : Option Nat) :
    Unseen (Tree.disguised more cache) (exchange i leader before) := by
  have listed : Unseen (Tree.disguised more cache) (exchangeListed i leader before) := by
    refine .get (fun _ => rfl) fun ht => .ite ?_ ?_
    · exact .bind (unlink_unseen _) fun _ => .bind (linkAfter_unseen _ _) fun _ => .bind (unlink_unseen _) fun _ =>
        linkAfter_unseen _ _
    · exact .bind (linkAfter_unseen _ _) fun _ => .bind (unlink_unseen _) fun _ => linkAfter_unseen _ _
  have parents : Unseen (Tree.disguised more cache) (exchangeParents i leader) := by
    refine .get (fun _ => rfl) fun _ => .bind (given_unseen _) fun above => .get (fun _ => rfl) fun ht =>
      .get (fun _ => rfl) fun _ => .bind (given_unseen _) fun own => ?_
    have last : Unseen (Tree.disguised more cache) (do
        setParent i (some above)
        setParent leader (some own) : Act Unit) := .bind (setParent_unseen _ _) fun _ => setParent_unseen _ _
    have second : Unseen (Tree.disguised more cache) (do
        if ht.child above = some leader then setChild above (some i)
        setParent i (some above)
        setParent leader (some own) : Act Unit) := .ite (.bind (setChild_unseen _ _) fun _ => last) last
    exact .get (fun _ => rfl) fun _ => .ite (.bind (setChild_unseen _ _) fun _ => second) second
  have counted : ∀ ht : Tree, { ht.disguised more cache with generation := (ht.disguised more cache).generation + 1 } =
      Tree.disguised more cache { ht with generation := ht.generation + 1 } := by
    intro ht
    simp only [Tree.disguised, UInt32.add_assoc, UInt32.add_comm 1]
  exact .bind listed fun _ => .bind parents fun _ => .modify counted

theorem raiseItem_unseen (i : Option Nat) : Unseen (Tree.disguised more cache) (raiseItem i) := by
  cases i with
  | none => exact .pure _
  | some i =>
    refine .get (fun _ => rfl) fun _ => .bind (setByteValue_unseen _ _) fun _ => .get (fun ht => ?_) fun ht => ?_
    · rw [(leaderOf_unseen _ _ _ _).1]
      rfl
    · refine .bind (leaderOf_unseen _ _ _ _).2 fun found => ?_
      have up : Unseen (Tree.disguised more cache) (do pure (.inl ((← get).parent i)) : Act (Option Nat ⊕ Unit)) :=
        .get (fun _ => rfl) fun _ => .pure _
      exact .ite (.bind (exchange_unseen _ _ _) fun _ => up) up

theorem updateWeights_unseen (i : Option Nat) : Unseen (Tree.disguised more cache) (updateWeights i) :=
  .rounds raiseItem_unseen _ i

theorem insertLiteral_unseen (value : UInt32) : Unseen (Tree.disguised more cache) (insertLiteral value) := by
  refine .get (fun _ => rfl) fun ht => ?_
  rcases ht.prev .first with _ | p | p
  · exact .throw _
  · refine .bind (itemAt_unseen p) fun escape => .bind acquireItem_unseen fun old => .bind acquireItem_unseen fun literal => ?_
    cases old with
    | none => exact .throw _
    | some old =>
      cases literal with
      | none => exact .throw _
      | some literal =>
        refine .bind (setParent_unseen _ _) fun _ => .get (fun _ => rfl) fun _ => .bind (setDcmpByte_unseen _ _) fun _ =>
          .get (fun _ => rfl) fun _ => .bind (setByteValue_unseen _ _) fun _ => .bind (setParent_unseen _ _) fun _ =>
          .bind (setDcmpByte_unseen _ _) fun _ => .bind (setByteValue_unseen _ _) fun _ =>
          .bind (setChild_unseen _ _) fun _ => .get (fun _ => rfl) fun _ => .bind (setSymbolNode_unseen _ _) fun _ =>
          .bind (setSymbolNode_unseen _ _) fun _ => .bind (updateWeights_unseen _) fun _ => .get (fun _ => rfl) fun _ =>
          .ite (updateWeights_unseen _) (.pure _)
  · exact .throw _

theorem splitLast_unseen (value : UInt32) : Unseen (Tree.disguised more cache) (splitLast value) := by
  refine .get (fun _ => rfl) fun ht => ?_
  rcases ht.prev .first with _ | p | p
  · exact .pure _
  · refine .bind (itemAt_unseen p) fun last => .bind acquireItem_unseen fun old => ?_
    cases old with
    | none => exact .throw _
    | some old =>
      refine .bind (setParent_unseen _ _) fun _ => .get (fun _ => rfl) fun _ => .bind (setDcmpByte_unseen _ _) fun _ =>
        .get (fun _ => rfl) fun _ => .bind (setByteValue_unseen _ _) fun _ => .get (fun _ => rfl) fun _ =>
        .bind (setSymbolNode_unseen _ _) fun _ => .bind acquireItem_unseen fun literal => ?_
      cases literal with
      | none => exact .throw _
      | some literal =>
        refine .bind (setParent_unseen _ _) fun _ => .bind (setDcmpByte_unseen _ _) fun _ =>
          .bind (setByteValue_unseen _ _) fun _ => .get (fun _ => rfl) fun _ => .bind (setSymbolNode_unseen _ _) fun _ =>
          .bind (setChild_unseen _ _) fun _ => .bind (updateWeights_unseen _) fun _ => .get (fun _ => rfl) fun _ => .ite ?_ ?_
        · exact .get (fun _ => rfl) fun _ => .bind (updateWeights_unseen _) fun _ => .pure _
        · exact .pure _
  · exact .pure _

theorem Change.run_unseen (change : Change) : Unseen (Tree.disguised more cache) change.run := by
  cases change with
  | update symbol => exact .get (fun _ => rfl) fun _ => updateWeights_unseen _
  | insert value => exact insertLiteral_unseen value
  | split value => exact .bind (splitLast_unseen value) fun _ => .pure _

end Unseen

end Huffman

end LibMpq
