import Mathlib.Data.List.Chain
import Mathlib.Logic.Function.Basic

set_option autoImplicit false

-- The items of a list, closed by a head, each with a link to the item behind it and a link to
-- the item before it. What a link back looks like may depend on the item it leads to, as for a
-- head that is marked as such.

namespace Ring

variable {ι L : Type} {ahead back : ι → L} {next prev : ι → L} {head : ι}

def Joined (ahead back next prev : ι → L) (a b : ι) : Prop := next a = ahead b ∧ prev b = back a

/-- The items of the list in a ring with the head. -/
structure Closed (ahead back next prev : ι → L) (head : ι) (items : List ι) : Prop where
  joined : (head :: items ++ [head]).IsChain (Joined ahead back next prev)
  distinct : (head :: items).Nodup

theorem chain_congr {next' prev' : ι → L} {items : List ι} (chain : items.IsChain (Joined ahead back next prev))
    (nexts : ∀ a ∈ items.dropLast, next' a = next a) (prevs : ∀ b ∈ items.tail, prev' b = prev b) :
    items.IsChain (Joined ahead back next' prev') := by
  induction items with
  | nil => exact .nil
  | cons a rest ih =>
    cases rest with
    | nil => exact .singleton a
    | cons b rest =>
      rw [List.isChain_cons_cons] at chain ⊢
      refine ⟨⟨?_, ?_⟩, ih chain.2 ?_ ?_⟩
      · rw [nexts a (by simp), chain.1.1]
      · rw [prevs b (by simp), chain.1.2]
      · exact fun c member => nexts c (by simp [member])
      · exact fun c member => prevs c (by simp [List.mem_of_mem_tail member])

theorem split_last (head : ι) (items : List ι) :
    ∃ front, head :: items = front ++ [items.getLastD head] := by
  rcases List.eq_nil_or_concat items with rfl | ⟨front, x, rfl⟩
  · exact ⟨[], rfl⟩
  · exact ⟨head :: front, by simp⟩

theorem split_first (head : ι) (items : List ι) :
    ∃ rest, items ++ [head] = items.headD head :: rest := by
  cases items with
  | nil => exact ⟨[], rfl⟩
  | cons x rest => exact ⟨rest ++ [head], rfl⟩

theorem cut {before after : List ι} (distinct : (head :: (before ++ after)).Nodup) :
    ∃ front rest, head :: before = front ++ [before.getLastD head] ∧ after ++ [head] = after.headD head :: rest ∧
      (front ++ before.getLastD head :: (after.headD head :: rest).dropLast).Nodup ∧
      ((front ++ [before.getLastD head]).tail ++ after.headD head :: rest).Nodup := by
  obtain ⟨front, left⟩ := split_last head before
  obtain ⟨rest, right⟩ := split_first head after
  refine ⟨front, rest, left, right, ?_, ?_⟩
  · rw [← right, List.dropLast_concat, ← List.singleton_append, ← List.append_assoc, ← left]
    exact distinct
  · rw [← right, ← left, List.tail_cons, ← List.append_assoc]
    exact List.perm_append_singleton head (before ++ after) |>.nodup_iff.mpr distinct

theorem chains_congr {front rest : List ι} {p n : ι} {next' prev' : ι → L}
    (firsts : (front ++ p :: (n :: rest).dropLast).Nodup) (lasts : ((front ++ [p]).tail ++ n :: rest).Nodup)
    (nexts : ∀ a ∈ front ++ p :: n :: rest, a ≠ p → next' a = next a)
    (prevs : ∀ b ∈ front ++ p :: n :: rest, b ≠ n → prev' b = prev b)
    (left : (front ++ [p]).IsChain (Joined ahead back next prev))
    (right : (n :: rest).IsChain (Joined ahead back next prev)) :
    (front ++ [p]).IsChain (Joined ahead back next' prev') ∧ (n :: rest).IsChain (Joined ahead back next' prev') := by
  refine ⟨chain_congr left ?_ ?_, chain_congr right ?_ ?_⟩
  · intro a member
    rw [List.dropLast_concat] at member
    refine nexts a (by simp [member]) ?_
    rintro rfl
    exact (List.nodup_append.mp firsts).2.2 a member a (by simp) rfl
  · intro b member
    have inside := List.mem_of_mem_tail member
    simp only [List.mem_append, List.mem_singleton] at inside
    refine prevs b (by simp only [List.mem_append, List.mem_cons]; tauto) ?_
    rintro rfl
    exact (List.nodup_append.mp lasts).2.2 b member b (by simp) rfl
  · intro a member
    have inside := List.dropLast_subset _ member
    refine nexts a (by simp only [List.mem_append, List.mem_cons] at inside ⊢; tauto) ?_
    rintro rfl
    exact (List.nodup_cons.mp (List.nodup_append.mp firsts).2.1).1 member
  · intro b member
    rw [List.tail_cons] at member
    refine prevs b (by simp [member]) ?_
    rintro rfl
    exact (List.nodup_cons.mp (List.nodup_append.mp lasts).2.1).1 member

theorem joint {before after front rest : List ι} {p n : ι} (left : head :: before = front ++ [p])
    (right : after ++ [head] = n :: rest) (middle : List ι) :
    head :: (before ++ (middle ++ after)) ++ [head] = front ++ p :: (middle ++ n :: rest) := by
  rw [← List.cons_append, List.append_assoc, List.append_assoc, right, left, List.append_assoc, List.singleton_append]

namespace Closed

variable {items before after : List ι} {x : ι}

theorem congr {next' prev' : ι → L} (ring : Closed ahead back next prev head items)
    (nexts : ∀ a ∈ head :: items, next' a = next a) (prevs : ∀ b ∈ head :: items, prev' b = prev b) :
    Closed ahead back next' prev' head items := by
  refine ⟨chain_congr ring.joined ?_ ?_, ring.distinct⟩
  · intro a member
    rw [List.dropLast_concat] at member
    exact nexts a member
  · intro b member
    simp only [List.cons_append, List.tail_cons, List.mem_append, List.mem_singleton] at member
    exact prevs b (by simpa [or_comm] using member)

theorem around (ring : Closed ahead back next prev head (before ++ after)) :
    Joined ahead back next prev (before.getLastD head) (after.headD head) := by
  obtain ⟨front, left⟩ := split_last head before
  obtain ⟨rest, right⟩ := split_first head after
  have chain := ring.joined
  have shape : head :: (before ++ after) ++ [head] = front ++ before.getLastD head :: after.headD head :: rest := by
    rw [← List.cons_append, List.append_assoc, right, left, List.append_assoc]
    rfl
  rw [shape, List.isChain_split, List.isChain_cons_cons] at chain
  exact chain.2.1

theorem behind (ring : Closed ahead back next prev head (before ++ x :: after)) : next x = ahead (after.headD head) := by
  have shape : before ++ x :: after = (before ++ [x]) ++ after := by simp
  rw [shape] at ring
  have joined := ring.around.1
  rwa [List.getLastD_concat] at joined

theorem front (ring : Closed ahead back next prev head (before ++ x :: after)) :
    next (before.getLastD head) = ahead x ∧ prev x = back (before.getLastD head) := ring.around

theorem chain_unique (apart : Function.Injective ahead) {x : ι} {items items' : List ι}
    (chain : (x :: items ++ [head]).IsChain (Joined ahead back next prev))
    (chain' : (x :: items' ++ [head]).IsChain (Joined ahead back next prev)) (fresh : head ∉ items)
    (fresh' : head ∉ items') : items = items' := by
  induction items generalizing x items' with
  | nil =>
    cases items' with
    | nil => rfl
    | cons b rest' =>
      have same : ahead head = ahead b := (List.isChain_cons_cons.mp chain).1.1.symm.trans (List.isChain_cons_cons.mp chain').1.1
      exact absurd (by simp [apart same]) fresh'
  | cons a rest ih =>
    have first := List.isChain_cons_cons.mp chain
    cases items' with
    | nil =>
      have same : ahead head = ahead a := (List.isChain_cons_cons.mp chain').1.1.symm.trans first.1.1
      exact absurd (by simp [apart same]) fresh
    | cons b rest' =>
      have first' := List.isChain_cons_cons.mp chain'
      obtain rfl := apart (first.1.1.symm.trans first'.1.1)
      rw [List.mem_cons, not_or] at fresh fresh'
      rw [ih first.2 first'.2 fresh.2 fresh'.2]

theorem unique (apart : Function.Injective ahead) {items' : List ι} (ring : Closed ahead back next prev head items)
    (ring' : Closed ahead back next prev head items') : items = items' :=
  chain_unique apart ring.joined ring'.joined (List.nodup_cons.mp ring.distinct).1 (List.nodup_cons.mp ring'.distinct).1

variable [DecidableEq ι]

open Function in
theorem insert (ring : Closed ahead back next prev head (before ++ after)) (fresh : x ∉ head :: (before ++ after))
    (plain : back x = ahead x) :
    Closed ahead back
      (update (update next x (next (before.getLastD head))) (before.getLastD head) (ahead x))
      (update (update prev x (prev (after.headD head))) (after.headD head) (ahead x))
      head (before ++ x :: after) := by
  obtain ⟨front, rest, left, right, firsts, lasts⟩ := cut ring.distinct
  obtain ⟨forth, backwards⟩ := ring.around
  have joined := ring.joined
  generalize before.getLastD head = p at *
  generalize after.headD head = n at *
  have shape := joint left right []
  have shape' := joint left right [x]
  simp only [List.nil_append, List.singleton_append] at shape shape'
  have outside : ∀ y ∈ front ++ p :: n :: rest, y ≠ x := by
    rintro y member rfl
    rw [← shape] at member
    simp only [List.cons_append, List.mem_cons, List.mem_append, List.not_mem_nil, or_false] at member fresh
    tauto
  constructor
  case distinct =>
    have moved : (head :: (before ++ x :: after)).Perm (x :: head :: (before ++ after)) :=
      (List.perm_middle.cons head).trans (.swap x head _)
    rw [moved.nodup_iff, List.nodup_cons]
    exact ⟨fresh, ring.distinct⟩
  case joined =>
    rw [shape, List.isChain_split, List.isChain_cons_cons] at joined
    rw [shape', List.isChain_split, List.isChain_cons_cons, List.isChain_cons_cons]
    have nx : n ≠ x := outside n (by simp)
    have px : p ≠ x := outside p (by simp)
    have nexts : ∀ a ∈ front ++ p :: n :: rest, a ≠ p → update (update next x (next p)) p (ahead x) a = next a := by
      intro a member ap
      rw [update_of_ne ap, update_of_ne (outside a member)]
    have prevs : ∀ b ∈ front ++ p :: n :: rest, b ≠ n → update (update prev x (prev n)) n (ahead x) b = prev b := by
      intro b member bn
      rw [update_of_ne bn, update_of_ne (outside b member)]
    obtain ⟨outer, inner⟩ := chains_congr firsts lasts nexts prevs joined.1 joined.2.2
    refine ⟨outer, ⟨?_, ?_⟩, ⟨?_, ?_⟩, inner⟩
    · rw [update_self]
    · rw [update_of_ne nx.symm, update_self, backwards]
    · rw [update_of_ne px.symm, update_self, forth]
    · rw [update_self, plain]

open Function in
theorem remove (ring : Closed ahead back next prev head (before ++ x :: after)) :
    Closed ahead back (update next (before.getLastD head) (next x)) (update prev (after.headD head) (prev x))
      head (before ++ after) := by
  have whole := ring.behind
  have joined := ring.joined
  obtain ⟨forth, backwards⟩ := ring.front
  have fewer : (head :: (before ++ after)).Nodup := ring.distinct.sublist (by simp)
  refine ⟨?_, fewer⟩
  obtain ⟨front, rest, left, right, firsts, lasts⟩ := cut fewer
  generalize before.getLastD head = p at *
  generalize after.headD head = n at *
  have shape := joint left right []
  have shape' := joint left right [x]
  simp only [List.nil_append, List.singleton_append] at shape shape'
  rw [shape', List.isChain_split, List.isChain_cons_cons, List.isChain_cons_cons] at joined
  rw [shape, List.isChain_split, List.isChain_cons_cons]
  obtain ⟨outer, inner⟩ := chains_congr firsts lasts (fun a _ ap => update_of_ne ap _ _)
    (fun b _ bn => update_of_ne bn _ _) joined.1 joined.2.2.2
  refine ⟨outer, ⟨?_, ?_⟩, inner⟩
  · rw [update_self, whole]
  · rw [update_self, backwards]

end Closed

end Ring
