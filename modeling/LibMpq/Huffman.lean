import LibMpq.Base.Checked
import LibMpq.HuffmanWeights
import LibMpq.Types
import Mathlib.Logic.Function.Basic

set_option autoImplicit false

-- The tree of `mpq-huffman.c` in the memory of `struct huffman_tree_s`: a pool of items in a
-- doubly linked list by weight, whose head is kept in the fields `first` and `last` and read
-- as an item itself, as is the head of the list of items for reuse in `current_sentinel` and
-- `next_reusable_item`. A link back to a head is stored as its complement. `insertion_scratch`
-- is `NULL` ever since `huffman_tree_init` and adds nothing to a pointer.

namespace LibMpq

open Effect

namespace Huffman

abbrev poolSize : Nat := 0x203

inductive Place
  | current
  | first
  | item (i : Nat)
  deriving DecidableEq

inductive Link
  | null
  | to (p : Place)
  | not (p : Place)
  deriving DecidableEq

structure QuickDecode where
  generation : UInt32
  bits : UInt32
  -- the symbol of a short prefix, or the item to go on from
  value : UInt32 ⊕ Option Nat

structure Tree where
  compressionTypeZero : Bool
  generation : UInt32
  -- `next` and `prev` of the items, and of the heads: `current_sentinel`,
  -- `next_reusable_item`, `first` and `last`
  next : Place → Link
  prev : Place → Link
  dcmpByte : Nat → UInt32
  byteValue : Nat → UInt32
  parent : Nat → Option Nat
  child : Nat → Option Nat
  items : Nat
  symbolNodes : Nat → Option Nat
  quickDecodeCache : Nat → QuickDecode

/-- Memory from `calloc`, or after `memset` with zero. -/
def Tree.zero : Tree where
  compressionTypeZero := false
  generation := 0
  next _ := .null
  prev _ := .null
  dcmpByte _ := 0
  byteValue _ := 0
  parent _ := none
  child _ := none
  items := 0
  symbolNodes _ := none
  quickDecodeCache _ := { generation := 0, bits := 0, value := .inl 0 }

abbrev Act (α : Type) := Op (Stop Error) Tree α

def setNext (p : Place) (l : Link) : Act Unit := modify fun ht => { ht with next := Function.update ht.next p l }

def setPrev (p : Place) (l : Link) : Act Unit := modify fun ht => { ht with prev := Function.update ht.prev p l }

def setParent (i : Nat) (p : Option Nat) : Act Unit :=
  modify fun ht => { ht with parent := Function.update ht.parent i p }

def setChild (i : Nat) (c : Option Nat) : Act Unit :=
  modify fun ht => { ht with child := Function.update ht.child i c }

def setDcmpByte (i : Nat) (symbol : UInt32) : Act Unit :=
  modify fun ht => { ht with dcmpByte := Function.update ht.dcmpByte i symbol }

def setByteValue (i : Nat) (weight : UInt32) : Act Unit :=
  modify fun ht => { ht with byteValue := Function.update ht.byteValue i weight }

def setSymbolNode (symbol : Nat) (i : Nat) : Act Unit :=
  modify fun ht => { ht with symbolNodes := Function.update ht.symbolNodes symbol (some i) }

def follow : Link → Act Place
  | .to p => pure p
  | _ => throw .undefined

def itemAt : Place → Act Nat
  | .item i => pure i
  | _ => throw .undefined

def given : Option Nat → Act Nat
  | some i => pure i
  | none => throw .undefined

-- `huffman_previous_item(hi, -1)`, and the same steps written out. What is added to a
-- pointer is the distance of `hi` from `hi->next->prev`, in a list always itself.
def previousItem (p : Place) : Act Place := do
  let ht ← get
  match ht.prev p with
  | .not q => pure q
  | .null => throw .undefined
  | .to q => do
    let behind ← follow (ht.next p)
    require (ht.prev behind = .to p)
    pure q

def unlink (i : Nat) : Act Unit := do
  let before ← previousItem (.item i)
  setNext before ((← get).next (.item i))
  let behind ← follow ((← get).next (.item i))
  setPrev behind ((← get).prev (.item i))
  setNext (.item i) .null
  setPrev (.item i) .null

-- The same where the link back is stored anew, as a plain pointer.
def detach (i : Nat) : Act Unit := do
  let before ← previousItem (.item i)
  let behind ← follow ((← get).next (.item i))
  setNext before ((← get).next (.item i))
  setPrev behind (.to before)
  setNext (.item i) .null
  setPrev (.item i) .null

def linkAfter (i : Nat) (p : Place) : Act Unit := do
  let ht ← get
  let behind ← follow (ht.next p)
  setNext (.item i) (ht.next p)
  setPrev (.item i) (ht.prev behind)
  setPrev behind (.to (.item i))
  setNext p (.to (.item i))

inductive Insertion
  | insertItem
  | switchItems

-- Every call passes `NULL` for `item2`, which stands for the head.
def insertItem (i : Nat) (how : Insertion) : Act Unit := do
  if (← get).next (.item i) ≠ .null then detach i
  match how with
  | .switchItems => linkAfter i .first
  | .insertItem => do
    let last := (← get).prev .first
    setNext (.item i) (.to .first)
    setPrev (.item i) last
    -- for a complement `PTR_NOT` is taken of the wrong pointer
    let before ← follow last
    setNext before (.to (.item i))
    setPrev .first (.to (.item i))

-- The store to the head's field and the one through a pointer come to the same.
def removeItem (i : Nat) : Act Unit := do
  let ht ← get
  if ht.next (.item i) ≠ .null then
    match ht.prev (.item i) with
    | .to before => do
      let behind ← follow (ht.next (.item i))
      require (ht.prev behind = .to (.item i))
      setNext before (ht.next (.item i))
    | .not .current => setNext .current (ht.next (.item i))
    | .not .first => setNext .first (ht.next (.item i))
    | _ => pure ()
    let behind ← follow ((← get).next (.item i))
    setPrev behind ((← get).prev (.item i))
    setNext (.item i) .null
    setPrev (.item i) .null

def attach (i : Nat) : Act Unit := do
  if (← get).next (.item i) ≠ .null then detach i
  setNext (.item i) (.to .first)
  setPrev (.item i) ((← get).prev .first)
  match (← get).prev .first with
  | .to last => do
    setNext last (.to (.item i))
    setPrev .first (.to (.item i))
  | .not head => do
    setNext head (.to (.item i))
    setPrev head (.to (.item i))
  | .null => throw .undefined
  setParent i none
  setChild i none

def acquireItem : Act (Option Nat) := do
  let ht ← get
  match ht.prev .current with
  | .to (.item i) =>
    if i < poolSize then do
      attach i
      pure (some i)
    else pure none
  | .to _ => throw .undefined
  | _ =>
    if ht.items < poolSize then do
      set { ht with items := ht.items + 1 }
      attach ht.items
      pure (some ht.items)
    else pure none

-- `p_item1` and `p_prev` where the walk towards heavier items ends. No list is longer
-- than the rounds of the walk.
def leaderOf (ht : Tree) (weight : UInt32) : Nat → Nat → Act (Nat × Option Nat)
  | 0, _ => throw .unfinished
  | fuel + 1, i =>
    match ht.prev (.item i) with
    | .to p => do
      let before ← itemAt p
      if ht.byteValue before ≥ weight then pure (i, some before) else leaderOf ht weight fuel before
    | _ => pure (i, none)

def exchangeListed (i leader : Nat) (before : Option Nat) : Act Unit := do
  if (← get).next (.item leader) ≠ .null then unlink leader
  linkAfter leader (.item i)
  unlink i
  linkAfter i (before.elim .first .item)

def exchangeParents (i leader : Nat) : Act Unit := do
  let above ← given ((← get).parent leader)
  let first := (← get).child above
  let own ← given ((← get).parent i)
  if (← get).child own = some i then setChild own (some leader)
  if first = some leader then setChild above (some i)
  setParent i (some above)
  setParent leader (some own)

def exchange (i leader : Nat) (before : Option Nat) : Act Unit := do
  exchangeListed i leader before
  exchangeParents i leader
  modify fun ht => { ht with generation := ht.generation + 1 }

def raiseItem : Option Nat → Act (Option Nat ⊕ Unit)
  | none => pure (.inr ())
  | some i => do
    setByteValue i ((← get).byteValue i + 1)
    let ht ← get
    let (leader, before) ← leaderOf ht (ht.byteValue i) (poolSize + 1) i
    if leader ≠ i then exchange i leader before
    pure (.inl ((← get).parent i))

-- No item has more ancestors than the walk has rounds.
def updateWeights (i : Option Nat) : Act Unit := rounds raiseItem (poolSize + 2) i

-- `huffman_tree_init` for decompression or compression.
def treeInit (decompress : Bool) (ht : Tree) : Tree :=
  { ht with
    next := fun
      | .current => .to .current
      | .first => .to .first
      | .item _ => .null
    prev := fun
      | .current => .not .current
      | .first => .not .first
      | .item _ => .null
    generation := 1
    items := 0
    quickDecodeCache :=
      if decompress then fun i => { ht.quickDecodeCache i with generation := 0 } else ht.quickDecodeCache }

def takeItem : Act Nat := do
  let ht ← get
  match ht.prev .current with
  | .to p => itemAt p
  | _ => do
    require (ht.items < poolSize)
    set { ht with items := ht.items + 1 }
    pure ht.items

-- The walk from a link for an item that is not lighter.
def notLighter (ht : Tree) (weight : UInt32) : Nat → Link → Act (Option Nat)
  | 0, _ => throw .unfinished
  | fuel + 1, .to p => do
    let i ← itemAt p
    if ht.byteValue i ≥ weight then pure (some i) else notLighter ht weight fuel (ht.prev (.item i))
  | _ + 1, _ => pure none

def plantSymbol (weights : List UInt8) (max : UInt32) (symbol : Nat) : Act UInt32 := do
  let weight := (weights.getD symbol 0).toUInt32
  if weight = 0 then pure max
  else do
    let item ← takeItem
    insertItem item .switchItems
    setParent item none
    setChild item none
    setSymbolNode symbol item
    setDcmpByte item (UInt32.ofNat symbol)
    setByteValue item weight
    if weight ≥ max then pure weight
    else do
      let place ← notLighter (← get) weight (poolSize + 1) ((← get).prev .first)
      removeItem item
      linkAfter item (place.elim .first .item)
      pure max

def plantControl (symbol : Nat) : Act Unit := do
  let item ← takeItem
  insertItem item .insertItem
  setDcmpByte item (UInt32.ofNat symbol)
  setByteValue item 1
  setParent item none
  setChild item none
  setSymbolNode symbol item

def joinItems : UInt32 × Nat → Act ((UInt32 × Nat) ⊕ Unit)
  | (max, child1) => do
    match (← get).prev (.item child1) with
    | .to p => do
      let child2 ← itemAt p
      let item ← takeItem
      insertItem item .switchItems
      setParent item none
      setChild item none
      setByteValue item ((← get).byteValue child1 + (← get).byteValue child2)
      setChild item (some child1)
      setParent child1 (some item)
      setParent child2 (some item)
      let ht ← get
      let weight := ht.byteValue item
      let max ← if weight ≥ max then pure weight else do
        let place ← notLighter ht weight (poolSize + 1) (ht.prev (.item child2))
        if (← get).next (.item item) ≠ .null then unlink item
        linkAfter item (place.elim .first .item)
        pure max
      match (← get).prev (.item child2) with
      | .to p => do
        let child1 ← itemAt p
        pure (.inl (max, child1))
      | _ => pure (.inr ())
    | _ => pure (.inr ())

-- The loop at the start that empties a used tree is not entered after `huffman_tree_init`.
def treeBuild (cmpType : UInt32) : Act Unit := do
  require ((← get).prev .first = .not .first)
  modify fun ht => { ht with symbolNodes := fun _ => none }
  let cmpType := (cmpType &&& 0xFF).toNat
  require (cmpType < initialWeightTypes)
  let weights := initialWeights.drop (cmpType * initialWeightBlockSize)
  let max ← (List.range 0x100).foldlM (plantSymbol weights) 0
  plantControl 0x100
  plantControl 0x101
  match (← get).prev .first with
  | .to p => do
    let child1 ← itemAt p
    rounds joinItems (poolSize + 1) (max, child1)
  | _ => pure ()
  modify fun ht => { ht with generation := 1 }

-- `huffman_insert_literal` of the encoder.
def insertLiteral (value : UInt32) : Act Unit := do
  match (← get).prev .first with
  | .to p => do
    let escape ← itemAt p
    let old ← acquireItem
    let literal ← acquireItem
    match old, literal with
    | some old, some literal => do
      setParent old (some escape)
      setDcmpByte old ((← get).dcmpByte escape)
      setByteValue old ((← get).byteValue escape)
      setParent literal (some escape)
      setDcmpByte literal value
      setByteValue literal 0
      setChild escape (some literal)
      setSymbolNode ((← get).dcmpByte old).toNat old
      setSymbolNode value.toNat literal
      updateWeights (some literal)
      if ¬ (← get).compressionTypeZero then updateWeights (some old)
    | _, _ => throw (.error .malloc)
  | _ => throw (.error .format)

-- The same in the decoder. `false`: there is no item to split and the call returns zero.
def splitLast (value : UInt32) : Act Bool := do
  match (← get).prev .first with
  | .to p => do
    let last ← itemAt p
    let some old ← acquireItem | throw (.error .unpack)
    setParent old (some last)
    setDcmpByte old ((← get).dcmpByte last)
    setByteValue old ((← get).byteValue last)
    setSymbolNode ((← get).dcmpByte old).toNat old
    let some literal ← acquireItem | throw (.error .unpack)
    setParent literal (some last)
    setDcmpByte literal value
    setByteValue literal 0
    setSymbolNode ((← get).dcmpByte literal).toNat literal
    setChild last (some literal)
    updateWeights (some literal)
    if ¬ (← get).compressionTypeZero then updateWeights ((← get).symbolNodes value.toNat)
    pure true
  | _ => pure false

end Huffman

end LibMpq
