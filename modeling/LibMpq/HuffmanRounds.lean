import LibMpq.HuffmanCache

set_option autoImplicit false

namespace LibMpq

open Effect Function Sibling Bitstream

namespace Huffman

def Tree.bare (ht : Tree) : Tree := { ht with generation := 0, quickDecodeCache := Tree.zero.quickDecodeCache }

def Change.trades (ht : Tree) (change : Change) : Nat :=
  match change.run ht.bare with
  | .ok _ ht' => ht'.generation.toNat
  | .error _ _ => 0

structure Change.InRange (ht : Tree) (change : Change) : Prop where
  fits : change.Fits ht
  generation : ht.generation.toNat + change.trades ht < 2 ^ 32

def InRange : Tree → List Change → Prop
  | _, [] => True
  | ht, change :: changes => change.InRange ht ∧ ∀ ht', change.run ht = .ok () ht' → InRange ht' changes

theorem InRange.disguised {ht : Tree} {changes : List Change} (range : InRange ht changes) (cache : Nat → QuickDecode) :
    InRange (ht.disguised 0 cache) changes := by
  induction changes generalizing ht with
  | nil => trivial
  | cons change changes ih =>
    obtain ⟨first, further⟩ := range
    refine ⟨⟨?_, ?_⟩, fun ht' run => ?_⟩
    · cases change <;> exact first.fits
    · have generation : (ht.disguised 0 cache).generation = ht.generation := by simp [Tree.disguised]
      rw [generation]
      exact first.generation
    · rw [change.run_unseen ht] at run
      cases plain : change.run ht with
      | ok u ht1 =>
        rw [plain] at run
        cases run
        exact ih (further ht1 plain)
      | error e ht1 =>
        rw [plain] at run
        cases run

theorem Changed.trades_eq {change : Change} {ht ht' : Tree} {trades : Nat} (changed : Changed change ht ht' trades)
    (run : change.run ht = .ok () ht') : change.trades ht = trades := by
  have bare : ht.bare = ht.disguised (0 - ht.generation) Tree.zero.quickDecodeCache := by
    rw [Tree.bare, Tree.disguised, show ht.generation + (0 - ht.generation) = 0 by grind]
  have back : ht.generation + UInt32.ofNat trades + (0 - ht.generation) = UInt32.ofNat trades := by grind
  have few := changed.few
  rw [Change.trades, bare, change.run_unseen.ok run]
  show (ht'.generation + (0 - ht.generation)).toNat = trades
  rw [changed.generation, back]
  exact UInt32.toNat_ofNat_of_lt' (by unfold poolSize at few; simp [UInt32.size]; omega)

theorem Cached.change {ht ht' : Tree} {root trades : Nat} {change : Change} (cached : Cached ht root)
    (changed : Changed change ht ht' trades) (room : ht.generation.toNat + trades < 2 ^ 32) : Cached ht' root := by
  by_cases still : trades = 0
  next =>
    obtain ⟨shape, dcmpByte⟩ := changed.still still
    have generation : ht'.generation = ht.generation := by rw [changed.generation, still]; simp
    refine ⟨fun index below => ?_, fun index below now => ?_⟩
    · rw [changed.quickDecodeCache, generation]
      exact cached.past index below
    · rw [changed.quickDecodeCache, generation] at now
      rw [changed.quickDecodeCache]
      exact (cached.current index below now).congr shape dcmpByte
  next =>
    refine cached.older ?_ changed.quickDecodeCache
    rw [changed.generation]
    exact generation_later (Nat.pos_of_ne_zero still) room

def Change.all : List Change → Act Unit
  | [] => pure ()
  | change :: changes => do
    change.run
    Change.all changes

def raisesOf (ht : Tree) (symbol : UInt32) (left : Nat) : List Change :=
  if left - 1 = 0 ∨ ¬ ht.compressionTypeZero then [] else [.update symbol.toNat]

def changesOf (ht : Tree) (symbol value : UInt32) (left : Nat) : List Change :=
  if symbol = 0x101 then .split value :: raisesOf ht value left
  else if symbol = 0x100 then [] else raisesOf ht symbol left

section Digest

variable {d : Decoder} {symbol : UInt32} {left : Nat}

theorem emit_end (left : Nat) (d : Decoder) : emit 0x100 left d = .ok (.inr (returned d.out)) d := rfl

theorem emit_last (byte : symbol ≠ 0x100) (last : left - 1 = 0) :
    emit symbol left d =
      .ok (.inr (returned (d.out ++ [symbol.toUInt8]))) { d with out := d.out ++ [symbol.toUInt8] } := by
  rw [emit, if_neg byte, bind_of_ok (modify_run _ _), if_pos last]
  rfl

theorem emit_more (byte : symbol ≠ 0x100) (more : left - 1 ≠ 0) :
    emit symbol left d =
      (do
        onTree (Change.all (raisesOf d.ht symbol left))
        pure (.inl (left - 1)) : Dec (Nat ⊕ Int)) { d with out := d.out ++ [symbol.toUInt8] } := by
  rw [emit, if_neg byte, bind_of_ok (modify_run _ _), if_neg more, raisesOf, bind_of_ok (get_run _)]
  by_cases zero : d.ht.compressionTypeZero = true
  next => simp [zero, more, Change.all, Change.run]
  next =>
    simp [zero, more, Change.all]
    rfl

theorem digest_escape {view : List Bool} (holds : d.is.Holds view) (enough : 8 ≤ view.length) :
    ∃ is, digest 0x101 left d =
        (do
          if ← onTree (splitLast (UInt32.ofNat (value (view.take 8)))) then emit (UInt32.ofNat (value (view.take 8))) left
          else pure (.inr 0) : Dec (Nat ⊕ Int)) { d with is := is } ∧ is.Holds (view.drop 8) := by
  obtain ⟨is, byte, run, is', view', sound, failed⟩ := readByte_run holds.toSound (holds.view ▸ enough)
  rw [holds.view] at is' view'
  have clean := failed.trans holds.clean
  refine ⟨is, ?_, sound, view', clean⟩
  rw [digest, if_pos rfl, bind_of_ok (onStream_ok run), bind_of_ok (@checkFailed_clean { d with is := is } clean), ← is',
    UInt32.ofNat_toNat]

theorem digest_short {view : List Bool} (holds : d.is.Holds view) (short : ¬ 8 ≤ view.length) :
    ∃ is, digest 0x101 left d = .error (.error .unpack) { d with is := is } := by
  obtain ⟨is, run, _, _, failed⟩ := readByte_fails holds.toSound (holds.view ▸ short)
  refine ⟨is, ?_⟩
  rw [digest, if_pos rfl, bind_of_ok (onStream_ok run), bind_of_error (@checkFailed_failed { d with is := is } failed)]

end Digest

structure SameBut (d w : Decoder) : Prop where
  out : d.out = w.out
  view : d.is.view = w.is.view
  sound : d.is.Sound ∧ w.is.Sound
  failed : d.is.failed = w.is.failed
  tree : ∃ cache, d.ht = w.ht.disguised 0 cache

section Mirrors

theorem onTree_mirrors {α : Type} {x : Act α} (unseen : ∀ cache, Unseen (Tree.disguised 0 cache) x) :
    Mirrors SameBut (onTree x) (onTree x) := by
  intro d w same
  obtain ⟨cache, tree⟩ := same.tree
  rw [onTree, zoom, zoom, tree, unseen]
  cases x w.ht with
  | ok a ht => exact .ok a ⟨same.out, same.view, same.sound, same.failed, cache, rfl⟩
  | error e ht => exact .error e ⟨same.out, same.view, same.sound, same.failed, cache, rfl⟩

theorem readByte_mirrors : Mirrors SameBut (onStream readByte) (onStream readByte) := by
  intro d w same
  by_cases enough : 8 ≤ w.is.view.length
  next =>
    obtain ⟨is, byte, run, value, view, sound, failed⟩ := readByte_run same.sound.1 (same.view ▸ enough)
    obtain ⟨is', byte', run', value', view', sound', failed'⟩ := readByte_run same.sound.2 enough
    obtain rfl : byte = byte' := UInt32.toNat.inj (by rw [value, value', same.view])
    rw [onStream_ok run, onStream_ok run']
    exact .ok byte ⟨same.out, by rw [view, view', same.view], ⟨sound, sound'⟩, by rw [failed, failed', same.failed],
      same.tree⟩
  next =>
    obtain ⟨is, run, view, sound, failed⟩ := readByte_fails same.sound.1 (same.view ▸ enough)
    obtain ⟨is', run', view', sound', failed'⟩ := readByte_fails same.sound.2 enough
    rw [onStream_ok run, onStream_ok run']
    exact .ok 0 ⟨same.out, by rw [view, view', same.view], ⟨sound, sound'⟩, by rw [failed, failed'], same.tree⟩

theorem checkFailed_mirrors : Mirrors SameBut checkFailed checkFailed := by
  intro d w same
  cases failed : d.is.failed with
  | true =>
    rw [checkFailed_failed failed, checkFailed_failed (same.failed.symm.trans failed)]
    exact .error _ same
  | false =>
    rw [checkFailed_clean failed, checkFailed_clean (same.failed.symm.trans failed)]
    exact .ok () same

theorem changes_unseen {cache : Nat → QuickDecode} {more : UInt32} (changes : List Change) :
    Unseen (Tree.disguised more cache) (Change.all changes) := by
  induction changes with
  | nil => exact .pure _
  | cons change changes ih => exact .bind change.run_unseen fun _ => ih

theorem emit_mirrors (symbol : UInt32) (left : Nat) : Mirrors SameBut (emit symbol left) (emit symbol left) := by
  intro d w same
  by_cases byte : symbol = 0x100
  next =>
    rw [byte, emit_end, emit_end, same.out]
    exact .ok _ same
  have written : SameBut { d with out := d.out ++ [symbol.toUInt8] } { w with out := w.out ++ [symbol.toUInt8] } :=
    ⟨by rw [same.out], same.view, same.sound, same.failed, same.tree⟩
  by_cases last : left - 1 = 0
  next =>
    rw [emit_last byte last, emit_last byte last, same.out]
    exact .ok _ (same.out ▸ written)
  next =>
    have raises : raisesOf d.ht symbol left = raisesOf w.ht symbol left := by
      obtain ⟨cache, tree⟩ := same.tree
      rw [tree]
      rfl
    rw [emit_more byte last, emit_more byte last, raises]
    exact (onTree_mirrors fun cache => changes_unseen _).bind (fun _ => .pure _) _ _ written

theorem digest_mirrors (symbol : UInt32) (left : Nat) : Mirrors SameBut (digest symbol left) (digest symbol left) := by
  unfold digest
  split
  next =>
    refine readByte_mirrors.bind fun value => checkFailed_mirrors.bind fun _ =>
      (onTree_mirrors fun cache => splitLast_unseen value).bind fun new => ?_
    cases new with
    | true => exact emit_mirrors value left
    | false => exact .pure _
  next => exact emit_mirrors symbol left

end Mirrors

theorem SameBut.rooted {d w : Decoder} {root : Nat} {slots : List (Slot Nat)} {due : Option Nat} (same : SameBut d w)
    (rooted : Rooted d.ht root slots due) : Rooted w.ht root slots due := by
  obtain ⟨cache, tree⟩ := same.tree
  rw [tree] at rooted
  exact rooted.congr ⟨rfl, rfl, rfl, rfl⟩ rfl rfl rfl rfl

theorem SameBut.path {d w : Decoder} (same : SameBut d w) (i : Nat) (bits : List Bool) :
    w.ht.path i bits = d.ht.path i bits := by
  obtain ⟨cache, tree⟩ := same.tree
  rw [tree]
  exact (@SameShape.path w.ht (w.ht.disguised 0 cache) ⟨rfl, rfl, rfl, rfl⟩ i bits).symm

theorem decodeRound_same {d w : Decoder} {root left : Nat} {slots : List (Slot Nat)} (rooted : Rooted d.ht root slots none)
    (cached : Cached d.ht root) (same : SameBut d w) {view : List Bool} (holds : d.is.Holds view)
    (enough : 7 ≤ view.length) :
    Alike SameBut (decodeRound fetchSymbol left d) (decodeRound walkSymbol left w) := by
  have rooted' := same.rooted rooted
  have holds' : w.is.Holds view := ⟨same.sound.2, same.view.symm.trans holds.view, same.failed.symm.trans holds.clean⟩
  have child : w.ht.child = d.ht.child := by
    obtain ⟨cache, tree⟩ := same.tree
    rw [tree]
    rfl
  have dcmpByte : w.ht.dcmpByte = d.ht.dcmpByte := by
    obtain ⟨cache, tree⟩ := same.tree
    rw [tree]
    rfl
  rcases rooted.grown.path_cases (by simp) rooted.internal view with
    ⟨bits, rest, leaf, rfl, _, path, free⟩ | ⟨last, path, more⟩
  · obtain ⟨is, cache, run, after, _⟩ := fetchSymbol_run rooted cached holds enough path free
    obtain ⟨is', run', after'⟩ := walkSymbol_run rooted' holds' (by rwa [same.path]) (by rwa [child])
    rw [decodeRound, decodeRound, bind_of_ok run, bind_of_ok run', dcmpByte]
    refine digest_mirrors _ _ _ _ ⟨same.out, after.view.trans after'.view.symm, ⟨after.toSound, after'.toSound⟩,
      after.clean.trans after'.clean.symm, cache, ?_⟩
    obtain ⟨old, tree⟩ := same.tree
    show { d.ht with quickDecodeCache := cache } = _
    rw [tree]
    rfl
  · obtain ⟨is, run, spent⟩ := fetchSymbol_fails rooted cached holds enough path more
    obtain ⟨is', run', spent'⟩ := walkSymbol_fails rooted' holds' (by rwa [same.path]) (by rwa [child])
    rw [decodeRound, decodeRound, bind_of_error run, bind_of_error run']
    exact .error _ ⟨same.out, spent.view.trans spent'.view.symm, ⟨spent.toSound, spent'.toSound⟩,
      spent.failed.trans spent'.failed.symm, same.tree⟩

structure Between (d : Decoder) (root : Nat) : Prop where
  rooted : ∃ slots, Rooted d.ht root slots none
  cached : Cached d.ht root
  holds : ∃ view, d.is.Holds view

theorem Rooted.named {ht : Tree} {root : Nat} {slots : List (Slot Nat)} {due : Option Nat} (rooted : Rooted ht root slots due)
    {bits : List Bool} {leaf : Nat} (path : ht.path root bits = some leaf) (free : ht.child leaf = none) :
    (ht.dcmpByte leaf).toNat < 0x102 ∧ ∃ i, ht.symbolNodes (ht.dcmpByte leaf).toNat = some i := by
  have used := (rooted.grown.used leaf).mp (rooted.grown.path_after (by simp) path).1
  exact ⟨rooted.known leaf used free, rooted.present leaf used free⟩

section Next

variable {d d' : Decoder} {root left left' : Nat} {slots : List (Slot Nat)} {symbol : UInt32} {view : List Bool}

theorem emit_next (rooted : Rooted d.ht root slots none) (cached : Cached d.ht root) (holds : d.is.Holds view)
    (known : symbol ≠ 0x100 → symbol.toNat < 0x100) (node : ∃ i, d.ht.symbolNodes symbol.toNat = some i)
    (range : symbol ≠ 0x100 → InRange d.ht (raisesOf d.ht symbol left)) (run : emit symbol left d = .ok (.inl left') d') :
    Between d' root ∧ left' = left - 1 := by
  by_cases byte : symbol = 0x100
  next =>
    rw [byte, emit_end] at run
    exact absurd run nofun
  by_cases last : left - 1 = 0
  next =>
    rw [emit_last byte last] at run
    exact absurd run nofun
  rw [emit_more byte last] at run
  have range := range byte
  unfold raisesOf at range run
  by_cases zero : d.ht.compressionTypeZero = true
  next =>
    rw [if_neg (by simp [last, zero])] at range run
    have inRange := range.1
    rcases rooted.change (.update symbol.toNat) ⟨known byte, node⟩ inRange.fits with
      ⟨ht', slots', trades, run', rooted', changed, _⟩ | ⟨_, e, refused⟩
    · have whole : Change.all [.update symbol.toNat] d.ht = .ok () ht' := by
        rw [Change.all, bind_of_ok run']
        rfl
      rw [bind_of_ok (@onTree_ok _ _ { d with out := d.out ++ [symbol.toUInt8] } _ _ whole)] at run
      cases run
      refine ⟨⟨⟨slots', rooted'⟩, cached.change changed ?_, view, holds⟩, rfl⟩
      rw [← changed.trades_eq run']
      exact inRange.generation
    · have whole : Change.all [.update symbol.toNat] d.ht = .error (.error e) d.ht := by
        rw [Change.all, bind_of_error refused]
      rw [bind_of_error (@onTree_error _ _ { d with out := d.out ++ [symbol.toUInt8] } _ _ whole)] at run
      exact absurd run nofun
  next =>
    rw [if_pos (.inr zero)] at run
    cases run
    exact ⟨⟨⟨slots, rooted⟩, cached, view, holds⟩, rfl⟩

def byteAhead (view : List Bool) : UInt32 := UInt32.ofNat (value (view.take 8))

theorem byteAhead_small (view : List Bool) : (byteAhead view).toNat < 0x100 := by
  have small := value_lt (view.take 8)
  have most : 2 ^ (view.take 8).length ≤ 2 ^ 8 := Nat.pow_le_pow_right (by decide) (by simp)
  rw [byteAhead, UInt32.toNat_ofNat_of_lt' (by simp [UInt32.size]; omega)]
  omega

theorem digest_next (rooted : Rooted d.ht root slots none) (cached : Cached d.ht root) (holds : d.is.Holds view)
    (known : symbol.toNat < 0x102) (node : ∃ i, d.ht.symbolNodes symbol.toNat = some i)
    (range : InRange d.ht (changesOf d.ht symbol (byteAhead view) left)) (run : digest symbol left d = .ok (.inl left') d') :
    Between d' root ∧ left' = left - 1 := by
  by_cases escape : symbol = 0x101
  next =>
    subst escape
    rw [changesOf, if_pos rfl] at range
    by_cases enough : 8 ≤ view.length
    next =>
      obtain ⟨is, escaped, holds'⟩ := @digest_escape d left view holds enough
      have small := byteAhead_small view
      rw [escaped, ← show byteAhead view = UInt32.ofNat (value (view.take 8)) from rfl] at run
      obtain ⟨inRange, further⟩ := range
      rcases rooted.change (.split (byteAhead view)) small inRange.fits with
        ⟨ht', slots', trades, run', rooted', changed, _⟩ | ⟨_, e, refused⟩
      · have cached' : Cached ht' root := cached.change changed (changed.trades_eq run' ▸ inRange.generation)
        obtain ⟨new, ht1, split, same⟩ := bind_ok.mp run'
        obtain ⟨_, rfl⟩ := pure_ok.mp same
        rw [bind_of_ok (@onTree_ok _ _ { d with is := is } _ _ split)] at run
        cases new with
        | false => cases run
        | true =>
          refine @emit_next { d with is := is, ht := ht' } _ _ _ _ _ _ _ rooted' cached' holds' (fun _ => small)
            changed.named (fun _ => ?_) run
          have later := further ht' run'
          unfold raisesOf at later ⊢
          rwa [changed.compressionTypeZero]
      · have stop : splitLast (byteAhead view) d.ht = .error (.error e) d.ht := by
          rw [Change.run, bind_run] at refused
          cases split : splitLast (byteAhead view) d.ht with
          | ok a ht' =>
            rw [split] at refused
            cases refused
          | error e' ht' =>
            rw [split] at refused
            cases refused
            rfl
        rw [bind_of_error (@onTree_error _ _ { d with is := is } _ _ stop)] at run
        cases run
    next =>
      obtain ⟨is, failed⟩ := @digest_short d left view holds enough
      rw [failed] at run
      cases run
  next =>
    rw [digest, if_neg escape] at run
    have other : symbol.toNat ≠ 0x101 := fun same => escape (UInt32.toNat.inj same)
    refine emit_next rooted cached holds (fun byte => ?_) node (fun byte => ?_) run
    · have : symbol.toNat ≠ 0x100 := fun same => byte (UInt32.toNat.inj same)
      omega
    · rwa [changesOf, if_neg escape, if_neg byte] at range

end Next

theorem openStream_run (memory : Tree) {is : InputStream} {view : List Bool} (holds : is.Holds view) (out : Bytes) :
    (∃ e d, openStream { ht := treeInit true memory, is := is, out := out } = .error (.error e) d ∧ d.is.Sound) ∨
    ∃ d root, openStream { ht := treeInit true memory, is := is, out := out } = .ok () d ∧ Between d root := by
  by_cases enough : 8 ≤ view.length
  next =>
    obtain ⟨is', byte, run, _, view', sound, failed⟩ := readByte_run holds.toSound (holds.view ▸ enough)
    have clean := failed.trans holds.clean
    have begin_ : openStream { ht := treeInit true memory, is := is, out := out } =
        (do
          if ¬ byte.toNat < initialWeightTypes then throw (.error .unpack)
          onTree (treeBuild byte)
          modify fun d => { d with ht := { d.ht with compressionTypeZero := byte = 0 } } : Dec Unit)
          { ht := treeInit true memory, is := is', out := out } := by
      rw [openStream, bind_of_ok (@onStream_ok _ _ { ht := treeInit true memory, is := is, out := out } _ _ run),
        bind_of_ok (@checkFailed_clean { ht := treeInit true memory, is := is', out := out } clean)]
    rw [begin_]
    by_cases known : byte.toNat < initialWeightTypes
    next =>
      obtain ⟨ht, root, slots, build, rooted, _, generation, cache⟩ := treeBuild_run true memory known
      refine .inr ⟨{ ht := { ht with compressionTypeZero := byte = 0 }, is := is', out := out }, root, ?_, ⟨slots, ?_⟩,
        ⟨fun index _ => ?_, fun index _ now => ?_⟩, _, sound, rfl, clean⟩
      · rw [if_neg (not_not.mpr known)]
        beta_reduce
        rw [bind_of_ok (@onTree_ok _ _ { ht := treeInit true memory, is := is', out := out } _ _ build), modify_run]
      · exact rooted.congr ⟨rfl, rfl, rfl, rfl⟩ rfl rfl rfl rfl
      · show (ht.quickDecodeCache index).generation ≤ ht.generation
        rw [cache, generation]
        exact (by decide : (0 : UInt32) ≤ 1)
      · have now : (ht.quickDecodeCache index).generation = ht.generation := now
        rw [cache, generation] at now
        exact absurd now (by decide : (0 : UInt32) ≠ 1)
    next =>
      refine .inl ⟨.unpack, { ht := treeInit true memory, is := is', out := out }, ?_, sound⟩
      rw [if_pos known]
      rfl
  next =>
    obtain ⟨is', run, _, sound, failed⟩ := readByte_fails holds.toSound (holds.view ▸ enough)
    refine .inl ⟨.unpack, { ht := treeInit true memory, is := is', out := out }, ?_, sound⟩
    rw [openStream, bind_of_ok (@onStream_ok _ _ { ht := treeInit true memory, is := is, out := out } _ _ run),
      bind_of_error (@checkFailed_failed { ht := treeInit true memory, is := is', out := out } failed)]

def Decoder.InRange (d : Decoder) (left : Nat) : Prop :=
  ∀ symbol d', walkSymbol d = .ok (some symbol) d' → Huffman.InRange d.ht (changesOf d.ht symbol (byteAhead d'.is.view) left)

theorem decodeRound_next {d d' : Decoder} {root left left' : Nat} (between : Between d root) (range : d.InRange left)
    (enough : 7 ≤ d.is.view.length) (run : decodeRound fetchSymbol left d = .ok (.inl left') d') :
    Between d' root ∧ left' = left - 1 := by
  obtain ⟨⟨slots, rooted⟩, cached, view, holds⟩ := between
  rw [holds.view] at enough
  rcases rooted.grown.path_cases (by simp) rooted.internal view with
    ⟨bits, rest, leaf, rfl, _, path, free⟩ | ⟨last, path, more⟩
  · obtain ⟨is, cache, fetched, after, cached'⟩ := fetchSymbol_run rooted cached holds enough path free
    obtain ⟨is', walked, after'⟩ := walkSymbol_run rooted holds path free
    have range := range _ _ walked
    obtain ⟨known, node⟩ := rooted.named path free
    rw [decodeRound, bind_of_ok fetched] at run
    have tree : d.ht.disguised 0 cache = { d.ht with quickDecodeCache := cache } := by simp [Tree.disguised]
    rw [← tree] at run cached'
    have rooted' : Rooted (d.ht.disguised 0 cache) root slots none := rooted.congr ⟨rfl, rfl, rfl, rfl⟩ rfl rfl rfl rfl
    have view : is'.view = rest := after'.view
    rw [view] at range
    exact @digest_next { d with is := is, ht := d.ht.disguised 0 cache } _ _ _ _ _ _ _ rooted' cached' after known node
      (range.disguised cache) run
  · obtain ⟨is, failed, _⟩ := fetchSymbol_fails rooted cached holds enough path more
    rw [decodeRound, bind_of_error failed] at run
    cases run

section Runs

variable {d : Decoder} {root n : Nat}

theorem turns_next {k left : Nat} {d' : Decoder} (between : Between d root)
    (enough : ∀ k left d', turns (decodeRound fetchSymbol) k n d = .ok (.inl left) d' → 7 ≤ d'.is.view.length)
    (range : ∀ k left d', turns (decodeRound fetchSymbol) k n d = .ok (.inl left) d' → d'.InRange left)
    (run : turns (decodeRound fetchSymbol) k n d = .ok (.inl left) d') : Between d' root := by
  induction k generalizing left d' with
  | zero =>
    obtain ⟨_, rfl⟩ := pure_ok.mp run
    exact between
  | succ k ih =>
    obtain ⟨r, d1, run1, next⟩ := bind_ok.mp run
    cases r with
    | inl left1 => exact (decodeRound_next (ih run1) (range _ _ _ run1) (enough _ _ _ run1) next).1
    | inr result => exact absurd next nofun

theorem turns_same (between : Between d root)
    (enough : ∀ k left d', turns (decodeRound fetchSymbol) k n d = .ok (.inl left) d' → 7 ≤ d'.is.view.length)
    (range : ∀ k left d', turns (decodeRound fetchSymbol) k n d = .ok (.inl left) d' → d'.InRange left) (k : Nat) :
    Alike SameBut (turns (decodeRound fetchSymbol) k n d) (turns (decodeRound walkSymbol) k n d) := by
  induction k with
  | zero =>
    obtain ⟨_, _, view, holds⟩ := between
    exact .ok _ ⟨rfl, rfl, ⟨holds.toSound, holds.toSound⟩, rfl, d.ht.quickDecodeCache, by simp [Tree.disguised]⟩
  | succ k ih =>
    refine ih.bind fun r d1 w1 run related => ?_
    cases r with
    | inl left =>
      obtain ⟨⟨slots, rooted⟩, cached, view, holds⟩ := turns_next between enough range run
      have seven := enough _ _ _ run
      rw [holds.view] at seven
      exact decodeRound_same rooted cached related holds seven
    | inr result => exact .ok _ related

end Runs

theorem cache_transparent (memory : Tree) (is : InputStream) (sound : is.Sound) (clean : is.failed = false)
    (outLength : UInt32) (start : Decoder) (started : start = { ht := treeInit true memory, is := is, out := [] })
    (enough : ∀ d, openStream start = .ok () d → ∀ k left d',
      turns (decodeRound fetchSymbol) k outLength.toNat d = .ok (.inl left) d' → 7 ≤ d'.is.view.length)
    (range : ∀ d, openStream start = .ok () d → ∀ k left d',
      turns (decodeRound fetchSymbol) k outLength.toNat d = .ok (.inl left) d' → d'.InRange left) :
    Alike SameBut (decode outLength start) (decodeWith walkSymbol outLength start) ∧
      ∀ d, openStream start = .ok () d → ∀ k,
        Alike SameBut (turns (decodeRound fetchSymbol) k outLength.toNat d)
          (turns (decodeRound walkSymbol) k outLength.toNat d) ∧
        ∀ left d', turns (decodeRound fetchSymbol) k outLength.toNat d = .ok (.inl left) d' →
          ∃ root, rootItem d'.ht = .ok (some root) d'.ht ∧
            ∀ index < 0x80, (d'.ht.quickDecodeCache index).generation ≥ d'.ht.generation →
              Describes d'.ht root index (d'.ht.quickDecodeCache index) := by
  have same : ∀ d : Decoder, d.is.Sound → SameBut d d := fun d sound =>
    ⟨rfl, rfl, ⟨sound, sound⟩, rfl, d.ht.quickDecodeCache, by simp [Tree.disguised]⟩
  have opened := openStream_run memory ⟨sound, rfl, clean⟩ []
  rw [← started] at opened
  constructor
  · rw [decode, decodeWith, decodeWith]
    split
    next => exact .ok 0 (same start (started ▸ sound))
    next =>
      rcases opened with ⟨e, d, failed, sound'⟩ | ⟨d, root, opened, between⟩
      · rw [bind_of_error failed, bind_of_error failed]
        exact .error _ (same d sound')
      · rw [bind_of_ok opened, bind_of_ok opened, ← Nat.add_zero outLength.toNat, rounds_add, rounds_add]
        refine (turns_same between (enough d opened) (range d opened) _).bind fun r d' w' _ related => ?_
        cases r with
        | inl left => exact .error _ related
        | inr result => exact .ok _ related
  · intro d run k
    rcases opened with ⟨e, d', failed, _⟩ | ⟨d', root, opened, between⟩
    · rw [failed] at run
      cases run
    · obtain rfl : d' = d := by
        rw [opened] at run
        cases run
        rfl
      refine ⟨turns_same between (enough d' opened) (range d' opened) k, fun left d2 reached => ?_⟩
      obtain ⟨⟨slots, rooted⟩, cached, _⟩ := turns_next between (enough d' opened) (range d' opened) reached
      exact ⟨root, rootItem_run rooted.grown, fun index below now =>
        cached.current index below (UInt32.le_antisymm (cached.past index below) now)⟩

end Huffman

end LibMpq
