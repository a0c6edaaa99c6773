import LibMpq.Base.Checked
import LibMpq.AttributesRows

set_option autoImplicit false

namespace LibMpq

open Effect Bits

namespace Attributes

open Wire

def field {σ α : Type} (wire : Wire α) (zero : α) (recorded : Bool) (data : Bytes) (offset : Nat) :
    Op (Stop Error) σ α :=
  if recorded then do
    let part ← load data offset wire.width
    pure (wire.decode part)
  else pure zero

-- `libmpq__attributes_get`, with its accesses to the payload
def fetch {σ : Type} (view : View) (index : Nat) : Op (Stop Error) σ FileAttributes :=
  if index ≥ view.entries then pure .none
  else do
    let flags := view.flags &&& ~~~attributePatchBit
    let crc32 ← field le32 0 (has flags attributeCrc32) view.data (view.crcOffset + index * 4)
    let filetime ← field le64 0 (has flags attributeFiletime) view.data (view.filetimeOffset + index * 8)
    let md5 ← field digestWire .zero (has flags attributeMd5) view.data (view.md5Offset + index * 16)
    let flags := if has flags attributeMd5 && md5.1.all (· = 0) then flags &&& ~~~attributeMd5 else flags
    if has view.flags attributePatchBit then
      if index < view.patchBits then do
        let byte ← load view.data (view.bitsOffset + index / 8) 1
        pure { flags := flags ||| attributePatchBit, crc32, filetime, md5
               patchBit := byte.getD 0 0 &&& UInt8.ofNat (0x80 >>> (index % 8)) ≠ 0 }
      else if index = view.self ∧ view.patchSelfOmitted then
        pure { flags := flags ||| attributePatchBit, crc32, filetime, md5, patchBit := false }
      else pure { flags, crc32, filetime, md5, patchBit := false }
    else pure { flags, crc32, filetime, md5, patchBit := false }

structure BitArray (count : Nat) (view : View) (size : Nat) : Prop where
  exact_ : view.data.length = view.bitsOffset + size
  known : size = (view.entries + 7) / 8 ∨ size = (count + 6) / 8
  holds : view.patchBits ≤ size * 8

structure Fits (count : Nat) (view : View) : Prop where
  crcOffset : view.crcOffset = 8
  filetimeOffset : view.filetimeOffset = 8 + (if has view.flags attributeCrc32 then view.entries * 4 else 0)
  md5Offset : view.md5Offset = 8 + (if has view.flags attributeCrc32 then view.entries * 4 else 0) +
    (if has view.flags attributeFiletime then view.entries * 8 else 0)
  bitsOffset : view.bitsOffset = 8 + columnsSize view.entries view.flags
  room : view.bitsOffset ≤ view.data.length
  bits : (view.patchBits = 0 ∧ view.patchSelfOmitted = false) ∨ ∃ size, BitArray count view size

structure Open (data : Bytes) (self : Nat) (view : View) : Prop where
  data : view.data = data
  own : view.self = self
  patchBits : view.patchBits = 0
  patchSelfOmitted : view.patchSelfOmitted = false

theorem matchLayout_spec {data : Bytes} {self : Nat} {view : View} (candidate : Open data self view)
    (count entries : Nat) (legacy : Bool) :
    if (matchLayout count entries legacy view).1 then
      Fits count (matchLayout count entries legacy view).2 ∧
        (matchLayout count entries legacy view).2.data = data ∧
        (matchLayout count entries legacy view).2.self = self
    else Open data self (matchLayout count entries legacy view).2 := by
  obtain ⟨rfl, rfl, unread, kept⟩ := candidate
  have plain : ∀ bits : Bool, 8 + columnsSize entries view.flags ≤ view.data.length →
      if bits then
        Fits count { arrayLayout entries view with entries } ∧
          (arrayLayout entries view).data = view.data ∧ (arrayLayout entries view).self = view.self
      else Open view.data view.self { arrayLayout entries view with entries } := by
    intro bits room
    split
    · exact ⟨⟨rfl, rfl, rfl, rfl, room, .inl ⟨unread, kept⟩⟩, rfl, rfl⟩
    · exact ⟨rfl, rfl, unread, kept⟩
  unfold matchLayout
  simp only [show (arrayLayout entries view).bitsOffset = 8 + columnsSize entries view.flags from rfl,
    show (arrayLayout entries view).data = view.data from rfl,
    show (arrayLayout entries view).flags = view.flags from rfl]
  split
  next beyond => exact ⟨rfl, rfl, unread, kept⟩
  next room =>
    rw [Nat.not_lt] at room
    split
    next unpatched => exact plain _ room
    next patched =>
      split
      next full =>
        exact ⟨⟨rfl, rfl, rfl, rfl, room, .inr ⟨(entries + 7) / 8, full.symm, .inl rfl, by
          show entries ≤ _
          omega⟩⟩, rfl, rfl⟩
      next notFull =>
        split
        next short =>
          exact ⟨⟨rfl, rfl, rfl, rfl, room, .inr ⟨(count + 6) / 8, short.symm, .inr rfl, Nat.le_refl _⟩⟩,
            rfl, rfl⟩
        next notShort =>
          split
          next => exact plain false room
          next =>
            split
            next => exact plain true room
            next =>
              split
              next => exact plain false room
              next => exact plain _ room

theorem parse_fits {data : Bytes} {count self : Nat} {view : View}
    (accepted : parse data count self = .ok view) :
    Fits count view ∧ view.data = data ∧ view.self = self := by
  unfold parse at accepted
  split at accepted
  next => nomatch accepted
  next =>
    simp only at accepted
    split at accepted
    next => nomatch accepted
    next =>
      generalize start : ({ data, flags := le32.decode (data.drop 4), entries := 0, self, patchBits := 0
                            patchSelfOmitted := false, crcOffset := 0, filetimeOffset := 0
                            md5Offset := 0, bitsOffset := 0 } : View) = candidate at accepted
      have first : Open data self candidate := by
        subst start
        exact ⟨rfl, rfl, rfl, rfl⟩
      have full := matchLayout_spec first count count false
      split at accepted
      next matched =>
        rw [if_pos matched] at full
        cases accepted
        exact full
      next missed =>
        rw [if_neg missed] at full
        have short := matchLayout_spec full count (count - 1) false
        split at accepted
        next matched =>
          rw [if_pos matched] at short
          cases accepted
          exact short
        next missed =>
          rw [if_neg missed] at short
          have legacy := matchLayout_spec short count count true
          split at accepted
          next matched =>
            rw [if_pos matched] at legacy
            cases accepted
            exact legacy
          next => nomatch accepted

def Cut {α : Type} (wire : Wire α) : Prop :=
  ∀ b : Bytes, wire.width ≤ b.length → wire.decode (b.take wire.width) = wire.decode b

theorem Cut.of_take {α : Type} {wire : Wire α} (read : Bytes → α)
    (reads : ∀ b, wire.decode b = read (b.take wire.width)) : Cut wire := by
  intro b _
  rw [reads, reads, List.take_take, Nat.min_self]

theorem digestWire_cut : Cut digestWire := by
  intro b long
  have long : 16 ≤ b.length := long
  apply Subtype.ext
  show (b.take 16 ++ Bytes.zeros 16).take 16 = (b ++ Bytes.zeros 16).take 16
  rw [List.take_append_of_le_length long,
    List.take_append_of_le_length (by rw [List.length_take]; omega), List.take_take]
  rfl

theorem field_of {σ α : Type} {wire : Wire α} (cut : Cut wire) {zero : α} {recorded : Bool}
    {data : Bytes} {offset : Nat} (inside : recorded = true → offset + wire.width ≤ data.length) (s : σ) :
    (field wire zero recorded data offset : Op (Stop Error) σ α) s =
      .ok (if recorded then wire.decode (data.drop offset) else zero) s := by
  unfold field
  cases recorded with
  | false => rfl
  | true =>
    have held := inside rfl
    rw [if_pos rfl, if_pos rfl, bind_of_ok (load_of held s), pure_run, cut]
    rw [List.length_drop]
    omega

theorem Fits.column {count : Nat} {view : View} (fits : Fits count view) {index : Nat}
    (below : index < view.entries) :
    (has view.flags attributeCrc32 = true → view.crcOffset + index * 4 + 4 ≤ view.bitsOffset) ∧
    (has view.flags attributeFiletime = true → view.filetimeOffset + index * 8 + 8 ≤ view.bitsOffset) ∧
    (has view.flags attributeMd5 = true → view.md5Offset + index * 16 + 16 ≤ view.bitsOffset) := by
  rw [fits.crcOffset, fits.filetimeOffset, fits.md5Offset, fits.bitsOffset, columnsSize]
  refine ⟨?_, ?_, ?_⟩
  · intro recorded
    rw [if_pos recorded]
    omega
  · intro recorded
    rw [if_pos recorded]
    omega
  · intro recorded
    rw [if_pos recorded]
    omega

theorem fetch_eq {σ : Type} {count : Nat} {view : View} (fits : Fits count view) (index : Nat) (s : σ) :
    fetch view index s = .ok (get view index) s := by
  unfold fetch get
  by_cases outside : index ≥ view.entries
  · rw [if_pos outside, if_pos outside]
    rfl
  · rw [if_neg outside, if_neg outside]
    obtain ⟨crc, filetime, md5⟩ := fits.column (Nat.not_le.mp outside)
    have room := fits.room
    have keptCrc : has (view.flags &&& ~~~attributePatchBit) attributeCrc32 =
        has view.flags attributeCrc32 := has_clear (by decide)
    have keptFiletime : has (view.flags &&& ~~~attributePatchBit) attributeFiletime =
        has view.flags attributeFiletime := has_clear (by decide)
    have keptMd5 : has (view.flags &&& ~~~attributePatchBit) attributeMd5 =
        has view.flags attributeMd5 := has_clear (by decide)
    have word : Cut le32 := .of_take (UInt32.ofNat ∘ Bytes.toNat) fun _ => rfl
    have long : Cut le64 := .of_take (UInt64.ofNat ∘ Bytes.toNat) fun _ => rfl
    simp only
    rw [bind_of_ok (field_of word (fun recorded => (crc (keptCrc ▸ recorded)).trans room) s),
      bind_of_ok (field_of long (fun recorded => (filetime (keptFiletime ▸ recorded)).trans room) s),
      bind_of_ok (field_of digestWire_cut (fun recorded => (md5 (keptMd5 ▸ recorded)).trans room) s)]
    by_cases patched : has view.flags attributePatchBit = true
    · rw [if_pos patched]
      by_cases inArray : index < view.patchBits
      · have read : view.bitsOffset + index / 8 + 1 ≤ view.data.length := by
          obtain ⟨none, _⟩ | ⟨size, array⟩ := fits.bits
          · omega
          · have := array.exact_
            have := array.holds
            omega
        have byte : ((view.data.drop (view.bitsOffset + index / 8)).take 1).getD 0 0 =
            view.data.getD (view.bitsOffset + index / 8) 0 := by
          simp [List.getElem?_drop]
        rw [if_pos inArray, bind_of_ok (load_of read s), pure_run, byte]
        simp [patched, inArray]
      · rw [if_neg inArray]
        by_cases omitted : index = view.self ∧ view.patchSelfOmitted = true
        · rw [if_pos omitted, pure_run]
          rw [omitted.1] at inArray
          simp [patched, inArray, omitted]
        · rw [if_neg omitted, pure_run]
          simp [patched, inArray, omitted]
    · rw [if_neg patched, pure_run]
      simp [patched]

theorem get_patchBit {view : View} {index : Nat} (set : (get view index).patchBit = true) :
    index < view.patchBits ∧ bitAt (view.data.drop view.bitsOffset) index = true := by
  unfold get at set
  split at set
  next => nomatch set
  next =>
    obtain ⟨⟨_, inArray⟩, bit⟩ := of_decide_eq_true set
    refine ⟨inArray, decide_eq_true ?_⟩
    rwa [List.getD_eq_getElem?_getD, List.getElem?_drop, ← List.getD_eq_getElem?_getD]

theorem parse_bounded {σ : Type} {data : Bytes} {count self : Nat} {view : View}
    (accepted : parse data count self = .ok view) (index : Nat) (s : σ) :
    view.data = data ∧ fetch view index s = .ok (get view index) s ∧
      (view.entries ≤ index → get view index = .none) ∧
      (has (get view index).flags attributePatchBit = true →
        ∃ size, data.length = 8 + columnsSize view.entries view.flags + size ∧
          (size = (view.entries + 7) / 8 ∨ size = (count + 6) / 8) ∧
          (index / 8 < size ∨ index = self ∧ (get view index).patchBit = false) ∧
          ((get view index).patchBit = true → index / 8 < size ∧
            bitAt (data.drop (8 + columnsSize view.entries view.flags)) index = true)) := by
  obtain ⟨fits, rfl, rfl⟩ := parse_fits accepted
  refine ⟨rfl, fetch_eq fits index s, fun outside => if_pos outside, fun shown => ?_⟩
  have within : index < view.entries := by
    by_contra outside
    rw [get, if_pos (Nat.not_lt.mp outside)] at shown
    exact absurd shown (by decide)
  obtain ⟨_, _, _, patch⟩ := announced within
  rw [shown] at patch
  have source := patch.symm
  simp only [Bool.and_eq_true, Bool.or_eq_true, decide_eq_true_iff] at source
  have array : ∃ size, BitArray count view size := by
    obtain ⟨none, kept⟩ | found := fits.bits
    · rw [none, kept] at source
      simp at source
    · exact found
  obtain ⟨size, complete, known, holds⟩ := array
  rw [fits.bitsOffset] at complete
  have inside : index < view.patchBits → index / 8 < size := by
    intro inArray
    omega
  refine ⟨size, complete, known, ?_, fun set => ?_⟩
  · cases set : (get view index).patchBit with
    | true => exact .inl (inside (get_patchBit set).1)
    | false => exact source.2.imp inside fun omitted => ⟨omitted.1, rfl⟩
  · obtain ⟨inArray, bit⟩ := get_patchBit set
    rw [fits.bitsOffset] at bit
    exact ⟨inside inArray, bit⟩

-- three rows and the last one's bit in an array of one byte
theorem parse_bounded_three :
    let data : Bytes := [100, 0, 0, 0, 8, 0, 0, 0, 0x20]
    parse data 3 0 = .ok (written data 3 0 8) ∧
      fetch (written data 3 0 8) 2 () = .ok (get (written data 3 0 8) 2) () :=
  ⟨rfl, (parse_bounded (show parse [100, 0, 0, 0, 8, 0, 0, 0, 0x20] 3 0 = .ok _ from rfl) 2 ()).2.1⟩

end Attributes

end LibMpq
