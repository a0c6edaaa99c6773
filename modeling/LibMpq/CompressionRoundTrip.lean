import Mathlib.Data.List.Sublists
import LibMpq.Compression

set_option autoImplicit false

namespace LibMpq

open Effect Bits

structure Codec.Lossless (codec : Codec) : Prop where
  decode_encode : ∀ {data packed : Bytes} {limit capacity : Nat},
    codec.encode data limit = .ok packed → data.length < 2 ^ 31 → data.length ≤ capacity →
      (codec.decode packed capacity).status = Int32.ofNat data.length ∧
        (codec.decode packed capacity).written = data
  encode_ne_nil : ∀ {data packed : Bytes} {limit : Nat},
    codec.encode data limit = .ok packed → packed ≠ []

structure LzmaCodec.Lossless (codec : LzmaCodec) : Prop where
  decodes_properties : ∀ {properties : Bytes}, codec.properties = some properties →
    codec.decodeProperties properties = .ok ∧
      codec.memusage properties ≤ Compression.lzmaDecoderMemoryMax ∧
      codec.decoderInit properties = .ok
  encode_ne_nil : ∀ {data : Bytes} {limit : Nat},
    (codec.encode data limit).ret = .ok → (codec.encode data limit).packed ≠ []
  decode_encode : ∀ {properties data : Bytes} {limit capacity : Nat},
    codec.properties = some properties → (codec.encode data limit).ret = .ok →
      data.length ≤ capacity →
      (codec.decode properties (codec.encode data limit).packed capacity).ret = .streamEnd ∧
        (codec.decode properties (codec.encode data limit).packed capacity).produced = data ∧
        (codec.decode properties (codec.encode data limit).packed capacity).unread = 0

/-- Every stage but the two WAVE ones gives back what it was given. -/
structure Codecs.Lossless (codecs : Codecs) : Prop where
  stage : ∀ stage : Stage, stage.isWave = false → (codecs.stage stage).Lossless
  lzma : codecs.lzma.Lossless

namespace Compression

def losslessMask (mask : UInt32) : Bool := !has mask waveMasks

def emittedStages (version : UInt32) (mask : UInt8) : UInt32 :=
  if version ≥ versionTwo ∧ mask = lzmaMethod then lzmaMask else mask.toUInt32

inductive Packs (codecs : Codecs) (input : Bytes) : List Stage → Bytes → Prop
  | raw : Packs codecs input [] input
  | stage {kept : List Stage} {data packed : Bytes} {stage : Stage} {limit : Nat} :
      Packs codecs input kept data → (codecs.stage stage).encode data limit = .ok packed →
      saves data.length packed.length = true →
      Packs codecs input (stage :: kept) packed

def maskOf (kept : List Stage) : UInt8 :=
  kept.foldr (fun stage mask => mask ||| stage.mask.toUInt8) 0

theorem compressionStage_ok {codecs : Codecs} {stage : Stage} {data packed : Bytes}
    {plan plan' : Faults} (run : compressionStage codecs stage data plan = .ok packed plan') :
    ∃ limit, (codecs.stage stage).encode data limit = .ok packed := by
  unfold compressionStage at run
  rw [failIf_bind_ok] at run
  obtain ⟨-, run⟩ := run
  obtain ⟨-, _, -, run⟩ := bind_ok.mp run
  obtain ⟨-, _, -, run⟩ := bind_ok.mp run
  exact ⟨_, (fromExcept_ok.mp run).1⟩

theorem tryStage_ok {codecs : Codecs} {requested : UInt32} {before after : Packing} {stage : Stage}
    {plan plan' : Faults} (run : tryStage codecs requested before stage plan = .ok after plan') :
    after = before ∨
      has requested stage.mask = true ∧ after.mask = before.mask ||| stage.mask.toUInt8 ∧
        (∃ limit, (codecs.stage stage).encode before.data limit = .ok after.data) ∧
        saves before.data.length after.data.length = true := by
  unfold tryStage at run
  by_cases asked : has requested stage.mask = true
  · rw [if_pos asked] at run
    obtain ⟨-, _, -, run⟩ := bind_ok.mp run
    obtain ⟨next, _, tried, run⟩ := bind_ok.mp run
    rcases attempt_ok.mp tried with ⟨data, rfl, encoded⟩ | ⟨rfl, -⟩
    · by_cases small : saves before.data.length data.length = true
      · obtain ⟨rfl, -⟩ := pure_ok.mp (by simpa only [small, if_true] using run)
        exact .inr ⟨asked, rfl, compressionStage_ok encoded, small⟩
      · exact .inl (pure_ok.mp (by simpa only [small, Bool.false_eq_true, if_false] using run)).1
    · exact .inl (pure_ok.mp run).1
  · rw [if_neg asked] at run
    exact .inl (pure_ok.mp run).1

theorem foldlM_packs {codecs : Codecs} {requested : UInt32} {input : Bytes} (stages : List Stage)
    {kept : List Stage} {before after : Packing} {plan plan' : Faults}
    (packs : Packs codecs input kept before.data) (mask : before.mask = maskOf kept)
    (run : stages.foldlM (tryStage codecs requested) before plan = .ok after plan') :
    ∃ more : List Stage, more.Sublist stages ∧ (∀ stage ∈ more, has requested stage.mask = true) ∧
      Packs codecs input (more.reverse ++ kept) after.data ∧
      after.mask = maskOf (more.reverse ++ kept) := by
  induction stages generalizing kept before plan with
  | nil =>
    obtain ⟨rfl, -⟩ := pure_ok.mp run
    exact ⟨[], .slnil, by simp, packs, mask⟩
  | cons stage rest ih =>
    rw [List.foldlM_cons] at run
    obtain ⟨next, _, first, later⟩ := bind_ok.mp run
    rcases tryStage_ok first with same | ⟨asked, newMask, ⟨_, encoded⟩, small⟩
    · obtain ⟨more, sub, all, result⟩ := ih (same ▸ packs) (same ▸ mask) later
      exact ⟨more, sub.cons _, all, result⟩
    · have nextPacks : Packs codecs input (stage :: kept) next.data := .stage packs encoded small
      obtain ⟨more, sub, all, data, masks⟩ := ih nextPacks (by rw [newMask, mask]; rfl) later
      refine ⟨stage :: more, sub.cons_cons _, ?_, by simpa using data, by simpa using masks⟩
      simpa [asked] using all

theorem Stage.mask_single (stage : Stage) : Single stage.mask := by
  cases stage
  case huffman => exact ⟨0, by decide⟩
  case zlib => exact ⟨1, by decide⟩
  case pkzip => exact ⟨3, by decide⟩
  case bzip2 => exact ⟨4, by decide⟩
  case sparse => exact ⟨5, by decide⟩
  case waveMono => exact ⟨6, by decide⟩
  case waveStereo => exact ⟨7, by decide⟩

theorem stage_lossless {codecs : Codecs} (lossless : codecs.Lossless) {requested : UInt32}
    (noWave : losslessMask requested = true) {stage : Stage}
    (asked : has requested stage.mask = true) : (codecs.stage stage).Lossless := by
  apply lossless.stage
  rw [losslessMask, waveMasks, has_or, Bool.not_eq_true', Bool.or_eq_false_iff] at noWave
  cases stage <;> simp_all [Stage.isWave]

theorem Packs.length_add {codecs : Codecs} {input data : Bytes} {kept : List Stage}
    (packs : Packs codecs input kept data)
    (lossless : ∀ stage ∈ kept, (codecs.stage stage).Lossless) :
    data.length + 2 * kept.length ≤ input.length := by
  induction packs with
  | raw => simp
  | @stage kept data packed stage limit packs encoded small ih =>
    have nonempty := (lossless stage (by simp)).encode_ne_nil encoded
    have := ih fun s mem => lossless s (by simp [mem])
    have := List.length_pos_iff.mpr nonempty
    simp only [saves, decide_eq_true_eq] at small
    simp only [List.length_cons]
    split at small <;> omega

theorem maskOf_subset {kept : List Stage} {requested : UInt32}
    (asked : ∀ stage ∈ kept, has requested stage.mask = true) :
    (maskOf kept).toUInt32 &&& requested = (maskOf kept).toUInt32 := by
  induction kept with
  | nil => simp [maskOf]
  | cons stage kept ih =>
    have step : (maskOf (stage :: kept)).toUInt32 = (maskOf kept).toUInt32 ||| stage.mask := by
      cases stage <;> simp [maskOf, Stage.mask]
    rw [step, or_and_flags, ih fun s mem => asked s (by simp [mem]), UInt32.and_comm,
      (Stage.mask_single stage).and_eq (asked stage (by simp))]

structure Chain.Holds (c : Chain) (data : Bytes) : Prop where
  input : c.input = data
  status : c.status = Int32.ofNat data.length
  out : c.place = .out → c.out.take data.length = data

theorem decodeStage_holds {codecs : Codecs} {outSize : UInt32} {stage : Stage} {c : Chain}
    {data : Bytes} {limit : Nat} (lossless : (codecs.stage stage).Lossless)
    (encoded : (codecs.stage stage).encode data limit = .ok c.input)
    (small : data.length < 2 ^ 31) (room : data.length ≤ outSize.toNat) :
    (decodeStage codecs outSize stage c).Holds data := by
  obtain ⟨status, written⟩ := lossless.decode_encode encoded small room
  have count : (Int32.ofNat data.length).toNatClampNeg = data.length :=
    Int32.toNatClampNeg_ofNat_of_lt small
  simp only [decodeStage, status, written, count]
  cases c.target <;> constructor <;> simp

theorem runStages_holds {codecs : Codecs} {outSize : UInt32} {input data : Bytes}
    {kept : List Stage} (packs : Packs codecs input kept data)
    (lossless : ∀ stage ∈ kept, (codecs.stage stage).Lossless)
    (small : input.length < 2 ^ 31) (room : input.length ≤ outSize.toNat) (c : Chain)
    (start : c.input = data) (done : kept = [] → c.Holds input) :
    (runStages codecs outSize kept c).Holds input := by
  induction packs generalizing c with
  | raw => exact done rfl
  | @stage kept data packed stage limit packs encoded saved ih =>
    have later : ∀ s ∈ kept, (codecs.stage s).Lossless := fun s mem => lossless s (by simp [mem])
    have shrinks := packs.length_add later
    have holds : (decodeStage codecs outSize stage c).Holds data :=
      decodeStage_holds (lossless stage (by simp)) (start ▸ encoded) (by omega) (by omega)
    have nonneg : ¬ (decodeStage codecs outSize stage c).status < 0 := by
      rw [holds.status, Int32.lt_iff_toInt_lt, Int32.toInt_ofNat_of_lt (by omega)]
      simp
    rw [runStages, if_neg nonneg]
    refine ih later _ holds.input ?_
    rintro rfl
    cases packs
    exact holds

theorem Chain.Holds.finish {c : Chain} {data : Bytes} (holds : c.Holds data)
    (small : data.length < 2 ^ 31) :
    c.finish.status = Int32.ofNat data.length ∧ c.finish.out.take data.length = data := by
  unfold Chain.finish
  split
  next stop =>
    refine ⟨holds.status, holds.out ?_⟩
    rcases stop with negative | place
    · rw [holds.status, Int32.lt_iff_toInt_lt, Int32.toInt_ofNat_of_lt small] at negative
      exact absurd negative (by simp)
    · exact place
  next =>
    rw [holds.status, holds.input, Int32.toNatClampNeg_ofNat_of_lt small]
    simp

theorem toInt32_eq (size : UInt32) : size.toInt32 = Int32.ofNat size.toNat := by
  simp [← Int32.toBitVec_inj]

theorem copyOut_whole {input out : Bytes} {outSize : UInt32} (whole : outSize.toNat = input.length) :
    copyOut input out outSize = ⟨Int32.ofNat input.length, Bytes.overlay input out⟩ := by
  rw [copyOut, whole, toInt32_eq, whole]
  simp

theorem requireWhole_of_status {pkzip : Bool} {outSize : UInt32} {result : Unpacked}
    (status : result.status = Int32.ofNat outSize.toNat) :
    requireWhole pkzip outSize result = result := by
  rw [requireWhole, if_neg]
  simp [status]

theorem stagesOf_maskOf : ∀ kept ∈ Stage.decodeOrder.sublists,
    stagesOf (maskOf kept) = kept ∧ (maskOf kept = 0 → kept = []) ∧
      kept.foldl (fun left stage => left &&& ~~~stage.mask) (maskOf kept).toUInt32 = 0 := by
  decide +kernel

theorem decompressMulti_packs {codecs : Codecs} {input data out : Bytes} {outSize version : UInt32}
    {kept : List Stage} (packs : Packs codecs input kept data)
    (lossless : ∀ stage ∈ kept, (codecs.stage stage).Lossless)
    (order : kept.Sublist Stage.decodeOrder) (some : kept ≠ [])
    (notLzma : ¬ (version ≥ versionTwo ∧ maskOf kept = lzmaMethod))
    (small : input.length < 2 ^ 31) (size : outSize.toNat = input.length) :
    let result := decompressMulti codecs true (maskOf kept :: data) out outSize version
    result.status = Int32.ofNat input.length ∧ result.out.take input.length = input := by
  obtain ⟨stages, -, supported⟩ := stagesOf_maskOf kept (List.mem_sublists.mpr order)
  have holds := fun c start => runStages_holds packs lossless small size.ge c start
    (fun none => absurd none some)
  simp only [decompressMulti, if_neg notLzma, stages, supported]
  simpa using (holds _ rfl).finish small

theorem decompressLzma_encoded {codecs : Codecs} (lossless : codecs.lzma.Lossless)
    {input properties out : Bytes} {outSize : UInt32} {limit : Nat}
    (fixed : codecs.lzma.properties = some properties)
    (width : properties.length = lzmaPropertiesSize)
    (encoded : (codecs.lzma.encode input limit).ret = .ok)
    (small : input.length < 2 ^ 31) (size : outSize.toNat = input.length) :
    decompressLzma codecs (0 :: properties ++ Bytes.ofNat 8 input.length ++
        (codecs.lzma.encode input limit).packed) out outSize =
      ⟨Int32.ofNat input.length, Bytes.overlay input out⟩ := by
  obtain ⟨propertiesOk, memory, init⟩ := lossless.decodes_properties fixed
  obtain ⟨ret, produced, unread⟩ := lossless.decode_encode fixed encoded size.ge
  have positive := List.length_pos_iff.mpr (lossless.encode_ne_nil encoded)
  generalize (codecs.lzma.encode input limit).packed = packed at *
  have front : ((0 :: properties ++ Bytes.ofNat 8 input.length ++ packed).drop 1).take
      lzmaPropertiesSize = properties := by
    simp [← width]
  have body : (0 :: properties ++ Bytes.ofNat 8 input.length ++ packed).drop lzmaHeaderSize =
      packed := by
    apply List.drop_left'
    simp [width]
  have long : ¬ (0 :: properties ++ Bytes.ofNat 8 input.length ++ packed).length ≤
      lzmaHeaderSize := by
    simp only [List.length_append, List.length_cons, width, Bytes.ofNat_length, lzmaHeaderSize,
      lzmaPropertiesSize]
    omega
  have fits : ¬ outSize.toNat > int32Max := by
    simp only [int32Max]
    omega
  unfold decompressLzma
  rw [if_neg long, if_neg (by simp), if_neg fits, front, body]
  simp only [propertiesOk, if_neg (Nat.not_lt.mpr memory), init, ret, produced, unread, size,
    toInt32_eq]
  simp

structure Emitted (input : Bytes) (requested version : UInt32) (policy : Policy)
    (encoded : Encoded) : Prop where
  subset : emittedStages version encoded.mask &&& requested = emittedStages version encoded.mask
  legal : allowed version (emittedStages version encoded.mask) policy = true
  length_le : encoded.output.length ≤ input.length
  length_lt_iff : encoded.output.length < input.length ↔ encoded.mask ≠ 0

/-- Moreover the decoder gives the sector back. -/
structure ChainRoundTrip (codecs : Codecs) (input : Bytes) (requested version : UInt32)
    (policy : Policy) (outSize : UInt32) (encoded : Encoded) : Prop
    extends Emitted input requested version policy encoded where
  status : ∀ out : Bytes, out.length = input.length →
    (decompressBlock codecs true encoded.output out outSize Flag.compressMulti
      version).status.toInt = input.length
  content : ∀ out : Bytes, out.length = input.length →
    (decompressBlock codecs true encoded.output out outSize Flag.compressMulti
      version).out.take input.length = input

inductive Origin (codecs : Codecs) (input : Bytes) (version : UInt32) : Encoded → Prop
  | raw : Origin codecs input version ⟨input, 0⟩
  | chain {kept : List Stage} {data : Bytes} : Packs codecs input kept data →
      (∀ stage ∈ kept, (codecs.stage stage).Lossless) → kept.Sublist Stage.decodeOrder →
      kept ≠ [] → ¬ (version ≥ versionTwo ∧ maskOf kept = lzmaMethod) →
      Origin codecs input version ⟨maskOf kept :: data, maskOf kept⟩
  | lzma {properties : Bytes} {limit : Nat} : version ≥ versionTwo →
      codecs.lzma.properties = some properties → properties.length = lzmaPropertiesSize →
      (codecs.lzma.encode input limit).ret = .ok →
      Origin codecs input version
        ⟨lzmaMethod :: (0 :: properties ++ Bytes.ofNat 8 input.length ++
          (codecs.lzma.encode input limit).packed), lzmaMethod⟩

theorem allowed_version {version mask : UInt32} {policy : Policy}
    (ok : allowed version mask policy = true) : version = versionOne ∨ version = versionTwo := by
  unfold allowed at ok
  split at ok
  · cases ok
  next known =>
    simp only [versionTwo, gt_iff_lt, Bool.or_eq_true, decide_eq_true_eq, not_or, UInt32.not_lt] at known
    have bound := UInt32.le_iff_toNat_le.mp known.1
    simp only [UInt32.reduceToNat] at bound
    simp only [← UInt32.toNat_inj, versionOne, versionTwo, UInt32.reduceToNat]
    omega

theorem allowed_zero {version requested : UInt32} {policy : Policy}
    (ok : allowed version requested policy = true) : allowed version 0 policy = true := by
  have known : policy ≠ .unknown := by
    rintro rfl
    simp [allowed] at ok
  rcases allowed_version ok with rfl | rfl <;> cases policy <;> first | decide | contradiction

theorem allowed_not_lzma {version : UInt32} {mask : UInt8} {policy : Policy}
    (ok : allowed version mask.toUInt32 policy = true) :
    ¬ (version ≥ versionTwo ∧ mask = lzmaMethod) := by
  rintro ⟨two, rfl⟩
  rcases allowed_version ok with rfl | rfl
  · exact absurd two (by decide)
  · cases policy <;> exact absurd ok (by decide)

theorem Emitted.raw {input : Bytes} {requested version : UInt32} {policy : Policy}
    (ok : Compression.allowed version requested policy = true) :
    Emitted input requested version policy ⟨input, 0⟩ := by
  have none : emittedStages version 0 = 0 := if_neg (fun lzma => absurd lzma.2 (by decide))
  exact ⟨by simp [none], by simpa [none] using allowed_zero ok, le_rfl, by simp⟩

theorem emit_ok {codecs : Codecs} {input : Bytes} {requested version : UInt32} {policy : Policy}
    {packing : Packing} {kept : List Stage} {encoded : Encoded} {plan plan' : Faults}
    (ok : allowed version requested policy = true)
    (packs : Packs codecs input kept packing.data) (mask : packing.mask = maskOf kept)
    (lossless : ∀ stage ∈ kept, (codecs.stage stage).Lossless)
    (order : kept.Sublist Stage.decodeOrder)
    (asked : ∀ stage ∈ kept, has requested stage.mask = true)
    (emittable : allowed version packing.mask.toUInt32 policy = true)
    (run : emit input packing plan = .ok encoded plan') :
    Origin codecs input version encoded ∧ Emitted input requested version policy encoded := by
  have shrinks := packs.length_add lossless
  obtain ⟨-, onlyEmpty, -⟩ := stagesOf_maskOf kept (List.mem_sublists.mpr order)
  unfold emit at run
  cases kept with
  | nil =>
    cases packs
    rw [if_pos (.inl (by simp [mask, maskOf]))] at run
    obtain ⟨rfl, -⟩ := pure_ok.mp run
    exact ⟨.raw, .raw ok⟩
  | cons stage rest =>
    simp only [List.length_cons] at shrinks
    have nonzero : packing.mask ≠ 0 := fun zero => by simpa using onlyEmpty (mask ▸ zero)
    rw [if_neg (by rintro (zero | long) <;> [exact nonzero zero; omega])] at run
    obtain ⟨-, _, -, run⟩ := bind_ok.mp run
    obtain ⟨rfl, -⟩ := pure_ok.mp run
    have notLzma := allowed_not_lzma emittable
    have stages : emittedStages version packing.mask = packing.mask.toUInt32 := if_neg notLzma
    refine ⟨?_, ?_, ?_, ?_, ?_⟩
    · rw [mask] at notLzma ⊢
      exact .chain packs lossless order (by simp) notLzma
    · rw [stages, mask, maskOf_subset asked]
    · rw [stages, emittable]
    · simp only [List.length_cons]
      omega
    · simp only [List.length_cons, ne_eq, nonzero, not_false_eq_true, iff_true]
      omega

theorem lzmaMethod_ne_zero : lzmaMethod ≠ 0 := by decide

theorem encodeLzma_cases {codecs : Codecs} {input : Bytes} {encoded : Encoded} {plan plan' : Faults}
    (run : encodeLzma codecs input plan = .ok encoded plan') :
    encoded = ⟨input, 0⟩ ∨
      ∃ properties limit, codecs.lzma.properties = some properties ∧
        properties.length = lzmaPropertiesSize ∧ (codecs.lzma.encode input limit).ret = .ok ∧
        encoded = ⟨lzmaMethod :: (0 :: properties ++ Bytes.ofNat 8 input.length ++
          (codecs.lzma.encode input limit).packed), lzmaMethod⟩ ∧
        encoded.output.length < input.length := by
  have raw : ∀ plan plan', copyRaw input plan = .ok encoded plan' → encoded = ⟨input, 0⟩ := by
    intro plan plan' run
    obtain ⟨-, _, -, run⟩ := bind_ok.mp run
    exact (pure_ok.mp run).1
  unfold encodeLzma at run
  split at run
  · exact .inl (raw _ _ run)
  next long =>
    obtain ⟨-, _, -, run⟩ := bind_ok.mp run
    cases fixed : codecs.lzma.properties with
    | none => simp [fixed] at run
    | some properties =>
      simp only [fixed] at run
      obtain ⟨width, run⟩ := failIf_bind_ok.mp run
      rw [ne_eq, Decidable.not_not] at width
      cases ran : (codecs.lzma.encode input (input.length - lzmaTotalOverhead - 1)).ret <;>
        simp only [ran] at run
      case bufError => exact .inl (raw _ _ run)
      case ok =>
        obtain ⟨rfl, -⟩ := pure_ok.mp run
        have length := (codecs.lzma.encode input (input.length - lzmaTotalOverhead - 1)).fits
        refine .inr ⟨properties, _, rfl, width, ran, rfl, ?_⟩
        simp only [List.length_append, List.length_cons, width, Bytes.ofNat_length,
          lzmaPropertiesSize, lzmaTotalOverhead] at length long ⊢
        omega
      all_goals cases run

theorem encodeLzma_ok {codecs : Codecs} {input : Bytes} {version : UInt32} {policy : Policy}
    {encoded : Encoded} {plan plan' : Faults} (ok : allowed version lzmaMask policy = true)
    (run : encodeLzma codecs input plan = .ok encoded plan') :
    Origin codecs input version encoded ∧ Emitted input lzmaMask version policy encoded := by
  have two : version ≥ versionTwo := by
    have known := ok
    simp only [allowed, if_true] at known
    split at known
    · cases known
    · simpa using known
  rcases encodeLzma_cases run with rfl | ⟨properties, limit, fixed, width, ran, rfl, shorter⟩
  · exact ⟨.raw, .raw ok⟩
  · have stages : emittedStages version lzmaMethod = lzmaMask := if_pos ⟨two, rfl⟩
    refine ⟨.lzma two fixed width ran, ?_, ?_, shorter.le, iff_of_true shorter lzmaMethod_ne_zero⟩
    · rw [stages]; decide
    · rw [stages, ok]

theorem encodeSector_ok {codecs : Codecs} (lossless : codecs.Lossless) {input : Bytes}
    {requested version : UInt32} {policy : Policy} (noWave : losslessMask requested = true)
    {encoded : Encoded} {plan plan' : Faults}
    (run : encodeSector codecs input requested version policy plan = .ok encoded plan') :
    Origin codecs input version encoded ∧ Emitted input requested version policy encoded := by
  obtain ⟨ok, run⟩ := failIf_bind_ok.mp run
  rw [Bool.not_eq_false] at ok
  split at run
  next isLzma => exact isLzma ▸ encodeLzma_ok (isLzma ▸ ok) run
  next =>
    obtain ⟨-, _, -, run⟩ := bind_ok.mp run
    obtain ⟨packing, _, folded, run⟩ := bind_ok.mp run
    split at run
    next emittable =>
      obtain ⟨more, sub, asked, packs, mask⟩ := foldlM_packs _ Packs.raw rfl folded
      simp only [List.append_nil] at packs mask
      have askedKept : ∀ stage ∈ more.reverse, has requested stage.mask = true := by
        simpa using asked
      exact emit_ok ok packs mask (fun s mem => stage_lossless lossless noWave (askedKept s mem))
        sub.reverse askedKept emittable run
    next =>
      obtain ⟨-, _, -, run⟩ := bind_ok.mp run
      have restart : allowed version (Packing.mask ⟨input, 0⟩).toUInt32 policy = true :=
        allowed_zero ok
      exact emit_ok ok Packs.raw rfl (by simp) (by simp) (by simp) restart run

theorem Packs.length_le {codecs : Codecs} {input data : Bytes} {kept : List Stage}
    (packs : Packs codecs input kept data) : data.length ≤ input.length := by
  induction packs with
  | raw => exact le_rfl
  | stage packs encoded small ih =>
    simp only [saves, decide_eq_true_eq] at small
    omega

theorem encodeSector_length_le {codecs : Codecs} {input : Bytes} {requested version : UInt32}
    {policy : Policy} {encoded : Encoded} {plan plan' : Faults}
    (run : encodeSector codecs input requested version policy plan = .ok encoded plan') :
    encoded.output.length ≤ input.length := by
  have emitted : ∀ packing : Packing, packing.data.length ≤ input.length → ∀ plan,
      emit input packing plan = .ok encoded plan' → encoded.output.length ≤ input.length := by
    intro packing shorter plan run
    unfold emit at run
    split at run
    next => rwa [(pure_ok.mp run).1]
    next won =>
      obtain ⟨-, _, -, run⟩ := bind_ok.mp run
      rw [(pure_ok.mp run).1, List.length_cons]
      omega
  obtain ⟨-, run⟩ := failIf_bind_ok.mp run
  split at run
  next =>
    rcases encodeLzma_cases run with rfl | ⟨_, _, _, _, _, _, shorter⟩
    · exact le_rfl
    · exact shorter.le
  next =>
    obtain ⟨-, _, -, run⟩ := bind_ok.mp run
    obtain ⟨packing, _, folded, run⟩ := bind_ok.mp run
    split at run
    next =>
      obtain ⟨_, -, -, packs, -⟩ := foldlM_packs _ Packs.raw rfl folded
      exact emitted packing packs.length_le _ run
    next =>
      obtain ⟨-, _, -, run⟩ := bind_ok.mp run
      exact emitted ⟨input, 0⟩ le_rfl _ run

theorem decompressBlock_origin {codecs : Codecs} (lossless : codecs.Lossless) {input out : Bytes}
    {requested version outSize : UInt32} {policy : Policy} {encoded : Encoded}
    (origin : Origin codecs input version encoded)
    (emitted : Emitted input requested version policy encoded)
    (small : input.length < 2 ^ 31) (size : outSize.toNat = input.length) :
    let result := decompressBlock codecs true encoded.output out outSize Flag.compressMulti version
    result.status = Int32.ofNat input.length ∧ result.out.take input.length = input := by
  have dispatch : ∀ packed, decompressBlock codecs true packed out outSize Flag.compressMulti version =
      if packed.length < outSize.toNat then
        requireWhole (has (packed.headD 0).toUInt32 (Stage.mask .pkzip)) outSize
          (decompressMulti codecs true packed out outSize version)
      else copyOut packed out outSize := fun _ => rfl
  cases origin with
  | raw => simp [dispatch, size, copyOut_whole size]
  | chain packs codecsLossless order some notLzma =>
    have short := emitted.length_lt_iff.mpr fun zero => some ((stagesOf_maskOf _
      (List.mem_sublists.mpr order)).2.1 zero)
    have decoded := @decompressMulti_packs _ _ _ out _ _ _ packs codecsLossless order some notLzma
      small size
    simp only [dispatch, size, if_pos short]
    rw [requireWhole_of_status (by rw [decoded.1, size])]
    exact decoded
  | lzma two fixed width ran =>
    have short := emitted.length_lt_iff.mpr lzmaMethod_ne_zero
    have decoded := @decompressLzma_encoded _ lossless.lzma _ _ out _ _ fixed width ran small size
    simp only [dispatch, size, if_pos short]
    rw [decompressMulti, if_pos ⟨two, rfl⟩, decoded, requireWhole_of_status (by simp [size])]
    simp

theorem ChainRoundTrip.length_lt {codecs : Codecs} {input : Bytes} {requested version outSize : UInt32}
    {policy : Policy} {encoded : Encoded}
    (roundTrip : ChainRoundTrip codecs input requested version policy outSize encoded) :
    input.length < 2 ^ 31 := by
  have returned := roundTrip.status input rfl
  have bound := Int32.toInt_lt (decompressBlock codecs true encoded.output input outSize
    Flag.compressMulti version).status
  omega

-- A sector of less than 2 GiB comes back; from there on its size no longer fits the signed
-- return value.
theorem encodeSector_roundTrip_iff {codecs : Codecs} (lossless : codecs.Lossless) {input : Bytes}
    {requested version outSize : UInt32} {policy : Policy} (noWave : losslessMask requested = true)
    (size : outSize.toNat = input.length) {encoded : Encoded} {plan plan' : Faults}
    (run : encodeSector codecs input requested version policy plan = .ok encoded plan') :
    ChainRoundTrip codecs input requested version policy outSize encoded ↔
      input.length < 2 ^ 31 := by
  obtain ⟨origin, emitted⟩ := encodeSector_ok lossless noWave run
  refine ⟨ChainRoundTrip.length_lt, ?_⟩
  · intro small
    have decoded : ∀ out : Bytes, _ := fun out => @decompressBlock_origin _ lossless _ out _ _ _ _ _
      origin emitted small size
    refine ⟨emitted, fun out _ => ?_, fun out _ => (decoded out).2⟩
    rw [(decoded out).1, Int32.toInt_ofNat_of_lt small]

-- A run of 7 to 130 zeros, as the SPARSE codec stores it: a big-endian length and one token.
def zeroRunCodec : Codec where
  encode data _ :=
    if 7 ≤ data.length ∧ data.length ≤ 130 ∧ data = List.replicate data.length 0 then
      .ok [0, 0, 0, UInt8.ofNat data.length, UInt8.ofNat (data.length - 3)]
    else .error .unpack
  decode packed capacity :=
    match packed with
    | [0, 0, 0, length, token] =>
      if fits : length.toNat ≤ capacity ∧ length.toNat = token.toNat + 3 then
        ⟨Int32.ofNat length.toNat, List.replicate length.toNat 0, by simp [fits.1]⟩
      else ⟨Error.unpack.code, [], by simp⟩
    | _ => ⟨Error.unpack.code, [], by simp⟩

def refusingCodec : Codec where
  encode _ _ := .error .unpack
  decode _ _ := ⟨Error.unpack.code, [], by simp⟩

-- Only zero runs are packed; a build without liblzma refuses its options.
def zeroRunCodecs : Codecs where
  stage
    | .sparse => zeroRunCodec
    | _ => refusingCodec
  lzma :=
    { properties := none
      encode := fun _ _ => ⟨.other, [], by simp⟩
      decodeProperties := fun _ => .other
      memusage := fun _ => 0
      decoderInit := fun _ => .other
      decode := fun _ _ _ => ⟨.other, [], 0, by simp⟩ }

theorem zeroRunCodec_lossless : zeroRunCodec.Lossless where
  decode_encode := by
    intro data packed limit capacity encoded small room
    simp only [zeroRunCodec] at encoded
    split at encoded
    case isTrue zeros =>
      obtain ⟨long, short, zeros⟩ := zeros
      cases encoded
      have length : (UInt8.ofNat data.length).toNat = data.length :=
        UInt8.toNat_ofNat_of_lt' (by simp only [UInt8.size]; omega)
      have token : (UInt8.ofNat (data.length - 3)).toNat = data.length - 3 :=
        UInt8.toNat_ofNat_of_lt' (by simp only [UInt8.size]; omega)
      have fits : data.length ≤ capacity ∧ data.length = data.length - 3 + 3 := by
        omega
      simp only [zeroRunCodec, length, token]
      rw [dif_pos fits]
      exact ⟨rfl, zeros.symm⟩
    case isFalse => cases encoded
  encode_ne_nil := by
    intro data packed limit encoded
    simp only [zeroRunCodec] at encoded
    split at encoded <;> cases encoded
    simp

theorem zeroRunCodecs_lossless : zeroRunCodecs.Lossless where
  stage := by
    intro stage _
    cases stage
    case sparse => exact zeroRunCodec_lossless
    all_goals constructor <;> intros <;> contradiction
  lzma := by
    constructor <;> intros <;> simp_all [zeroRunCodecs]

theorem encodeSector_roundTrip_zeros :
    encodeSector zeroRunCodecs (List.replicate 16 0) (Stage.mask .sparse) versionOne .standard
        Faults.healthy = .ok ⟨[0x20, 0, 0, 0, 16, 13], 0x20⟩ Faults.healthy ∧
      (ChainRoundTrip zeroRunCodecs (List.replicate 16 0) (Stage.mask .sparse) versionOne .standard
          16 ⟨[0x20, 0, 0, 0, 16, 13], 0x20⟩ ↔ (List.replicate 16 (0 : UInt8)).length < 2 ^ 31) :=
  have run : encodeSector zeroRunCodecs (List.replicate 16 0) (Stage.mask .sparse) versionOne
      .standard Faults.healthy = .ok ⟨[0x20, 0, 0, 0, 16, 13], 0x20⟩ Faults.healthy := by
    rfl
  ⟨run, encodeSector_roundTrip_iff zeroRunCodecs_lossless (by decide) (by decide) run⟩

theorem encodeSector_none (codecs : Codecs) (input : Bytes) :
    encodeSector codecs input 0 versionOne .standard Faults.healthy =
      .ok ⟨input, 0⟩ Faults.healthy := by
  have skip : ∀ stage, tryStage codecs 0 ⟨input, 0⟩ stage = pure ⟨input, 0⟩ := fun stage => by
    cases stage <;> rfl
  have fold : Stage.encodeOrder.foldlM (tryStage codecs 0) ⟨input, 0⟩ = pure ⟨input, 0⟩ := by
    simp [Stage.encodeOrder, skip]
  have legal : allowed versionOne (Packing.mask ⟨input, 0⟩).toUInt32 .standard = true :=
    show allowed versionOne 0 .standard = true by decide
  rw [encodeSector, bind_of_ok (failIf_false (by decide) _ _), if_neg (by decide),
    bind_of_ok (request_healthy _), fold, bind_of_ok (pure_run _ _), if_pos legal, emit,
    if_pos (.inl rfl), pure_run]

theorem encodeSector_roundTrip_fails_at_two_gib :
    zeroRunCodecs.Lossless ∧ losslessMask 0 = true ∧ allowed versionOne 0 .standard = true ∧
      (2147483648 : UInt32).toNat = (Bytes.zeros (2 ^ 31)).length ∧
      encodeSector zeroRunCodecs (Bytes.zeros (2 ^ 31)) 0 versionOne .standard Faults.healthy =
        .ok ⟨Bytes.zeros (2 ^ 31), 0⟩ Faults.healthy ∧
      ¬ ChainRoundTrip zeroRunCodecs (Bytes.zeros (2 ^ 31)) 0 versionOne .standard 2147483648
        ⟨Bytes.zeros (2 ^ 31), 0⟩ := by
  have length := Bytes.zeros_length (2 ^ 31)
  refine ⟨zeroRunCodecs_lossless, by decide, by decide, length.symm, encodeSector_none _ _,
    fun roundTrip => ?_⟩
  have bound := roundTrip.length_lt
  omega

end Compression

end LibMpq
