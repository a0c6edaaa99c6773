import LibMpq.Pkware

set_option autoImplicit false

namespace LibMpq

open Bitstream

namespace Pkware

theorem mem_slots {add limit rounds acc x : Nat} (filled : x ∈ slots add limit rounds acc) :
    ∃ k, x = acc + k * add ∧ (k = 0 ∨ x < limit) := by
  induction rounds generalizing acc with
  | zero => cases filled
  | succ rounds ih =>
    rw [slots] at filled
    rcases List.mem_cons.mp filled with rfl | later
    · exact ⟨0, by omega, .inl rfl⟩
    split at later
    next inside =>
      obtain ⟨k, rfl, below⟩ := ih later
      refine ⟨k + 1, by rw [Nat.succ_mul]; omega, .inr ?_⟩
      rcases below with rfl | below
      · omega
      · exact below
    next => cases later

theorem slots_mem {add limit rounds acc : Nat} (k : Nat) (enough : k < rounds)
    (below : acc + k * add < limit) : acc + k * add ∈ slots add limit rounds acc := by
  induction rounds generalizing acc k with
  | zero => omega
  | succ rounds ih =>
    rw [slots]
    cases k with
    | zero => simp
    | succ k =>
      have next : acc + (k + 1) * add = acc + add + k * add := by rw [Nat.succ_mul]; omega
      rw [next] at below ⊢
      rw [if_pos (by omega)]
      exact List.mem_cons_of_mem _ (ih k (by omega) below)

theorem fill_lookup {table : Table} {stores : List TableStore} {i : Nat} (inside : i < table.size)
    (covered : ∃ s ∈ stores, s.table = table ∧ s.index = i) :
    ∃ s ∈ stores, s.table = table ∧ s.index = i ∧ (fill table stores).getD i 0 = s.symbol := by
  have length : ∀ stores : List TableStore, (fill table stores).length = table.size := by
    intro stores
    unfold fill
    generalize stores.filter _ = kept
    induction kept using List.reverseRecOn with
    | nil => exact List.length_replicate
    | append_singleton kept s ih => rw [List.foldl_append, List.foldl_cons, List.foldl_nil, List.length_set, ih]
  induction stores using List.reverseRecOn with
  | nil =>
    obtain ⟨s, mem, -⟩ := covered
    cases mem
  | append_singleton stores s ih =>
    have step : fill table (stores ++ [s]) =
        if s.table = table then (fill table stores).set s.index s.symbol else fill table stores := by
      unfold fill
      rw [List.filter_append, List.foldl_append]
      by_cases same : s.table = table <;> simp [same]
    rw [step]
    by_cases last : s.table = table ∧ s.index = i
    · refine ⟨s, by simp, last.1, last.2, ?_⟩
      rw [if_pos last.1, last.2, List.getD_eq_getElem?_getD,
        List.getElem?_set_self (by rw [length]; exact inside), Option.getD_some]
    · have earlier : ∃ s' ∈ stores, s'.table = table ∧ s'.index = i := by
        obtain ⟨s', mem, here⟩ := covered
        rcases List.mem_append.mp mem with old | new
        · exact ⟨s', old, here⟩
        · rw [List.mem_singleton.mp new] at here
          exact absurd here last
      obtain ⟨s', mem, here, index, found⟩ := ih earlier
      refine ⟨s', List.mem_append_left _ mem, here, index, ?_⟩
      split
      next same =>
        have other : s.index ≠ i := fun equal => last ⟨same, equal⟩
        rw [List.getD_eq_getElem?_getD, List.getElem?_set_ne other, ← List.getD_eq_getElem?_getD, found]
      next => exact found

-- All cells of a table in one number, so that the stores can be compared with it one by one.
def packed (table : Table) (stores : List TableStore) : Nat :=
  (stores.filter fun s => s.table = table).foldl (fun cells s => cells ||| s.symbol <<< (8 * s.index)) 0

def covered (table : Table) (stores : List TableStore) : Nat :=
  (stores.filter fun s => s.table = table).foldl (fun cells s => cells ||| 1 <<< s.index) 0

def cell (table : Table) (stores : List TableStore) (i : Nat) : Nat :=
  packed table stores >>> (8 * i) % 0x100

theorem covered_store {table : Table} {stores : List TableStore} {i : Nat}
    (set : (covered table stores).testBit i = true) : ∃ s ∈ stores, s.table = table ∧ s.index = i := by
  unfold covered at set
  have member : ∀ s ∈ stores.filter (fun s => s.table = table), s ∈ stores ∧ s.table = table := by simp
  generalize stores.filter (fun s => s.table = table) = kept at set member
  induction kept using List.reverseRecOn with
  | nil => simp at set
  | append_singleton kept s ih =>
    rw [List.foldl_append, List.foldl_cons, List.foldl_nil, Nat.testBit_or, Bool.or_eq_true] at set
    rcases set with old | new
    · exact ih old fun t mem => member t (List.mem_append_left _ mem)
    · rw [Nat.one_shiftLeft, Nat.testBit_two_pow, decide_eq_true_eq] at new
      obtain ⟨mem, same⟩ := member s (by simp)
      exact ⟨s, mem, same, new⟩

structure Built (table : Table) (stores : List TableStore) (width : Nat) (domain : Nat → Prop)
    (len code : Nat → Nat) (symbol : Nat → Prop) : Prop where
  entries : table.entries = fill table stores
  size : table.size = 2 ^ width
  short : ∀ v, symbol v → len v ≤ width ∧ code v < 2 ^ len v
  cells : ∀ s ∈ stores, s.table = table → cell table stores s.index = s.symbol
  covers : ∀ x < 2 ^ width, domain x → (covered table stores).testBit x = true
  stored : ∀ v, symbol v → ∀ k, code v + k * 2 ^ len v < 2 ^ width →
    ⟨table, code v + k * 2 ^ len v, v⟩ ∈ stores
  slot : ∀ s ∈ stores, s.table = table → domain s.index → table.get s.index = s.symbol →
    symbol s.symbol ∧ ∃ k, s.index = code s.symbol + k * 2 ^ len s.symbol

section built

variable {table : Table} {stores : List TableStore} {width : Nat} {domain : Nat → Prop}
  {len code : Nat → Nat} {symbol : Nat → Prop}

theorem get_store (entries : table.entries = fill table stores)
    (cells : ∀ s ∈ stores, s.table = table → cell table stores s.index = s.symbol) {s : TableStore}
    (mem : s ∈ stores) (same : s.table = table) (inside : s.index < table.size) :
    table.get s.index = s.symbol := by
  obtain ⟨t, mem', same', index, found⟩ := fill_lookup inside ⟨s, mem, same, rfl⟩
  rw [Table.get, entries, found, ← cells s mem same, ← cells t mem' same', index]

theorem Built.resolves (built : Built table stores width domain len code symbol) :
    Resolves width domain table.get len code symbol where
  short := built.short
  sound x below inside := by
    obtain ⟨s, mem, same, rfl⟩ := covered_store (built.covers x below inside)
    have found := get_store built.entries built.cells mem same (by rw [built.size]; exact below)
    obtain ⟨known, k, slot⟩ := built.slot s mem same inside found
    rw [found]
    refine ⟨known, ?_⟩
    rw [slot, Nat.add_mul_mod_self_right, Nat.mod_eq_of_lt (built.short _ known).2]
  complete v known x below starts := by
    have slot : code v + x / 2 ^ len v * 2 ^ len v = x := by
      rw [← starts, Nat.mul_comm, Nat.mod_add_div]
    have mem := built.stored v known (x / 2 ^ len v) (by rw [slot]; exact below)
    rw [slot] at mem
    exact get_store built.entries built.cells mem rfl (by rw [built.size]; exact below)

end built

theorem mem_generated {buf2 : Table} {count : Nat} {bits code : List Nat} {s : TableStore}
    (mem : s ∈ generateTablesDecode buf2 count bits code) :
    s.symbol < count ∧ ∃ k, s.index = code.getD s.symbol 0 + k * 2 ^ bits.getD s.symbol 0 := by
  unfold generateTablesDecode at mem
  obtain ⟨i, below, mem⟩ := List.mem_flatMap.mp mem
  obtain ⟨idx1, filled, rfl⟩ := List.mem_map.mp mem
  obtain ⟨k, rfl, -⟩ := mem_slots filled
  rw [Nat.one_shiftLeft]
  exact ⟨by simpa using below, k, rfl⟩

theorem generated_mem {buf2 : Table} {count : Nat} {bits code : List Nat} {v k : Nat} (below : v < count)
    (inside : code.getD v 0 + k * 2 ^ bits.getD v 0 < 0x100) :
    ⟨buf2, code.getD v 0 + k * 2 ^ bits.getD v 0, v⟩ ∈ generateTablesDecode buf2 count bits code := by
  refine List.mem_flatMap.mpr ⟨v, by simpa using below, List.mem_map.mpr ⟨_, ?_, rfl⟩⟩
  rw [← Nat.one_shiftLeft] at inside ⊢
  have positive : 0 < 1 <<< bits.getD v 0 := by
    rw [Nat.one_shiftLeft]
    exact Nat.two_pow_pos _
  refine slots_mem k ?_ inside
  have := Nat.le_mul_of_pos_right k positive
  omega

theorem lengths_resolve :
    Resolves 8 (fun _ => True) Table.pos2.get (slenBits.getD · 0) (lenCode.getD · 0) (· < 16) := by
  refine Built.resolves ⟨rfl, rfl, by decide, by decide +kernel, by decide +kernel, ?_, ?_⟩
  · exact fun v below k inside => generated_mem below inside
  · exact fun s mem _ _ _ => mem_generated mem

theorem distances_resolve :
    Resolves 8 (fun _ => True) Table.pos1.get (distBits.getD · 0) (distCode.getD · 0) (· < 64) := by
  refine Built.resolves ⟨rfl, rfl, by decide, by decide +kernel, by decide +kernel, ?_, ?_⟩
  · exact fun v below k inside => generated_mem below inside
  · exact fun s mem _ _ _ => mem_generated mem

abbrev literalCode (v : Nat) : Nat := codeAsc.getD v 0
abbrev literalBits (v : Nat) : Nat := bitsAsc.getD v 0

theorem mem_asciiCodes {c : (Nat × Nat) × Nat} :
    c ∈ asciiCodes ↔ c.2 < 0x100 ∧ c.1 = (literalCode c.2, literalBits c.2) := by
  obtain ⟨pair, v⟩ := c
  have codes : codeAsc.length = 0x100 := by decide +kernel
  have bits : bitsAsc.length = 0x100 := by decide +kernel
  rw [asciiCodes, List.mem_zipIdx_iff_getElem?]
  simp only [List.getElem?_zip_eq_some]
  constructor
  case mp =>
    rintro ⟨code, width⟩
    have inside := List.getElem?_eq_some_iff.mp code
    refine ⟨codes ▸ inside.1, ?_⟩
    simp only [literalCode, literalBits, List.getD_eq_getElem?_getD, code, width, Option.getD_some, Prod.mk.eta]
  case mpr =>
    rintro ⟨inside, rfl⟩
    simp only [literalCode, literalBits, List.getD_eq_getElem?_getD]
    rw [List.getElem?_eq_getElem (by rw [codes]; exact inside), List.getElem?_eq_getElem (by rw [bits]; exact inside)]
    exact ⟨rfl, rfl⟩

theorem mem_ascii {s : TableStore} :
    s ∈ generateTablesAscii ↔ ∃ v < 0x100, s ∈ asciiStores (literalCode v) (literalBits v) v := by
  simp only [generateTablesAscii, List.mem_flatMap, List.mem_reverse, mem_asciiCodes]
  constructor
  case mp =>
    rintro ⟨c, ⟨inside, pair⟩, mem⟩
    rw [pair] at mem
    exact ⟨c.2, inside, mem⟩
  case mpr =>
    rintro ⟨v, inside, mem⟩
    exact ⟨((literalCode v, literalBits v), v), ⟨inside, rfl⟩, mem⟩

theorem literal_codes {v : Nat} (inside : v < 0x100) :
    literalBits v ≤ 13 ∧ literalCode v < 2 ^ literalBits v ∧
      (8 < literalBits v → literalCode v % 0x10 = 0 ∧ (literalCode v % 0x40 ≠ 0 → literalBits v ≤ 12)) := by
  have all : ∀ c ∈ asciiCodes, c.1.2 ≤ 13 ∧ c.1.1 < 2 ^ c.1.2 ∧
      (8 < c.1.2 → c.1.1 % 0x10 = 0 ∧ (c.1.1 % 0x40 ≠ 0 → c.1.2 ≤ 12)) := by decide +kernel
  exact all ((literalCode v, literalBits v), v) (mem_asciiCodes.mpr ⟨inside, rfl⟩)

theorem bitsAsc_get {v : Nat} (inside : v < 0x100) :
    Table.bitsAsc.get v = asciiBits (literalCode v) (literalBits v) := by
  have length : asciiCodes.length = 0x100 := by decide +kernel
  have here : asciiCodes[v]? = some ((literalCode v, literalBits v), v) := by
    have below : v < asciiCodes.length := by rw [length]; exact inside
    have found := List.getElem?_eq_getElem below
    have mem := mem_asciiCodes.mp (List.mem_of_getElem? found)
    have index : asciiCodes[v].2 = v := by
      simp [asciiCodes]
    rw [index] at mem
    rw [found]
    exact congrArg some (Prod.ext mem.2 index)
  simp only [Table.get, Table.entries, List.getD_eq_getElem?_getD, List.getElem?_map, here, Option.map_some,
    Option.getD_some]

def Short (v : Nat) : Prop := v < 0x100 ∧ literalBits v ≤ 8

structure Continued (shift : Nat) (v : Nat) : Prop where
  inside : v < 0x100
  long : 8 < literalBits v
  shifted : (literalCode v &&& 0xFF ≠ 0 ∧ literalCode v &&& 0x3F ≠ 0 ∧ shift = 4) ∨
    (literalCode v &&& 0xFF ≠ 0 ∧ literalCode v &&& 0x3F = 0 ∧ shift = 6) ∨
    (literalCode v &&& 0xFF = 0 ∧ shift = 8)

def continuation : Nat → Table × Nat
  | 4 => (.offs2d34, 8)
  | 6 => (.offs2e34, 7)
  | _ => (.offs2eb4, 8)

inductive AsciiStore (v : Nat) : TableStore → Prop
  | short {idx : Nat} : literalBits v ≤ 8 →
      idx ∈ slots (2 ^ literalBits v) 0x100 0x100 (literalCode v) → AsciiStore v ⟨.offs2c34, idx, v⟩
  | escape : 8 < literalBits v → literalCode v &&& 0xFF ≠ 0 →
      AsciiStore v ⟨.offs2c34, literalCode v &&& 0xFF, 0xFF⟩
  | long {shift idx : Nat} : Continued shift v →
      idx ∈ slots (2 ^ (literalBits v - shift)) (2 ^ (continuation shift).2) (2 ^ (continuation shift).2)
        (literalCode v >>> shift) → AsciiStore v ⟨(continuation shift).1, idx, v⟩

theorem mem_asciiStores {v : Nat} (inside : v < 0x100) {s : TableStore} :
    s ∈ asciiStores (literalCode v) (literalBits v) v ↔ AsciiStore v s := by
  have small := (literal_codes inside).2.1
  unfold asciiStores
  simp only [Nat.one_shiftLeft]
  constructor
  case mp =>
    intro mem
    split at mem
    next le =>
      have below : literalCode v < 0x100 := small.trans_le (Nat.pow_le_pow_right (by decide) le)
      rw [if_pos below] at mem
      obtain ⟨idx, filled, rfl⟩ := List.mem_map.mp mem
      exact .short le filled
    next gt =>
    split at mem
    next escaped =>
      rcases List.mem_cons.mp mem with rfl | mem
      · exact .escape (Nat.not_le.mp gt) escaped
      split at mem
      next four =>
        obtain ⟨idx, filled, rfl⟩ := List.mem_map.mp mem
        exact .long ⟨inside, Nat.not_le.mp gt, .inl ⟨escaped, four, rfl⟩⟩ filled
      next six =>
        obtain ⟨idx, filled, rfl⟩ := List.mem_map.mp mem
        exact .long ⟨inside, Nat.not_le.mp gt, .inr (.inl ⟨escaped, not_not.mp six, rfl⟩)⟩ filled
    next zero =>
      obtain ⟨idx, filled, rfl⟩ := List.mem_map.mp mem
      exact .long ⟨inside, Nat.not_le.mp gt, .inr (.inr ⟨not_not.mp zero, rfl⟩)⟩ filled
  case mpr =>
    intro store
    cases store with
    | short le filled =>
      rw [if_pos le, if_pos (small.trans_le (Nat.pow_le_pow_right (by decide) le))]
      exact List.mem_map_of_mem filled
    | escape long escaped =>
      rw [if_neg (Nat.not_le.mpr long), if_pos escaped]
      exact List.mem_cons_self
    | long continued filled =>
      rw [if_neg (Nat.not_le.mpr continued.long)]
      rcases continued.shifted with ⟨escaped, four, rfl⟩ | ⟨escaped, six, rfl⟩ | ⟨zero, rfl⟩
      · rw [if_pos escaped, if_pos four]
        exact List.mem_cons_of_mem _ (List.mem_map_of_mem filled)
      · rw [if_pos escaped, if_neg (not_not.mpr six)]
        exact List.mem_cons_of_mem _ (List.mem_map_of_mem filled)
      · rw [if_neg (not_not.mpr zero)]
        exact List.mem_map_of_mem filled

theorem ascii_cells : ∀ table ∈ [Table.offs2c34, .offs2d34, .offs2e34, .offs2eb4],
    ∀ s ∈ generateTablesAscii, s.table = table → cell table generateTablesAscii s.index = s.symbol := by
  decide +kernel

theorem ascii_store {s : TableStore} : s ∈ generateTablesAscii ↔ ∃ v < 0x100, AsciiStore v s := by
  rw [mem_ascii]
  exact exists_congr fun v => and_congr_right fun inside => mem_asciiStores inside

theorem short_resolve :
    Resolves 8 (fun x => x ≠ 0 ∧ Table.offs2c34.get x ≠ 0xFF) Table.offs2c34.get literalBits literalCode Short := by
  refine Built.resolves ⟨rfl, rfl, ?_, ?_, ?_, ?_, ?_⟩
  · exact fun v known => ⟨known.2, (literal_codes known.1).2.1⟩
  · exact ascii_cells _ (by decide)
  · have all : ∀ x < 2 ^ 8, x ≠ 0 → (covered .offs2c34 generateTablesAscii).testBit x = true := by decide +kernel
    exact fun x below inside => all x below inside.1
  · intro v known k below
    have enough := Nat.le_mul_of_pos_right k (Nat.two_pow_pos (literalBits v))
    have rounds := (enough.trans (Nat.le_add_left _ (literalCode v))).trans_lt below
    exact ascii_store.mpr ⟨v, known.1, .short known.2 (slots_mem k rounds below)⟩
  · intro s mem same inside found
    obtain ⟨v, below, store⟩ := ascii_store.mp mem
    cases store with
    | short le filled =>
      obtain ⟨k, slot, -⟩ := mem_slots filled
      exact ⟨⟨below, le⟩, k, slot⟩
    | escape => exact absurd found inside.2
    | @long shift idx continued filled =>
      rcases continued.shifted with ⟨-, -, rfl⟩ | ⟨-, -, rfl⟩ | ⟨-, rfl⟩ <;> cases same

def Escaped : Nat → Nat → Prop
  | 4, x => x % 4 ≠ 0 ∧ Table.offs2c34.get (x % 0x10 * 0x10) = 0xFF
  | 6, x => x % 4 ≠ 0
  | _, _ => True

theorem escape_cell {x : Nat} (below : x < 0x100) (positive : x ≠ 0) :
    Table.offs2c34.get x = cell .offs2c34 generateTablesAscii x := by
  have all : ∀ x < 2 ^ 8, x ≠ 0 → (covered .offs2c34 generateTablesAscii).testBit x = true := by decide +kernel
  obtain ⟨s, mem, same, rfl⟩ := covered_store (all x below positive)
  have found : Table.offs2c34.get s.index = s.symbol := get_store rfl (ascii_cells _ (by decide)) mem same below
  rw [found, ascii_cells _ (by decide) s mem same]

theorem continued_covered {shift x : Nat} (known : shift = 4 ∨ shift = 6 ∨ shift = 8)
    (below : x < 2 ^ (continuation shift).2) (inside : Escaped shift x) :
    (covered (continuation shift).1 generateTablesAscii).testBit x = true := by
  rcases known with rfl | rfl | rfl
  · have all : ∀ x < 2 ^ 8, x % 4 ≠ 0 → cell .offs2c34 generateTablesAscii (x % 0x10 * 0x10) = 0xFF →
        (covered .offs2d34 generateTablesAscii).testBit x = true := by decide +kernel
    refine all x below inside.1 ?_
    rw [← escape_cell (by omega) (by have := inside.1; omega)]
    exact inside.2
  · have all : ∀ x < 2 ^ 7, x % 4 ≠ 0 → (covered .offs2e34 generateTablesAscii).testBit x = true := by
      decide +kernel
    exact all x below inside
  · have all : ∀ x < 2 ^ 8, (covered .offs2eb4 generateTablesAscii).testBit x = true := by decide +kernel
    exact all x below

theorem Continued.shift_eq {shift v : Nat} (continued : Continued shift v) :
    shift = 4 ∨ shift = 6 ∨ shift = 8 := by
  rcases continued.shifted with ⟨-, -, same⟩ | ⟨-, -, same⟩ | ⟨-, same⟩ <;> simp [same]

theorem Continued.width {shift v : Nat} (continued : Continued shift v) :
    literalBits v - shift ≤ (continuation shift).2 := by
  obtain ⟨most, -, rest⟩ := literal_codes continued.inside
  have fewer := (rest continued.long).2
  rcases continued.shifted with ⟨-, four, rfl⟩ | ⟨-, -, rfl⟩ | ⟨-, rfl⟩
  · rw [show literalCode v &&& 0x3F = literalCode v % 2 ^ 6 from Nat.and_two_pow_sub_one_eq_mod _ 6] at four
    have := fewer four
    simp only [continuation]
    omega
  · simp only [continuation]
    omega
  · simp only [continuation]
    omega

theorem continued_resolve {shift : Nat} (known : shift = 4 ∨ shift = 6 ∨ shift = 8) :
    Resolves (continuation shift).2 (Escaped shift) (continuation shift).1.get (literalBits · - shift)
      (literalCode · >>> shift) (Continued shift) := by
  have tables : (continuation shift).1.entries = fill (continuation shift).1 generateTablesAscii ∧
      (continuation shift).1.size = 2 ^ (continuation shift).2 := by
    rcases known with rfl | rfl | rfl <;> exact ⟨rfl, rfl⟩
  refine Built.resolves ⟨tables.1, tables.2, ?_, ?_, ?_, ?_, ?_⟩
  · intro v continued
    refine ⟨continued.width, ?_⟩
    have le : shift ≤ literalBits v := by
      have := continued.long
      omega
    have small := (literal_codes continued.inside).2.1
    rw [← Nat.sub_add_cancel le, pow_add] at small
    rw [Nat.shiftRight_eq_div_pow]
    exact Nat.div_lt_of_lt_mul (by rwa [Nat.mul_comm])
  · exact ascii_cells _ (by rcases known with rfl | rfl | rfl <;> decide)
  · exact fun x below inside => continued_covered known below inside
  · intro v continued k below
    have enough := Nat.le_mul_of_pos_right k (Nat.two_pow_pos (literalBits v - shift))
    have rounds := (enough.trans (Nat.le_add_left _ (literalCode v >>> shift))).trans_lt below
    exact ascii_store.mpr ⟨v, continued.inside, .long continued (slots_mem k rounds below)⟩
  · intro s mem same inside found
    obtain ⟨v, below, store⟩ := ascii_store.mp mem
    cases store with
    | short => rcases known with rfl | rfl | rfl <;> cases same
    | escape => rcases known with rfl | rfl | rfl <;> cases same
    | @long other idx continued filled =>
      have equal : other = shift := by
        rcases known with rfl | rfl | rfl <;> rcases continued.shift_eq with rfl | rfl | rfl <;>
          first
          | rfl
          | cases same
      subst equal
      obtain ⟨k, slot, -⟩ := mem_slots filled
      exact ⟨continued, k, slot⟩

theorem escape_found {v : Nat} (inside : v < 0x100) (long : 8 < literalBits v)
    (escaped : literalCode v &&& 0xFF ≠ 0) : Table.offs2c34.get (literalCode v &&& 0xFF) = 0xFF := by
  have mem : (⟨.offs2c34, literalCode v &&& 0xFF, 0xFF⟩ : TableStore) ∈ generateTablesAscii :=
    ascii_store.mpr ⟨v, inside, .escape long escaped⟩
  have below : literalCode v &&& 0xFF < 2 ^ 8 := Nat.and_lt_two_pow _ (by decide)
  exact get_store (s := ⟨.offs2c34, literalCode v &&& 0xFF, 0xFF⟩) rfl (ascii_cells _ (by decide)) mem rfl below

end Pkware

end LibMpq
