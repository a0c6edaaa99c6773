import LibMpq.Base.Bytes

set_option autoImplicit false

@[ext]
structure File where
  size : Nat
  byte : Nat → UInt8
  beyond : ∀ i, size ≤ i → byte i = 0

namespace File

def empty : File := ⟨0, fun _ => 0, fun _ _ => rfl⟩

def ofBytes (data : Bytes) : File where
  size := data.length
  byte i := data.getD i 0
  beyond i past := by simp [List.getElem?_eq_none past]

def write (f : File) (pos : Nat) (data : Bytes) : File where
  size := if data = [] then f.size else max f.size (pos + data.length)
  byte i := if pos ≤ i ∧ i < pos + data.length then data.getD (i - pos) 0 else f.byte i
  beyond i past := by
    split at past
    next none =>
      subst none
      simp only [List.length_nil, Nat.add_zero]
      rw [if_neg (by omega), f.beyond i past]
    next => rw [if_neg (by omega), f.beyond i (by omega)]

-- A read that reaches the end of the file is short.
def read (f : File) (pos count : Nat) : Bytes :=
  (List.range (min count (f.size - pos))).map fun i => f.byte (pos + i)

/-- The bytes of `data` stand at `pos`. -/
def Holds (f : File) (pos : Nat) (data : Bytes) : Prop :=
  (data ≠ [] → pos + data.length ≤ f.size) ∧
    ∀ i, i < data.length → f.byte (pos + i) = data.getD i 0

@[simp] theorem write_nil (f : File) (pos : Nat) : f.write pos [] = f := by
  ext i
  · simp [write]
  · simp only [write, List.length_nil, Nat.add_zero]
    rw [if_neg (by omega)]

theorem size_le_write (f : File) (pos : Nat) (data : Bytes) : f.size ≤ (f.write pos data).size := by
  simp only [write]
  split <;> omega

theorem write_size_of_ne_nil (f : File) (pos : Nat) {data : Bytes} (some : data ≠ []) :
    (f.write pos data).size = max f.size (pos + data.length) := by
  simp [write, some]

theorem write_size_le (f : File) (pos : Nat) (data : Bytes) :
    (f.write pos data).size ≤ max f.size (pos + data.length) := by
  simp only [write]
  split <;> omega

theorem write_byte_of_outside {f : File} {pos i : Nat} {data : Bytes}
    (outside : i < pos ∨ pos + data.length ≤ i) : (f.write pos data).byte i = f.byte i := by
  simp only [write]
  rw [if_neg (by omega)]

theorem holds_nil (f : File) (pos : Nat) : f.Holds pos [] := by
  simp [Holds]

theorem holds_write (f : File) (pos : Nat) (data : Bytes) : (f.write pos data).Holds pos data := by
  constructor
  · intro some
    rw [write_size_of_ne_nil f pos some]
    omega
  · intro i inside
    simp only [write]
    rw [if_pos (by omega), Nat.add_sub_cancel_left]

theorem Holds.write {f : File} {pos at_ : Nat} {data other : Bytes} (holds : f.Holds pos data)
    (disjoint : pos + data.length ≤ at_ ∨ at_ + other.length ≤ pos) :
    (f.write at_ other).Holds pos data := by
  constructor
  · intro some
    exact (holds.1 some).trans (size_le_write f at_ other)
  · intro i inside
    rw [write_byte_of_outside (by omega), holds.2 i inside]

theorem holds_append {f : File} {pos : Nat} {a b : Bytes} :
    f.Holds pos (a ++ b) ↔ f.Holds pos a ∧ f.Holds (pos + a.length) b := by
  constructor
  · intro holds
    refine ⟨⟨fun some => ?_, fun i inside => ?_⟩, ⟨fun some => ?_, fun i inside => ?_⟩⟩
    · have := holds.1 (by simp [some])
      simp only [List.length_append] at this
      omega
    · have := holds.2 i (by simp only [List.length_append]; omega)
      simpa [List.getElem?_append_left inside] using this
    · have := holds.1 (by simp [some])
      simp only [List.length_append] at this
      omega
    · have := holds.2 (a.length + i) (by simp only [List.length_append]; omega)
      rw [← Nat.add_assoc] at this
      simpa [List.getElem?_append_right] using this
  · rintro ⟨first, second⟩
    refine ⟨fun some => ?_, fun i inside => ?_⟩
    · by_cases none : b = []
      · subst none
        simpa using first.1 (by simpa using some)
      · have := second.1 none
        simp only [List.length_append]
        omega
    · by_cases front : i < a.length
      · simpa [List.getElem?_append_left front] using first.2 i front
      · simp only [List.length_append] at inside
        have := second.2 (i - a.length) (by omega)
        rw [show pos + a.length + (i - a.length) = pos + i by omega] at this
        simpa [List.getElem?_append_right (Nat.le_of_not_lt front)] using this

/-- Below `low` the second file still has the bytes of the first. -/
structure Agrees (low : Nat) (f f' : File) : Prop where
  size : f.size ≤ f'.size
  byte : ∀ i, i < low → f'.byte i = f.byte i

theorem Agrees.refl (low : Nat) (f : File) : Agrees low f f := ⟨le_rfl, fun _ _ => rfl⟩

theorem Agrees.trans {low : Nat} {f f' f'' : File} (first : Agrees low f f')
    (second : Agrees low f' f'') : Agrees low f f'' :=
  ⟨first.size.trans second.size, fun i below => (second.byte i below).trans (first.byte i below)⟩

theorem Agrees.mono {low high : Nat} {f f' : File} (agrees : Agrees high f f') (le : low ≤ high) :
    Agrees low f f' := ⟨agrees.size, fun i below => agrees.byte i (by omega)⟩

theorem Agrees.write {low pos : Nat} {f f' : File} (agrees : Agrees low f f') (above : low ≤ pos)
    (data : Bytes) : Agrees low f (f'.write pos data) := by
  refine ⟨agrees.size.trans (size_le_write _ _ _), fun i below => ?_⟩
  rw [write_byte_of_outside (.inl (by omega)), agrees.byte i below]

theorem Holds.agrees {low pos : Nat} {f f' : File} {data : Bytes} (holds : f.Holds pos data)
    (agrees : Agrees low f f') (below : pos + data.length ≤ low) : f'.Holds pos data := by
  refine ⟨fun some => (holds.1 some).trans agrees.size, fun i inside => ?_⟩
  rw [agrees.byte _ (by omega), holds.2 i inside]

@[simp] theorem read_length (f : File) (pos count : Nat) :
    (f.read pos count).length = min count (f.size - pos) := by
  simp [read]

theorem read_min (f : File) (pos count : Nat) : f.read pos count = f.read pos (min count (f.size - pos)) := by
  simp [read]

theorem read_add (f : File) {pos a : Nat} (inside : pos + a ≤ f.size) (b : Nat) :
    f.read pos (a + b) = f.read pos a ++ f.read (pos + a) b := by
  have front : min a (f.size - pos) = a := by omega
  have whole : min (a + b) (f.size - pos) = a + min b (f.size - (pos + a)) := by omega
  simp only [read, front, whole, List.range_add, List.map_append, List.map_map]
  congr 2
  funext i
  simp [Nat.add_assoc]

theorem read_take (f : File) (pos count more : Nat) :
    (f.read pos (count + more)).take count = f.read pos count := by
  simp only [read, ← List.map_take, List.take_range]
  congr 2
  omega

theorem read_slice (f : File) {pos total skip count : Nat} (inside : pos + total ≤ f.size)
    (within : skip + count ≤ total) :
    ((f.read pos total).drop skip).take count = f.read (pos + skip) count := by
  obtain ⟨rest, rfl⟩ := Nat.exists_eq_add_of_le (show skip ≤ total by omega)
  have front : (f.read pos skip).length = skip := by
    rw [read_length]
    omega
  obtain ⟨more, rfl⟩ := Nat.exists_eq_add_of_le (show count ≤ rest by omega)
  rw [f.read_add (by omega), List.drop_left' front, read_take]

theorem Holds.read {f : File} {pos : Nat} {data : Bytes} (holds : f.Holds pos data) :
    f.read pos data.length = data := by
  by_cases none : data = []
  · subst none
    simp [File.read]
  · have inside := holds.1 none
    apply List.ext_getElem
    · simp only [read_length]
      omega
    · intro i _ bound
      simp only [File.read, List.getElem_map, List.getElem_range]
      rw [holds.2 i bound]
      simp [bound]

theorem read_ofBytes (data : Bytes) (pos count : Nat) :
    (ofBytes data).read pos count = (data.drop pos).take count := by
  apply List.ext_getElem
  · simp [ofBytes]
  · intro i left right
    simp only [read_length, List.length_take, List.length_drop] at left right
    simp only [read, ofBytes, List.getElem_map, List.getElem_range, List.getElem_take,
      List.getElem_drop]
    rw [List.getD_eq_getElem?_getD, List.getElem?_eq_getElem (by omega)]
    rfl

theorem write_ofBytes (data more : Bytes) :
    (ofBytes data).write data.length more = ofBytes (data ++ more) := by
  ext i
  · simp only [write, ofBytes, List.length_append]
    split
    next none => rw [none, List.length_nil, Nat.add_zero]
    next => omega
  · simp only [write, ofBytes, List.getD_eq_getElem?_getD]
    split
    next inside => rw [List.getElem?_append_right inside.1]
    next outside =>
      by_cases before : i < data.length
      · rw [List.getElem?_append_left before]
      · rw [List.getElem?_eq_none (by omega), List.getElem?_eq_none (by rw [List.length_append]; omega)]

theorem empty_eq_ofBytes : empty = ofBytes [] := by
  ext i
  · rfl
  · simp [empty, ofBytes]

end File
