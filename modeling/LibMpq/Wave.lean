import LibMpq.Base.Wire
import LibMpq.Crypto

set_option autoImplicit false

namespace LibMpq

structure WaveInfo where
  channels : Nat
  dataOffset : Nat
  dataSize : Nat
  deriving DecidableEq

namespace Wave

open Wire

structure Walk where
  format : Nat
  channels : Nat
  bits : Nat
  dataOffset : Nat
  dataSize : Nat

def tag (data : Bytes) (pos : Nat) (text : String) : Bool :=
  (data.drop pos).take 4 = ascii text.toList

def field16 (data : Bytes) (pos : Nat) : Nat := (le16.decode (data.drop pos)).toNat

-- Every chunk moves the walk forward by at least its eight header bytes.
def walkChunks (data : Bytes) (fileSize : Nat) : Nat → Nat → Walk → Option Walk
  | 0, _, walk => some walk
  | fuel + 1, pos, walk =>
    if data.length < pos + 8 then some walk
    else
      let chunkSize := (le32.decode (data.drop (pos + 4))).toNat
      let next := pos + 8 + chunkSize + chunkSize % 2
      if next > fileSize then none
      else
        let go := fun walk =>
          if next > data.length then some walk else walkChunks data fileSize fuel next walk
        if tag data pos "fmt " ∧ chunkSize ≥ 16 then
          if pos + 24 > data.length then none
          else
            go { walk with
              format := field16 data (pos + 8)
              channels := field16 data (pos + 10)
              bits := field16 data (pos + 22) }
        else if tag data pos "data" then
          if pos + 8 + chunkSize > fileSize then none
          else some { walk with dataOffset := pos + 8, dataSize := chunkSize }
        else go walk

def probePcm16Prefix (data : Bytes) (fileSize : Nat) : Option WaveInfo :=
  if data.length < 12 ∨ fileSize < data.length ∨ ¬ tag data 0 "RIFF" ∨ ¬ tag data 8 "WAVE" then none
  else
    match walkChunks data fileSize data.length 12
      { format := 0, channels := 0, bits := 0, dataOffset := 0, dataSize := 0 } with
    | none => none
    | some walk =>
      if walk.format ≠ 1 ∨ (walk.channels ≠ 1 ∧ walk.channels ≠ 2) ∨ walk.bits ≠ 16 ∨
          walk.dataOffset = 0 ∨ walk.dataOffset > data.length ∨
          walk.dataSize % (walk.channels * 2) ≠ 0 then none
      else
        some
          { channels := walk.channels, dataOffset := walk.dataOffset, dataSize := walk.dataSize }

end Wave

end LibMpq
