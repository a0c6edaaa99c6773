import LibMpq.Base.Bits
import LibMpq.Base.Bytes
import LibMpq.Base.Effect

set_option autoImplicit false

namespace LibMpq

inductive Error where
  | openFile | close | seek | read | write | malloc | format | notInitialized | size | exist
  | decrypt | unpack
  deriving DecidableEq, Repr

def Error.code : Error → Int32
  | .openFile => -1
  | .close => -2
  | .seek => -3
  | .read => -4
  | .write => -5
  | .malloc => -6
  | .format => -7
  | .notInitialized => -8
  | .size => -9
  | .exist => -10
  | .decrypt => -11
  | .unpack => -12

theorem Error.code_neg (e : Error) : e.code < 0 := by
  cases e <;> decide

abbrev versionOne : UInt32 := 0
abbrev versionTwo : UInt32 := 1

namespace Flag

abbrev exists_ : UInt32 := 0x80000000
abbrev implode : UInt32 := 0x00000100
abbrev compress : UInt32 := 0x00000200
abbrev compressed : UInt32 := 0x0000FF00
abbrev encrypted : UInt32 := 0x00010000
abbrev fixKey : UInt32 := 0x00020000
abbrev patchFile : UInt32 := 0x00100000
abbrev single : UInt32 := 0x01000000
abbrev deleteMarker : UInt32 := 0x02000000
abbrev sectorCrc : UInt32 := 0x04000000

abbrev compressPkzip : UInt32 := 0x00000100
abbrev compressMulti : UInt32 := 0x00000200
abbrev compressNone : UInt32 := 0x00000300

end Flag

end LibMpq
