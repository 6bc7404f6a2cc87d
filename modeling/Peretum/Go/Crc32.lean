import Peretum.Go.Strings

/-!
# Package `hash/crc32`

The checksum with the IEEE polynomial, one bit at a time.
-/

namespace Go

/-- One bit of the division by the reversed IEEE polynomial. -/
def crcBit (crc : UInt32) : UInt32 :=
  if crc &&& 1 = 1 then (crc >>> 1) ^^^ 0xEDB88320 else crc >>> 1

/-- One byte of the division. -/
def crcByte (crc : UInt32) (b : UInt8) : UInt32 :=
  crcBit (crcBit (crcBit (crcBit (crcBit (crcBit (crcBit (crcBit (crc ^^^ b.toUInt32))))))))

/-- `crc32.ChecksumIEEE`. -/
def checksumIEEE (data : Str) : UInt32 := ~~~ data.foldl crcByte 0xFFFFFFFF

example : checksumIEEE (str "123456789") = 0xCBF43926 := by decide +kernel

end Go
