/-!
# The CRC-32 checksum

The cyclic redundancy check with the reversed polynomial `0xEDB88320`, one bit at a time.
-/

namespace Overlay.Gzip

/-- Divide out one bit of a checksum register. -/
def crcBit (r : UInt32) : UInt32 :=
  if r &&& 1 = 1 then (r >>> 1) ^^^ 0xEDB88320 else r >>> 1

/-- Take one byte into a checksum register. -/
def crcByte (r : UInt32) (b : UInt8) : UInt32 :=
  let r := r ^^^ b.toUInt32
  crcBit (crcBit (crcBit (crcBit (crcBit (crcBit (crcBit (crcBit r)))))))

/-- The checksum of a byte sequence. -/
def crc32 (bytes : ByteArray) : UInt32 :=
  bytes.foldl crcByte 0xFFFFFFFF ^^^ 0xFFFFFFFF

end Overlay.Gzip
