import Mathlib.Logic.Function.Iterate

/-! Reflected CRC-32 (`crc32.rs`). -/
namespace Ruos

def crc32Bit (crc : UInt32) : UInt32 :=
  if crc &&& 1 ≠ 0 then (crc >>> 1) ^^^ 0xEDB88320 else crc >>> 1

def crc32Byte (crc : UInt32) (b : UInt8) : UInt32 := crc32Bit^[8] (crc ^^^ b.toUInt32)

def crc32 (data : List UInt8) : UInt32 := ~~~ data.foldl crc32Byte 0xFFFFFFFF

example : crc32 "123456789".toUTF8.toList = 0xCBF43926 := by decide +kernel

end Ruos
