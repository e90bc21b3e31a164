import BootAssembly.Bytes

namespace BootAssembly

namespace Crc32

def polynomial : UInt32 := 0xEDB88320

def shift (crc : UInt32) : UInt32 :=
  if crc &&& 1 = 1 then (crc >>> 1) ^^^ polynomial else crc >>> 1

def shifts : Nat → UInt32 → UInt32
  | 0, crc => crc
  | n + 1, crc => shifts n (shift crc)

def step (crc : UInt32) (b : UInt8) : UInt32 := shifts 8 (crc ^^^ b.toUInt32)

def run (crc : UInt32) (bytes : Bytes) : UInt32 := bytes.foldl step crc

theorem run_append (crc : UInt32) (xs ys : Bytes) : run crc (xs ++ ys) = run (run crc xs) ys :=
  List.foldl_append

end Crc32

def crc32 (bytes : Bytes) : UInt32 := ~~~ Crc32.run 0xFFFFFFFF bytes

end BootAssembly
