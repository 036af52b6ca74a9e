import Xv6.Kernel.Kalloc
import Xv6.Lib.ByteCopy

/-!
# String — `memmove` of the kernel (`string.c`)
-/

namespace Xv6

def memmove (m : ByteStore) (dst src : UInt64) (n : UInt32) : UInt64 × ByteStore :=
  if n = 0 then (dst, m)
  else if src < dst ∧ src + n.toUInt64 > dst then
    (dst, m.copyDown (dst + n.toUInt64) (src + n.toUInt64) n.toNat)
  else (dst, m.copyUp dst src n.toNat)

end Xv6
