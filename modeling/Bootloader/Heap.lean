import Bootloader.Lib.Words
import Bootloader.Lib.Tiling

/-!
# The system heap

`mem.c` of the kernel: `rt_system_heap_init`, `rt_malloc_ex`, `rt_realloc`, `rt_calloc` and `rt_free` on the bytes
of the memory. Pointers are addresses; the `next` and `prev` of a `struct heap_mem` are offsets from `heap_ptr`.
A call that does not return (a failed `RT_ASSERT` stops the processor) is `none`; pointer 0 is `RT_NULL`.

The bytes of the heap are a chain of headers that tiles the range up to `heap_end` (`Heap.Shape`).
-/

namespace Bootloader

/-- `struct heap_mem`. -/
@[ext] structure HeapMem where
  magic : Nat
  used : Nat
  next : Nat
  prev : Nat
deriving DecidableEq, Repr

structure Heap where
  mem : Mem
  heapPtr : Nat
  /-- The last entry: it has no data, and its `used` is 1 so that it is never joined with what is before it. -/
  heapEnd : Nat
  /-- The lowest free block. -/
  lfree : Nat
  memSizeAligned : Nat
  usedMem : Nat
  maxMem : Nat

namespace Heap

def heapMagic : Nat := 0x1ea0

/-- `MIN_SIZE_ALIGNED`; `MIN_SIZE` is 12. -/
def minSizeAligned : Nat := 16

/-- `SIZEOF_STRUCT_MEM`: the 12 bytes of a header, aligned. -/
def sizeofStructMem : Nat := 16

/-- `RT_ALIGN(size, RT_ALIGN_SIZE)`: `(size + 7) & ~7`. -/
def rtAlign (size : Nat) : Nat := add32 size 7 / 8 * 8

/-- `RT_ALIGN_DOWN(size, RT_ALIGN_SIZE)`. -/
def rtAlignDown (size : Nat) : Nat := size / 8 * 8

/-- `RT_ASSERT`: `rt_assert_handler` does not return. -/
def rtAssert (c : Prop) [Decidable c] : Option Unit := if c then some () else none

theorem rtAssert_bind {β : Type} {c : Prop} [Decidable c] (hc : c) (f : Unit → Option β) :
    (rtAssert c >>= f) = f () := by
  rw [rtAssert, if_pos hc]
  rfl

/-! ### Headers -/

def hdr (m : Mem) (p : Nat) : HeapMem := ⟨m.word p 2, m.word (p + 2) 2, m.word (p + 4) 4, m.word (p + 8) 4⟩

def setMagic (h : Heap) (p v : Nat) : Heap := { h with mem := h.mem.setWord p 2 v }
def setUsed (h : Heap) (p v : Nat) : Heap := { h with mem := h.mem.setWord (p + 2) 2 v }
def setNext (h : Heap) (p v : Nat) : Heap := { h with mem := h.mem.setWord (p + 4) 4 v }
def setPrev (h : Heap) (p v : Nat) : Heap := { h with mem := h.mem.setWord (p + 8) 4 v }

/-- `&heap_ptr[ptr]`. -/
def at_ (h : Heap) (ptr : Nat) : Nat := h.heapPtr + ptr

def get (h : Heap) (p : Nat) : HeapMem := hdr h.mem p

/-! ### The functions of `mem.c` -/

/-- Block `mem` takes in block `nmem` behind it. -/
def combine (h : Heap) (mem nmem : Nat) : Heap :=
  let h := if h.lfree = nmem then { h with lfree := mem } else h
  let h := h.setNext mem (h.get nmem).next
  h.setPrev (h.at_ (h.get nmem).next) (sub32 mem h.heapPtr)

/-- Plugs the hole forward. -/
def plugForward (h : Heap) (mem : Nat) : Heap :=
  let nmem := h.at_ (h.get mem).next
  if mem ≠ nmem ∧ (h.get nmem).used = 0 ∧ nmem ≠ h.heapEnd then h.combine mem nmem else h

/-- Plugs the hole backward. -/
def plugBackward (h : Heap) (mem : Nat) : Heap :=
  let pmem := h.at_ (h.get mem).prev
  if pmem ≠ mem ∧ (h.get pmem).used = 0 then h.combine pmem mem else h

def plugHoles (h : Heap) (mem : Nat) : Option Heap := do
  rtAssert (h.heapPtr ≤ mem)
  rtAssert (mem < h.heapEnd)
  rtAssert ((h.get mem).used = 0)
  some ((h.plugForward mem).plugBackward mem)

/-- `rt_system_heap_init` on the memory `m`; `none` where it returns without a heap. -/
def rtSystemHeapInit (m : Mem) (beginAddr endAddr : Nat) : Option Heap :=
  let beginAlign := rtAlign beginAddr
  let endAlign := rtAlignDown endAddr
  if endAlign > 2 * sizeofStructMem ∧ endAlign - 2 * sizeofStructMem ≥ beginAlign then
    let memSizeAligned := endAlign - beginAlign - 2 * sizeofStructMem
    let next := memSizeAligned + sizeofStructMem
    let h : Heap := ⟨m, beginAlign, beginAlign + next, beginAlign, memSizeAligned, 0, 0⟩
    let h := (((h.setMagic beginAlign heapMagic).setNext beginAlign next).setPrev beginAlign 0).setUsed beginAlign 0
    let e := h.heapEnd
    some ((((h.setMagic e heapMagic).setUsed e 1).setNext e next).setPrev e next)
  else none

/-- The `for` loop of `rt_malloc_ex` from `ptr` on: the block it takes, if any. -/
def search (h : Heap) (size : Nat) : Nat → Nat → Option (Option Nat)
  | 0, _ => none
  | n + 1, ptr =>
    if ptr < sub32 h.memSizeAligned size then
      let mem := h.get (h.at_ ptr)
      if mem.used = 0 ∧ sub32 mem.next (ptr + sizeofStructMem) ≥ size then some (some ptr)
      else h.search size n mem.next
    else some none

/-- `used_mem += n` with `max_mem`. -/
def addUsed (h : Heap) (n : Nat) : Heap :=
  let used := add32 h.usedMem n
  { h with usedMem := used, maxMem := if h.maxMem < used then used else h.maxMem }

/-- The block at offset `ptr` is split behind `size` bytes; `mem2` is the free rest. -/
def insertRest (h : Heap) (ptr size : Nat) : Heap :=
  let ptr2 := ptr + sizeofStructMem + size
  let mem := h.at_ ptr
  let mem2 := h.at_ ptr2
  let h := (((h.setMagic mem2 heapMagic).setUsed mem2 0).setNext mem2 (h.get mem).next).setPrev mem2 ptr
  h.setNext mem ptr2

/-- The block behind `mem2` learns of it, if it is not the end. -/
def linkRest (h : Heap) (ptr2 : Nat) : Heap :=
  let next := (h.get (h.at_ ptr2)).next
  if next ≠ h.memSizeAligned + sizeofStructMem then h.setPrev (h.at_ next) ptr2 else h

/-- The block at offset `ptr` is taken for `size` bytes, whole or split. -/
def takeBlock (h : Heap) (ptr size : Nat) : Heap :=
  let mem := h.at_ ptr
  let h :=
    if sub32 (h.get mem).next (ptr + sizeofStructMem) ≥ size + sizeofStructMem + minSizeAligned then
      (((h.insertRest ptr size).setUsed mem 1).linkRest (ptr + sizeofStructMem + size)).addUsed
        (size + sizeofStructMem)
    else (h.setUsed mem 1).addUsed (sub32 (h.get mem).next ptr)
  h.setMagic mem heapMagic

/-- `while (lfree->used && lfree != heap_end)`. -/
def nextFree (h : Heap) : Nat → Nat → Option Nat
  | 0, _ => none
  | n + 1, lfree =>
    if (h.get lfree).used ≠ 0 ∧ lfree ≠ h.heapEnd then h.nextFree n (h.at_ (h.get lfree).next) else some lfree

/-- More steps than a walk along the headers has. -/
def fuel (h : Heap) : Nat := h.memSizeAligned + 2

/-- If `mem` was the lowest free block, the next one is looked for. -/
def advance (h : Heap) (mem : Nat) : Option Heap := do
  if mem = h.lfree then
    let lfree ← h.nextFree h.fuel h.lfree
    rtAssert (lfree = h.heapEnd ∨ (h.get lfree).used = 0)
    some { h with lfree := lfree }
  else some h

/-- The bytes that `rt_malloc` looks for: aligned, and at least `MIN_SIZE_ALIGNED`. -/
def granted (size : Nat) : Nat := if rtAlign size < minSizeAligned then minSizeAligned else rtAlign size

/-- The block at offset `ptr` is the one that is taken. -/
def mallocAt (h : Heap) (ptr size : Nat) : Option (Nat × Heap) := do
  let mem := h.at_ ptr
  let h ← (h.takeBlock ptr size).advance mem
  rtAssert (mem + sizeofStructMem + size ≤ h.heapEnd)
  rtAssert ((mem + sizeofStructMem) % 8 = 0)
  rtAssert (mem % 8 = 0)
  some (mem + sizeofStructMem, h)

def rtMallocEx (h : Heap) (size : Nat) : Option (Nat × Heap) := do
  rtAssert (size ≠ 0)
  rtAssert (rtAlign size ≤ h.memSizeAligned)
  match ← h.search (granted size) h.fuel (sub32 h.lfree h.heapPtr) with
  | none => some (0, h)
  | some ptr => h.mallocAt ptr (granted size)

def rtFree (h : Heap) (rmem : Nat) : Option Heap := do
  if rmem = 0 then some h
  else
    rtAssert (rmem % 8 = 0)
    rtAssert (h.heapPtr ≤ rmem ∧ rmem < h.heapEnd)
    let mem := rmem - sizeofStructMem
    rtAssert ((h.get mem).used ≠ 0)
    rtAssert ((h.get mem).magic = heapMagic)
    let h := (h.setUsed mem 0).setMagic mem heapMagic
    let h := if mem < h.lfree then { h with lfree := mem } else h
    let h := { h with usedMem := sub32 h.usedMem (sub32 (h.get mem).next (sub32 mem h.heapPtr)) }
    h.plugHoles mem

/-- The part of `rt_realloc` that splits the block in place. `lfree` is left as it is. -/
def shrink (h : Heap) (ptr size newsize : Nat) : Option Heap :=
  let h := { h with usedMem := sub32 h.usedMem (sub32 size newsize) }
  let h := (h.insertRest ptr newsize).linkRest (ptr + sizeofStructMem + newsize)
  h.plugHoles (h.at_ (ptr + sizeofStructMem + newsize))

def rtRealloc (h : Heap) (rmem newsize : Nat) : Option (Nat × Heap) := do
  let newsize := rtAlign newsize
  if newsize > h.memSizeAligned then some (0, h)
  else if rmem = 0 then h.rtMallocEx newsize
  else if rmem < h.heapPtr ∨ rmem ≥ h.heapEnd then some (rmem, h)
  else
    let mem := rmem - sizeofStructMem
    let ptr := sub32 mem h.heapPtr
    let size := sub32 (sub32 (h.get mem).next ptr) sizeofStructMem
    if size = newsize then some (rmem, h)
    -- MIN_SIZE here, not MIN_SIZE_ALIGNED
    else if newsize + sizeofStructMem + 12 < size then
      let h ← h.shrink ptr size newsize
      some (rmem, h)
    else
      let (nmem, h) ← h.rtMallocEx newsize
      if nmem ≠ 0 then
        let h := { h with mem := h.mem.write nmem (h.mem.read rmem (if size < newsize then size else newsize)) }
        let h ← h.rtFree rmem
        some (nmem, h)
      else some (nmem, h)

def rtCalloc (h : Heap) (count size : Nat) : Option (Nat × Heap) := do
  let n := count * size % 2 ^ 32
  let (p, h) ← h.rtMallocEx n
  if p ≠ 0 then some (p, { h with mem := h.mem.write p (List.replicate n 0) }) else some (p, h)

end Heap

end Bootloader
