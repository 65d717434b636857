import Ps2rd.Lib.Tiling
import Ps2rd.Lib.While

/-!
# The heap of the TCP/IP stack

`mem.c` divides its `MEM_SIZE` bytes of RAM into blocks that are linked in both directions,
each with a `struct mem` of 8 bytes in front.  Addresses are offsets from `ram`.  The block
that `ram_end` points to has no room; it closes the heap and counts as used.  `lfree` is
meant to be the lowest free block, and `mem_malloc` starts its search there.

The model has the headers only: what the owner of a block stores in it does not matter to
the heap.  `mem_size_t` is a `u16_t`, as `MEM_SIZE` is 0x2000 in the build that the
`Makefile` makes (`LOW_MEM_FOOTPRINT`), assertions and statistics are off there.  `none`
stands for a call that does not come back, because the semaphore is taken or a loop does
not end.
-/

namespace Ps2rd.TcpIp

open Tiling

/-- `MEM_SIZE` -/
def memSize : ℕ := 0x2000

/-- `SIZEOF_STRUCT_MEM` -/
def sizeofStructMem : ℕ := 8

/-- `MIN_SIZE` -/
def minSize : ℕ := 12

/-- `MEM_ALIGNMENT` -/
def memAlignment : ℕ := 4

structure Heap where
  /-- the `struct mem` at an offset -/
  ram : ℕ → Header
  lfree : ℕ
  /-- the semaphore is free -/
  memSem : Bool

/-- The headers of an empty heap. -/
def initialRam (p : ℕ) : Header :=
  if p = 0 then ⟨memSize, 0, false⟩
  else if p = memSize then ⟨memSize, memSize, true⟩
  else ⟨0, 0, false⟩

def memInit : Heap := ⟨initialRam, 0, true⟩

/-- A block takes over the one behind it, which may be the one that `lfree` points to. -/
def Heap.merge (h : Heap) (mem nmem : ℕ) : Heap :=
  { h with
    lfree := if h.lfree = nmem then mem else h.lfree
    ram := absorb h.ram mem nmem }

/-- Plug hole forward. -/
def plugForward (h : Heap) (mem : ℕ) : Heap :=
  let nmem := (h.ram mem).next
  if mem ≠ nmem ∧ (h.ram nmem).used = false ∧ nmem ≠ memSize then h.merge mem nmem else h

/-- Plug hole backward. -/
def plugBackward (h : Heap) (mem : ℕ) : Heap :=
  let pmem := (h.ram mem).prev
  if pmem ≠ mem ∧ (h.ram pmem).used = false then h.merge pmem mem else h

def plugHoles (h : Heap) (mem : ℕ) : Heap := plugBackward (plugForward h mem) mem

/-- A size is rounded up to the alignment, as a `mem_size_t`. -/
def alignSize (size : ℕ) : ℕ :=
  if size % memAlignment ≠ 0 then
    (size + (memAlignment - (size + sizeofStructMem) % memAlignment)) % 2 ^ 16
  else size

/-- A pointer that is handed to the heap. -/
inductive Ptr
  | null
  /-- an address outside of the heap -/
  | outside
  /-- the offset in the heap -/
  | inside (off : ℕ)

/-- `mem_free` -/
def memFree (h : Heap) : Ptr → Option Heap
  | .null => some h
  | .outside => if h.memSem then some h else none
  | .inside rmem =>
      if h.memSem then
        let mem := rmem - sizeofStructMem
        let h := { h with
          ram := Function.update h.ram mem { h.ram mem with used := false }
          lfree := if mem < h.lfree then mem else h.lfree }
        some (plugHoles h mem)
      else none

/-- `mem_realloc`.  For an address outside of the heap the semaphore is not given back. -/
def memRealloc (h : Heap) (rmem : Ptr) (newsize : ℕ) : Option (Ptr × Heap) :=
  let newsize := alignSize newsize
  if memSize < newsize then some (.null, h)
  else if h.memSem then
    match rmem with
    | .inside off =>
        let ptr := off - sizeofStructMem
        let size := ((h.ram ptr).next + 2 ^ 16 - ptr - sizeofStructMem) % 2 ^ 16
        if newsize + sizeofStructMem + minSize < size then
          let ptr2 := (ptr + sizeofStructMem + newsize) % 2 ^ 16
          some (rmem, plugHoles { h with ram := cut h.ram ptr ptr2 memSize } ptr2)
        else some (rmem, h)
    | _ => some (rmem, { h with memSem := false })
  else none

/-- The test for a block that is large enough.  The subtraction is one of `unsigned int`. -/
def fits (h : Heap) (size ptr : ℕ) : Bool :=
  !(h.ram ptr).used &&
    decide (size + sizeofStructMem ≤
      ((h.ram ptr).next + 2 ^ 32 - (ptr + sizeofStructMem)) % 2 ^ 32)

/-- The search for a block. -/
def findBlock (fuel : ℕ) (h : Heap) (size : ℕ) : Option ℕ :=
  whileM (fun ptr => decide (ptr < memSize) && !fits h size ptr) (fun ptr => some (h.ram ptr).next)
    fuel h.lfree

/-- The block at `ptr` is cut at `ptr2` and used. -/
def Heap.take (h : Heap) (ptr ptr2 : ℕ) : Heap :=
  let ram := cut h.ram ptr ptr2 memSize
  { h with ram := Function.update ram ptr { ram ptr with used := true } }

/-- The search for the next free block. -/
def nextFree (fuel : ℕ) (h : Heap) : Option ℕ :=
  whileM (fun p => (h.ram p).used && decide (p ≠ memSize)) (fun p => some (h.ram p).next)
    fuel h.lfree

/-- `mem_malloc`; the result is the offset of the memory. -/
def memMalloc (fuel : ℕ) (h : Heap) (size : ℕ) : Option (Option ℕ × Heap) :=
  if size = 0 then some (none, h)
  else
    let size := alignSize size
    if memSize < size then some (none, h)
    else if h.memSem then do
      let ptr ← findBlock fuel h size
      if ptr < memSize then
        let h := h.take ptr ((ptr + sizeofStructMem + size) % 2 ^ 16)
        let lfree ← if ptr = h.lfree then nextFree fuel h else some h.lfree
        some (some (ptr + sizeofStructMem), { h with lfree := lfree })
      else some (none, h)
    else none

end Ps2rd.TcpIp
