import CosKernel.LockedPrograms
import Mathlib.Data.Nat.Notation
import Mathlib.Logic.Function.Basic

/-!
# The heap

The page allocator and the slab allocator of the kernel. Their records lie in the memory
that they manage, which is a map from the addresses of words to words. A call is a program
that locks the heap with the semaphore `heap_sem` once `Runtime::down_flag` is set; what
happens between two operations of the semaphore is cut into atomic steps.

Pointers are 32-bit words. A failed assertion never returns and is a fault, like the
dereference of a null pointer and an index outside of `zone_array`. Walks along links get
fuel and fault without it.
-/
namespace CosKernel
open LockedPrograms

abbrev Word := BitVec 32

def CONFIG_MM_PAGE_SIZE : Word := 4096
def CONFIG_MM_PAGE_MASK : Word := CONFIG_MM_PAGE_SIZE-1
def CONFIG_MM_PAGE_BITS : ℕ := 12

def ZALLOC_SLAB_MAGIC : Word := 0x51ab51ab
def ZALLOC_ZONE_LIMIT : Word := 16*1024
def ZALLOC_MIN_ZONE_SIZE : Word := 32*1024
def ZALLOC_MAX_ZONE_SIZE : Word := 128*1024
def NZONES : ℕ := 72
def ZONE_RELEASE_THRESH : Word := 2
def MIN_CHUNK_MASK : Word := 8-1

def PAGE_TYPE_FREE : Word := 0x00
def PAGE_TYPE_SMALL : Word := 0x01
def PAGE_TYPE_LARGE : Word := 0x02

def WIDTH_ALIGN (size align : Word) : Word := (size+align-1) &&& ~~~(align-1)

def WIDTH_ALIGN_DOWN (size align : Word) : Word := size &&& ~~~(align-1)

/-- The fields of `struct slab_zone`. -/
inductive ZoneField where
  | magic
  | nfree
  | nmax
  | next
  | baseptr
  | uindex
  | chunksize
  | zoneindex
  | freechunk
  deriving DecidableEq, Repr

def ZoneField.offset : ZoneField → Word
  | magic => 0
  | nfree => 4
  | nmax => 8
  | next => 12
  | baseptr => 16
  | uindex => 20
  | chunksize => 24
  | zoneindex => 28
  | freechunk => 32

def SIZEOF_SLAB_ZONE : Word := 36

/-- The memory and the static variables of the allocators. -/
structure SlabHeap where
  mem : Word → Word
  pageList : Word
  zoneArray : Fin NZONES → Word
  zoneFree : Word
  zoneFreeCnt : Word
  zoneSize : Word
  zoneLimit : Word
  zonePageCnt : Word
  memusage : Word
  heapStart : Word
  heapEnd : Word
  usedMem : Word
  maxMem : Word

namespace SlabHeap

def set (h : SlabHeap) (a v : Word) : SlabHeap := {h with mem := Function.update h.mem a v}

/-- The fields `next` and `page` of `struct page_head`. -/
def next (h : SlabHeap) (b : Word) : Word := h.mem b

def page (h : SlabHeap) (b : Word) : Word := h.mem (b+4)

def setNext (h : SlabHeap) (b v : Word) : SlabHeap := h.set b v

def setPage (h : SlabHeap) (b v : Word) : SlabHeap := h.set (b+4) v

/-- The cell of a `struct page_head **`: the list head, or the field `next` of a page. -/
def link (h : SlabHeap) : Option Word → Word
  | none => h.pageList
  | some b => h.next b

def setLink (h : SlabHeap) : Option Word → Word → SlabHeap
  | none,v => {h with pageList := v}
  | some b,v => h.setNext b v

/-- The pages behind `b`. -/
def pages (b npages : Word) : Word := b+npages*CONFIG_MM_PAGE_SIZE

/-- The loop of `page_alloc`, which starts at the cell `prev`. -/
def pageAllocLoop (npages : Word) : ℕ → SlabHeap → Option Word → Option (Word × SlabHeap)
  | 0,_,_ => none
  | fuel+1,h,prev =>
      let b := h.link prev
      if b = 0 then some (0,h)
      else if npages < h.page b then
        let n := pages b npages
        let h := h.setNext n (h.next b)
        let h := h.setPage n (h.page b-npages)
        some (b,h.setLink prev n)
      else if h.page b = npages then some (b,h.setLink prev (h.next b))
      else pageAllocLoop npages fuel h (some b)

/-- The end of `page_free` for pages that touch no entry: a new entry before `b`. -/
def pageEnter (h : SlabHeap) (prev : Option Word) (b n npages : Word) : SlabHeap :=
  let h := h.setPage n npages
  let h := h.setNext n b
  h.setLink prev n

/-- The entry `b` grows by the pages behind it, perhaps up to the next entry. -/
def pageGrow (h : SlabHeap) (b npages : Word) : Option SlabHeap :=
  let h := h.setPage b (h.page b+npages)
  if pages b (h.page b) = h.next b then
    if h.next b = 0 then none
    else
      let h := h.setPage b (h.page b+h.page (h.next b))
      some (h.setNext b (h.next (h.next b)))
  else some h

/-- The loop of `page_free`. -/
def pageFreeLoop (n npages : Word) : ℕ → SlabHeap → Option Word → Option SlabHeap
  | 0,_,_ => none
  | fuel+1,h,prev =>
      let b := h.link prev
      if b = 0 then some (h.pageEnter prev b n npages)
      else if h.page b = 0 then none
      else if ¬(n < b ∨ pages b (h.page b) ≤ n) then none
      else if pages b (h.page b) = n then h.pageGrow b npages
      else if b = pages n npages then
        let h := h.setPage n (h.page b+npages)
        let h := h.setNext n (h.next b)
        some (h.setLink prev n)
      else if pages n npages < b then some (h.pageEnter prev b n npages)
      else pageFreeLoop n npages fuel h (some b)

/-- The address of the entry of `memusage` for an address. -/
def btokup (h : SlabHeap) (addr : Word) : Word :=
  h.memusage+((addr-h.heapStart)>>>CONFIG_MM_PAGE_BITS)*4

/-- The bit-fields of `struct memusage`. -/
def usageType (w : Word) : Word := w &&& 3

def usageSize (w : Word) : Word := w>>>2

def withType (w type : Word) : Word := (w &&& ~~~3) ||| type

def withSize (w size : Word) : Word := (w &&& 3) ||| (size<<<2)

def setUsage (h : SlabHeap) (kup type size : Word) : SlabHeap :=
  h.set kup (withSize (withType (h.mem kup) type) size)

/-- The loops over the entries of a zone: type `type`, and the size from `size`. -/
def setUsages (kup type : Word) (size : ℕ → Word) : ℕ → SlabHeap → SlabHeap
  | 0,h => h
  | n+1,h => (setUsages kup type size n h).setUsage (kup+BitVec.ofNat 32 n*4) type (size n)

/-- `used_mem` grows and `max_mem` follows. -/
def use (h : SlabHeap) (size : Word) : SlabHeap :=
  let used := h.usedMem+size
  {h with usedMem := used, maxMem := if h.maxMem < used then used else h.maxMem}

def zone (h : SlabHeap) (z : Word) (f : ZoneField) : Word := h.mem (z+f.offset)

def setZone (h : SlabHeap) (z : Word) (f : ZoneField) (v : Word) : SlabHeap := h.set (z+f.offset) v

/-- An index into `zone_array`. -/
def index (zi : Word) : Option (Fin NZONES) :=
  if hzi : zi.toNat < NZONES then some ⟨zi.toNat,hzi⟩ else none

/-- The chunk size for a request, and the index of its zones. -/
def zoneindex (n : Word) : Word × Word :=
  if n < 128 then
    let n := (n+7) &&& ~~~7
    (n,n/8-1)
  else if n < 256 then
    let n := (n+15) &&& ~~~15
    (n,n/16+7)
  else if n < 8192 then
    if n < 512 then
      let n := (n+31) &&& ~~~31
      (n,n/32+15)
    else if n < 1024 then
      let n := (n+63) &&& ~~~63
      (n,n/64+23)
    else if n < 2048 then
      let n := (n+127) &&& ~~~127
      (n,n/128+31)
    else if n < 4096 then
      let n := (n+255) &&& ~~~255
      (n,n/256+39)
    else
      let n := (n+511) &&& ~~~511
      (n,n/512+47)
  else if n < 16384 then
    let n := (n+1023) &&& ~~~1023
    (n,n/1024+55)
  else (n,0)

/-- One free chunk less; a zone without free chunks leaves `zone_array`. -/
def takeFree (h : SlabHeap) (z : Word) (zi : Fin NZONES) : SlabHeap :=
  let h := h.setZone z .nfree (h.zone z .nfree-1)
  if h.zone z .nfree = 0 then
    let h := {h with zoneArray := Function.update h.zoneArray zi (h.zone z .next)}
    h.setZone z .next 0
  else h

/-- A chunk of the first zone of `zone_array[zi]`: one that has not been used so far, or
one of the free list. There may be no zone. -/
def fromZone (size : Word) (zi : Fin NZONES) (h : SlabHeap) : Option (Option Word × SlabHeap) :=
  let z := h.zoneArray zi
  if z = 0 then some (none,h)
  else if (h.zone z .nfree).toInt ≤ 0 then none
  else
    let h := h.takeFree z zi
    if h.zone z .uindex+1 ≠ h.zone z .nmax then
      let h := h.setZone z .uindex (h.zone z .uindex+1)
      let chunk := h.zone z .baseptr+h.zone z .uindex*size
      some (some chunk,h.use (h.zone z .chunksize))
    else
      let chunk := h.zone z .freechunk
      if chunk = 0 then none
      else
        let h := h.setZone z .freechunk (h.mem chunk)
        some (some chunk,h.use (h.zone z .chunksize))

/-- A zone of the list of free zones, if there is one. -/
def fromFreeZones (h : SlabHeap) : Option (Option Word × SlabHeap) :=
  let z := h.zoneFree
  if z = 0 then some (none,h)
  else some (some z,{h with zoneFree := h.zone z .next, zoneFreeCnt := h.zoneFreeCnt-1})

/-- The bytes of the word at `a` that lie in the `len` bytes from `start` on become those
of `w`. -/
def overwrite (start len : Word) (w : Word → Word) (mem : Word → Word) (a : Word) : Word :=
  let off := a-start
  if off.toNat%4 = 0 ∧ off < len then
    if off.toNat+4 ≤ len.toNat then w off
    else
      let bits := 8*(len.toNat-off.toNat)
      (mem a>>>bits<<<bits) ||| (w off &&& (1<<<bits)-1)
  else mem a

/-- `memset` with zero. -/
def memset (h : SlabHeap) (p len : Word) : SlabHeap :=
  {h with mem := overwrite p len (fun _ => 0) h.mem}

def memcpy (h : SlabHeap) (p q len : Word) : SlabHeap :=
  {h with mem := overwrite p len (fun off => h.mem (q+off)) h.mem}

/-- The offset of the first chunk in a zone. -/
def chunkOffset (size : Word) : Word :=
  if (size ||| (size-1))+1 = size<<<1 then (SIZEOF_SLAB_ZONE+size-1) &&& ~~~(size-1)
  else (SIZEOF_SLAB_ZONE+MIN_CHUNK_MASK) &&& ~~~MIN_CHUNK_MASK

/-- The zone `z` is set up for chunks of `size` bytes, and its first chunk taken. -/
def newZone (z size zi : Word) (i : Fin NZONES) (h : SlabHeap) : Word × SlabHeap :=
  let h := h.memset z SIZEOF_SLAB_ZONE
  let off := chunkOffset size
  let h := h.setZone z .magic ZALLOC_SLAB_MAGIC
  let h := h.setZone z .zoneindex zi
  let h := h.setZone z .nmax ((h.zoneSize-off)/size)
  let h := h.setZone z .nfree (h.zone z .nmax-1)
  let h := h.setZone z .baseptr (z+off)
  let h := h.setZone z .uindex 0
  let h := h.setZone z .chunksize size
  let chunk := h.zone z .baseptr+h.zone z .uindex*size
  let h := h.setZone z .next (h.zoneArray i)
  let h := {h with zoneArray := Function.update h.zoneArray i z}
  (chunk,h.use (h.zone z .chunksize))

/-- The cell of a `slab_zone **`: an element of `zone_array`, or the field `z_next`. -/
def zoneLink (h : SlabHeap) (i : Fin NZONES) : Option Word → Word
  | none => h.zoneArray i
  | some x => h.zone x .next

def setZoneLink (h : SlabHeap) (i : Fin NZONES) : Option Word → Word → SlabHeap
  | none,v => {h with zoneArray := Function.update h.zoneArray i v}
  | some x,v => h.setZone x .next v

/-- The zone `z` is taken out of `zone_array[i]`. -/
def unlinkZone (z : Word) (i : Fin NZONES) : ℕ → SlabHeap → Option Word → Option SlabHeap
  | 0,_,_ => none
  | fuel+1,h,pz =>
      let x := h.zoneLink i pz
      if x = z then some (h.setZoneLink i pz (h.zone z .next))
      else if x = 0 then none
      else unlinkZone z i fuel h (some x)

/-- A zone that had no free chunk before enters `zone_array`. -/
def relist (h : SlabHeap) (z nfree : Word) : Option SlabHeap :=
  if nfree = 0 then do
    let i ← index (h.zone z .zoneindex)
    let h := h.setZone z .next (h.zoneArray i)
    some {h with zoneArray := Function.update h.zoneArray i z}
  else some h

/-- A zone without chunks in use becomes a free zone. With too many free zones one of them
is the result, and its pages are to be freed. -/
def retire (fuel : ℕ) (h : SlabHeap) (z : Word) (i : Fin NZONES) : Option (Option Word × SlabHeap) := do
  let h ← unlinkZone z i fuel h none
  let h := h.setZone z .magic (-1)
  let h := h.setZone z .next h.zoneFree
  let h := {h with zoneFree := z, zoneFreeCnt := h.zoneFreeCnt+1}
  if ZONE_RELEASE_THRESH < h.zoneFreeCnt then
    let z := h.zoneFree
    let h := {h with zoneFree := h.zone z .next, zoneFreeCnt := h.zoneFreeCnt-1}
    let h := setUsages (h.btokup z) PAGE_TYPE_FREE (fun _ => 0) h.zonePageCnt.toNat h
    some (some z,h)
  else some (none,h)

/-- The zone of a chunk, by the entry of its page. -/
def zoneOf (h : SlabHeap) (ptr : Word) : Word :=
  let addr := ptr &&& ~~~CONFIG_MM_PAGE_MASK
  addr-usageSize (h.mem (h.btokup addr))*CONFIG_MM_PAGE_SIZE

/-- The part of `kfree` for a chunk of a zone. -/
def freeChunk (fuel : ℕ) (ptr : Word) (h : SlabHeap) : Option (Option Word × SlabHeap) :=
  let z := h.zoneOf ptr
  if h.zone z .magic ≠ ZALLOC_SLAB_MAGIC then none
  else do
    let h := h.set ptr (h.zone z .freechunk)
    let h := h.setZone z .freechunk ptr
    let h := {h with usedMem := h.usedMem-h.zone z .chunksize}
    let nfree := h.zone z .nfree
    let h := h.setZone z .nfree (nfree+1)
    let h ← h.relist z nfree
    if h.zone z .nfree = h.zone z .nmax then do
      let i ← index (h.zone z .zoneindex)
      if h.zone z .next ≠ 0 ∨ h.zoneArray i ≠ z then h.retire fuel z i
      else some (none,h)
    else some (none,h)

/-- The zone size for a heap of `limsize` bytes: the loop of `system_heap_init`. -/
def zoneSizeFor (limsize : Word) : ℕ → Word → Word
  | 0,size => size
  | fuel+1,size =>
      if size < ZALLOC_MAX_ZONE_SIZE ∧ size<<<1 < limsize/1024 then
        zoneSizeFor limsize fuel (size<<<1)
      else size

/-- The static variables of the allocators before `system_heap_init`, and empty memory. -/
def zeroHeap : SlabHeap := ⟨fun _ => 0,0,fun _ => 0,0,0,0,0,0,0,0,0,0,0⟩

end SlabHeap

namespace Heap
open LockedPrograms.Program SlabHeap

/-- The places at which `heap_sem` is released. -/
inductive Site where
  | pageAlloc
  | pageFree
  | kmallocNewZone
  | kmallocDone
  | kmallocFail
  | kfreeLarge
  | kfreeZone
  | kfree
  deriving DecidableEq, Repr

abbrev HeapProgram := Program SlabHeap Site

/-- `heap_sem` is used once `Runtime::down_flag` is set. -/
def lock (down : Bool) : HeapProgram Unit := if down then .take (.done ()) else .done ()

def unlock (down : Bool) (site : Site) : HeapProgram Unit :=
  if down then .release site (.done ()) else .done ()

def page_alloc (fuel : ℕ) (down : Bool) (npages : Word) : HeapProgram Word :=
  if npages = 0 then pure 0 else do
    lock down
    let b ← act fun h => pageAllocLoop npages fuel h none
    unlock down .pageAlloc
    pure b

def get_zeroed_pages (fuel : ℕ) (down : Bool) (npages : Word) : HeapProgram Word := do
  let ptr ← page_alloc fuel down npages
  if ptr ≠ 0 then modify fun h => h.memset ptr (CONFIG_MM_PAGE_SIZE*npages)
  pure ptr

def page_free (fuel : ℕ) (down : Bool) (addr npages : Word) : HeapProgram Unit :=
  if addr = 0 ∨ addr%CONFIG_MM_PAGE_SIZE ≠ 0 ∨ npages = 0 then act fun _ => none else do
    lock down
    act fun h => (pageFreeLoop addr npages fuel h none).map fun h => ((),h)
    unlock down .pageFree

def page_init (fuel : ℕ) (down : Bool) (addr npages : Word) : HeapProgram Unit :=
  if addr = 0 ∨ npages = 0 then act fun _ => none else do
    modify fun h => {h with pageList := 0}
    page_free fuel down addr npages

/-- A heap that is refused is left alone. -/
def system_heap_init (fuel : ℕ) (down : Bool) (begin_addr end_addr : Word) : HeapProgram Unit := do
  let start := WIDTH_ALIGN begin_addr CONFIG_MM_PAGE_SIZE
  let stop := WIDTH_ALIGN_DOWN end_addr CONFIG_MM_PAGE_SIZE
  modify fun h => {h with heapStart := start, heapEnd := stop}
  if stop ≤ start then pure () else do
    let limsize := stop-start
    let npages := limsize/CONFIG_MM_PAGE_SIZE
    page_init fuel down start npages
    let size := zoneSizeFor limsize 3 ZALLOC_MIN_ZONE_SIZE
    modify fun h => {h with
      zoneSize := size
      zoneLimit := if ZALLOC_ZONE_LIMIT < size/4 then ZALLOC_ZONE_LIMIT else size/4
      zonePageCnt := size/CONFIG_MM_PAGE_SIZE}
    let limsize := WIDTH_ALIGN (npages*4) CONFIG_MM_PAGE_SIZE
    let memusage ← page_alloc fuel down (limsize/CONFIG_MM_PAGE_SIZE)
    modify fun h => {h with memusage := memusage}

/-- Pages for a large block. -/
def kmallocLarge (fuel : ℕ) (down : Bool) (size : Word) : HeapProgram Word := do
  let size := WIDTH_ALIGN size CONFIG_MM_PAGE_SIZE
  let chunk ← page_alloc fuel down (size>>>CONFIG_MM_PAGE_BITS)
  if chunk = 0 then pure 0 else do
    modify fun h => h.setUsage (h.btokup chunk) PAGE_TYPE_LARGE (size>>>CONFIG_MM_PAGE_BITS)
    lock down
    modify fun h => h.use size
    unlock down .kmallocDone
    pure chunk

/-- A chunk of a zone for which pages are allocated. The heap is not locked meanwhile, and
at the label `fail` it still is not. -/
def kmallocNewZone (fuel : ℕ) (down : Bool) (size zi : Word) (i : Fin NZONES) :
    HeapProgram Word := do
  unlock down .kmallocNewZone
  let zoneSize ← get SlabHeap.zoneSize
  let z ← page_alloc fuel down (zoneSize/CONFIG_MM_PAGE_SIZE)
  if z = 0 then do
    unlock down .kmallocFail
    pure 0
  else do
    lock down
    modify fun h => setUsages (h.btokup z) PAGE_TYPE_SMALL (BitVec.ofNat 32) h.zonePageCnt.toNat h
    let chunk ← act fun h => some (h.newZone z size zi i)
    unlock down .kmallocDone
    pure chunk

/-- A chunk of a zone. -/
def kmallocSmall (fuel : ℕ) (down : Bool) (size : Word) : HeapProgram Word := do
  lock down
  let (size,zi) := zoneindex size
  let i ← act fun h => (index zi).map fun i => (i,h)
  match ← act (fromZone size i) with
  | some chunk => do
      unlock down .kmallocDone
      pure chunk
  | none =>
      match ← act fromFreeZones with
      | some z => do
          let chunk ← act fun h => some (h.newZone z size zi i)
          unlock down .kmallocDone
          pure chunk
      | none => kmallocNewZone fuel down size zi i

def kmalloc (fuel : ℕ) (down : Bool) (size : Word) : HeapProgram Word :=
  if size = 0 then pure 0 else do
    let limit ← get SlabHeap.zoneLimit
    if limit ≤ size then kmallocLarge fuel down size else kmallocSmall fuel down size

def kfree (fuel : ℕ) (down : Bool) (ptr : Word) : HeapProgram Unit :=
  if ptr = 0 then pure () else do
    let usage ← get fun h => h.mem (h.btokup (ptr &&& ~~~CONFIG_MM_PAGE_MASK))
    if usageType usage = PAGE_TYPE_LARGE then do
      lock down
      let size ← act fun h =>
        let kup := h.btokup (ptr &&& ~~~CONFIG_MM_PAGE_MASK)
        let size := usageSize (h.mem kup)
        let h := h.set kup (withSize (h.mem kup) 0)
        some (size,{h with usedMem := h.usedMem-size*CONFIG_MM_PAGE_SIZE})
      unlock down .kfreeLarge
      page_free fuel down ptr size
    else do
      lock down
      match ← act (freeChunk fuel ptr) with
      | some z => do
          unlock down .kfreeZone
          let zoneSize ← get SlabHeap.zoneSize
          page_free fuel down z (zoneSize/CONFIG_MM_PAGE_SIZE)
      | none => unlock down .kfree

/-- A block moves to a new one, if there is one. The old one has `osize` bytes. -/
def kmove (fuel : ℕ) (down : Bool) (ptr size : Word) (osize : SlabHeap → Word) :
    HeapProgram Word := do
  let nptr ← kmalloc fuel down size
  if nptr = 0 then pure 0 else do
    modify fun h => h.memcpy nptr ptr (if osize h < size then osize h else size)
    kfree fuel down ptr
    pure nptr

def krealloc (fuel : ℕ) (down : Bool) (ptr size : Word) : HeapProgram Word :=
  if ptr = 0 then kmalloc fuel down size
  else if size = 0 then do
    kfree fuel down ptr
    pure 0
  else do
    let usage ← get fun h => h.mem (h.btokup (ptr &&& ~~~CONFIG_MM_PAGE_MASK))
    if usageType usage = PAGE_TYPE_LARGE then
      kmove fuel down ptr size fun _ => usageSize usage<<<CONFIG_MM_PAGE_BITS
    else if usageType usage = PAGE_TYPE_SMALL then do
      let size := (zoneindex size).1
      let z ← act fun h =>
        let z := h.zoneOf ptr
        if h.zone z .magic ≠ ZALLOC_SLAB_MAGIC then none else some (z,h)
      let chunksize ← get fun h => h.zone z .chunksize
      if chunksize = size then pure ptr
      else kmove fuel down ptr size fun h => h.zone z .chunksize
    else pure 0

def kcalloc (fuel : ℕ) (down : Bool) (count size : Word) : HeapProgram Word := do
  let p ← kmalloc fuel down (count*size)
  if p ≠ 0 then modify fun h => h.memset p (count*size)
  pure p

/-- The calls of the heap, and the write of a client to a word. -/
inductive Call where
  | kmalloc (size : Word)
  | kcalloc (count size : Word)
  | krealloc (ptr size : Word)
  | kfree (ptr : Word)
  | page_alloc (npages : Word)
  | get_zeroed_pages (npages : Word)
  | page_free (addr npages : Word)
  | write (addr value : Word)
  deriving DecidableEq, Repr

/-- A call and its result; zero where it has none. -/
def Call.program (fuel : ℕ) (down : Bool) : Call → HeapProgram Word
  | kmalloc size => Heap.kmalloc fuel down size
  | kcalloc count size => Heap.kcalloc fuel down count size
  | krealloc ptr size => Heap.krealloc fuel down ptr size
  | kfree ptr => do
      Heap.kfree fuel down ptr
      pure 0
  | page_alloc npages => Heap.page_alloc fuel down npages
  | get_zeroed_pages npages => Heap.get_zeroed_pages fuel down npages
  | page_free addr npages => do
      Heap.page_free fuel down addr npages
      pure 0
  | write addr value => do
      modify fun h => h.set addr value
      pure 0

end Heap

end CosKernel
