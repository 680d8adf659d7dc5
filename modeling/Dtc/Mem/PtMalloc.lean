import Dtc.Library.Memory

/-!
# The chunk allocator of the cache memory

`PtMalloc` hands out chunks of one arena. The arena is a byte memory addressed by
handles: `m_pBaseAddr` is address 0, so a pointer into the arena and its handle are
one number. The head of the arena (`MemHead` and the bins) is kept as fields of the
state, the chunks are bytes. A chunk at `c` has four fields, `m_tPreSize` at `c`,
`m_tSize` at `c + 4`, and the two links of a binned chunk at `c + 8` and `c + 16`; the
caller uses the bytes from `c + 8` up to and including `m_tPreSize` of the next chunk.

Sizes are 32-bit fields: a value is cut off when it is stored. Handles are offsets
into an arena that exists, so sums of handles and sizes stay far from `2 ^ 64`.
-/

namespace Dtc.Mem

open Library.Memory

/-- `INVALID_HANDLE` -/
def invalidHandle : Nat := 0

/-- `MINSIZE`: the smallest chunk, its four fields. -/
def minSize : Nat := 24

/-- `MAX_ALLOC_SIZE` -/
def maxAllocSize : Nat := 4294967288

/-- `NBINS` -/
def nBins : Nat := 128

/-- `request2size`: a request padded to a chunk size. -/
def request2size (req : Nat) : Nat :=
  if req + 4 + 7 < minSize then minSize else (req + 4 + 7) / 8 * 8

/-- `REQUEST_OUT_OF_RANGE`: `(ALLOC_SIZE_T)(-2 * MINSIZE)` and more. -/
def requestOutOfRange (req : Nat) : Bool := 2 ^ 32 - 2 * minSize ≤ req

/-- `REAL_SIZE`: a size word without its bits. -/
def realSize (word : Nat) : Nat := word / 8 * 8

/-- `chunksize2memsize` -/
def chunksize2memsize (size : Nat) : Nat := size - 4

def smallbinIndex (size : Nat) : Nat := size >>> 3

def largebinIndex (size : Nat) : Nat :=
  if size >>> 6 ≤ 32 then 56 + size >>> 6
  else if size >>> 9 ≤ 20 then 91 + size >>> 9
  else if size >>> 12 ≤ 10 then 110 + size >>> 12
  else if size >>> 15 ≤ 4 then 119 + size >>> 15
  else if size >>> 18 ≤ 2 then 124 + size >>> 18
  else 126

/-- `in_smallbin_range`: below `MIN_LARGE_SIZE`. -/
def inSmallbinRange (size : Nat) : Bool := size < 512

def binIndex (size : Nat) : Nat :=
  if inSmallbinRange size then smallbinIndex size else largebinIndex size

/-- `CAN_COMBILE` -/
def canCombile (size add : Nat) : Bool := size + add ≤ maxAllocSize

/-! ### The fields of a chunk -/

section
variable (m : Nat → UInt8) (chunk : Nat)

/-- `m_tPreSize`: the size of the chunk below, if that is free. -/
def tPreSize : Nat := load m chunk 4

/-- `m_tSize`: the size with the `PREV_INUSE` bit. -/
def tSize : Nat := load m (chunk + 4) 4

/-- `m_hPreChunk` -/
def hPreChunk : Nat := load m (chunk + 8) 8

/-- `m_hNextChunk` -/
def hNextChunk : Nat := load m (chunk + 16) 8

/-- `CHUNK_SIZE` -/
def chunkSize : Nat := realSize (tSize m chunk)

/-- `prev_inuse`; `inuse_bit_at_offset` is this bit of the chunk at the offset. -/
def prevInuse : Bool := tSize m chunk % 2 == 1

end

/-- The head of a bin list: `m_hNextChunk` its first chunk, `m_hPreChunk` its last. -/
structure CBin where
  hPreChunk : Nat
  hNextChunk : Nat

structure PtMalloc where
  /-- the bytes of the arena -/
  mem : Nat → UInt8
  /-- the size of the arena -/
  tSize : Nat
  tUserAllocSize : Nat
  tUserAllocChunkCnt : Nat
  hBottom : Nat
  hTop : Nat
  tLastFreeChunkSize : Nat
  /-- `m_auiBinBitMap`; indices from 4 on are the words of `MemHead` behind it -/
  binBitMap : Nat → BitVec 32
  ptBin : Nat → CBin
  statChunkTotal : Int
  statDataSize : Int
  minChunkSize : Nat
  errMessage : String

namespace PtMalloc

variable (s : PtMalloc)

/-- The constructor: no arena yet, chunks are split down to `MINSIZE`. -/
def new : PtMalloc where
  mem := fun _ => 0
  tSize := 0
  tUserAllocSize := 0
  tUserAllocChunkCnt := 0
  hBottom := 0
  hTop := 0
  tLastFreeChunkSize := 0
  binBitMap := fun _ => 0
  ptBin := fun _ => ⟨invalidHandle, invalidHandle⟩
  statChunkTotal := 0
  statDataSize := 0
  minChunkSize := minSize
  errMessage := ""

/-- `set_min_chunk_size` -/
def setMinChunkSize (size : Nat) : PtMalloc :=
  { s with minChunkSize := if size = 1 then 1 else if size < minSize then minSize else size }

/-- `get_min_chunk_size`: the setting, or the average size of the chunks in use. The
result is an `unsigned int`. -/
def getMinChunkSize : Nat :=
  if s.minChunkSize = 1 then
    if s.statChunkTotal ≤ 0 then minSize
    else ((s.statDataSize.tdiv s.statChunkTotal) % 2 ^ 32).toNat
  else s.minChunkSize

def fail (message : String) : PtMalloc := { s with errMessage := message }

def setTPreSize (chunk value : Nat) : PtMalloc :=
  { s with mem := store s.mem chunk (leBytes 4 value) }

def setTSize (chunk value : Nat) : PtMalloc :=
  { s with mem := store s.mem (chunk + 4) (leBytes 4 value) }

def setHPreChunk (chunk value : Nat) : PtMalloc :=
  { s with mem := store s.mem (chunk + 8) (leBytes 8 value) }

def setHNextChunk (chunk value : Nat) : PtMalloc :=
  { s with mem := store s.mem (chunk + 16) (leBytes 8 value) }

/-- `set_inuse_bit_at_offset` -/
def setInuseBit (chunk : Nat) : PtMalloc :=
  s.setTSize chunk (Mem.tSize s.mem chunk ||| 1)

/-- `clear_inuse_bit_at_offset` -/
def clearInuseBit (chunk : Nat) : PtMalloc :=
  s.setTSize chunk (Mem.tSize s.mem chunk / 2 * 2)

/-- `set_size_at_offset`: the bits stay. -/
def setSize (chunk size : Nat) : PtMalloc :=
  s.setTSize chunk (realSize size ||| Mem.tSize s.mem chunk % 8)

/-- `set_presize_at_offset` -/
def setPresize (chunk size : Nat) : PtMalloc := s.setTPreSize chunk (realSize size)

def setBinPre (i value : Nat) : PtMalloc :=
  { s with ptBin := Function.update s.ptBin i { s.ptBin i with hPreChunk := value } }

def setBinNext (i value : Nat) : PtMalloc :=
  { s with ptBin := Function.update s.ptBin i { s.ptBin i with hNextChunk := value } }

/-- `m_hNextChunk` of a chunk of bin `i`, or of the bin itself for the null chunk. -/
def setNextOf (i chunk value : Nat) : PtMalloc :=
  if chunk = invalidHandle then s.setBinNext i value else s.setHNextChunk chunk value

/-- `m_hPreChunk` of a chunk of bin `i`, or of the bin itself for the null chunk. -/
def setPreOf (i chunk value : Nat) : PtMalloc :=
  if chunk = invalidHandle then s.setBinPre i value else s.setHPreChunk chunk value

def setBinBitMap (i : Nat) : PtMalloc :=
  { s with
    binBitMap := Function.update s.binBitMap (i / 32)
      (s.binBitMap (i / 32) ||| 1#32 <<< (i % 32)) }

def clearBinBitMap (i : Nat) : PtMalloc :=
  { s with
    binBitMap := Function.update s.binBitMap (i / 32)
      (s.binBitMap (i / 32) &&& ~~~(1#32 <<< (i % 32))) }

def emptyBin (i : Nat) : Bool := (s.ptBin i).hNextChunk == invalidHandle

/-- `if (empty_bin(uiBinIdx)) clear_bin_bit_map(uiBinIdx);` -/
def clearIfEmpty (i : Nat) : PtMalloc :=
  if s.emptyBin i then s.clearBinBitMap i else s

/-- `do_init` on an arena of `size` bytes that holds `content`. -/
def doInit (content : Nat → UInt8) (size : Nat) : Int × PtMalloc :=
  if size < 1024 + 16 * (128 + 64 + 1) + 4096 + minSize then (-1, s.fail s!"invalid size[{size}]")
  else
    let bottom := 1024 + 16 * (128 + 64 + 1) + 4096
    let s : PtMalloc := { s with
      mem := content
      tSize := size
      tUserAllocSize := bottom
      tUserAllocChunkCnt := 0
      hBottom := bottom
      hTop := bottom
      tLastFreeChunkSize := if bottom + minSize < size then size - bottom - minSize else 0
      binBitMap := fun _ => 0
      ptBin := fun _ => ⟨invalidHandle, invalidHandle⟩ }
    let s := (s.setTPreSize bottom 0).setTSize bottom 1
    (0, { s with statChunkTotal := 0, statDataSize := bottom })

/-- `unlink_bin` -/
def unlinkBin (i hHandle : Nat) : Int × PtMalloc :=
  if hHandle = invalidHandle then (-1, s)
  else if (s.ptBin i).hNextChunk = invalidHandle ∨ (s.ptBin i).hPreChunk = invalidHandle then
    (-2, s.fail "unlink-bin: bad bin!")
  else
    let s := s.setNextOf i (hPreChunk s.mem hHandle) (hNextChunk s.mem hHandle)
    (0, s.setPreOf i (hNextChunk s.mem hHandle) (hPreChunk s.mem hHandle))

/-- `link_bin` -/
def linkBin (i hHandle : Nat) : Int × PtMalloc :=
  if hHandle = invalidHandle then (-1, s)
  else
    let s := (s.setHNextChunk hHandle (s.ptBin i).hNextChunk).setHPreChunk hHandle invalidHandle
    if (s.ptBin i).hNextChunk ≠ invalidHandle then
      let s := s.setPreOf i (s.ptBin i).hNextChunk hHandle
      if (s.ptBin i).hPreChunk = invalidHandle then (-2, s.fail "link-bin: bad bin")
      else (0, s.setBinNext i hHandle)
    else if (s.ptBin i).hPreChunk ≠ invalidHandle then (-3, s.fail "link-bin: bad bin")
    else (0, (s.setPreOf i (s.ptBin i).hNextChunk hHandle).setBinNext i hHandle)

/-- `check_inuse_chunk` -/
def checkInuseChunk (chunk : Nat) : Int × PtMalloc :=
  if !prevInuse s.mem (chunk + chunkSize s.mem chunk) then (-1, s.fail "chunk not inuse!")
  else if !prevInuse s.mem chunk ∧
      -- a chunk below the arena has no handle, which is below `m_hBottom` as well
      (chunk - tPreSize s.mem chunk < s.hBottom ∨
        chunkSize s.mem (chunk - tPreSize s.mem chunk) ≠ tPreSize s.mem chunk) then
    (-2, s.fail "invalid pre-chunk size!")
  else if chunk + chunkSize s.mem chunk ≠ s.hTop ∧
      chunkSize s.mem (chunk + chunkSize s.mem chunk) < minSize then
    (-3, s.fail "invalid next chunk!")
  else (0, s)

/-! ### Free -/

/-- `inter_free`: a free chunk below is taken out of its bin and joined. -/
def combinePrev (chunk size : Nat) : Nat × Nat × PtMalloc :=
  let pre := tPreSize s.mem chunk
  if !prevInuse s.mem chunk ∧ canCombile size pre then
    let s := (s.unlinkBin (binIndex pre) (chunk - pre)).2.clearIfEmpty (binIndex pre)
    let s := s.setSize (chunk - pre) (size + pre)
    (chunk - pre, size + pre, s.setPresize (chunk - pre + (size + pre)) (size + pre))
  else (chunk, size, s)

/-- `inter_free`: a free chunk above is taken out of its bin and joined. -/
def combineNext (chunk size : Nat) : Except Int (Nat × PtMalloc) :=
  if chunk + size ≠ s.hTop then
    let next := chunk + size
    let add := chunkSize s.mem next
    if add < minSize then .error (-4)
    else if !prevInuse s.mem (next + add) ∧ canCombile size add then
      let s := (s.unlinkBin (binIndex add) next).2.clearIfEmpty (binIndex add)
      let s := s.setSize chunk (size + add)
      .ok (size + add, s.setPresize (chunk + (size + add)) (size + add))
    else .ok (size, s)
  else .ok (size, s)

/-- `inter_free`: the tags of the joined chunk. -/
def tagFree (chunk size : Nat) : PtMalloc :=
  let s := ((s.setSize chunk size).setPresize (chunk + size) size).setInuseBit (chunk + size)
  { s with
    tLastFreeChunkSize := if s.tLastFreeChunkSize < size then size else s.tLastFreeChunkSize }

/-- `inter_free`: the joined chunk becomes part of the top. -/
def mergeTop (chunk size : Nat) : PtMalloc :=
  let s := { s with hTop := s.hTop - size }.setTSize chunk 1
  { s with
    tLastFreeChunkSize :=
      if s.hTop + minSize < s.tSize ∧ s.tLastFreeChunkSize < s.tSize - s.hTop - minSize then
        s.tSize - s.hTop - minSize
      else s.tLastFreeChunkSize }

/-- `inter_free`: the joined chunk goes into a bin. -/
def putBin (chunk size : Nat) : PtMalloc :=
  ((s.clearInuseBit (chunk + size)).linkBin (binIndex size) chunk).2.setBinBitMap (binIndex size)

/-- `inter_free`: the joined chunk goes back to the top or into a bin. -/
def putChunk (chunk size : Nat) : PtMalloc :=
  let s := s.tagFree chunk size
  if chunk + size = s.hTop then s.mergeTop chunk size else s.putBin chunk size

/-- `inter_free` behind its checks. -/
def releaseChunk (chunk size : Nat) : Int × PtMalloc :=
  let (chunk, total, s) := s.combinePrev chunk size
  match s.combineNext chunk total with
  | .error code => (code, s.fail s!"free-invalid handle: {chunk}, size: {total}")
  | .ok (total, s) => (0, s.putChunk chunk total)

/-- `inter_free`: the code, the size of the chunk (`tMemSize`) and the new state. -/
def interFree (hHandle : Nat) : Int × Nat × PtMalloc :=
  if hHandle = invalidHandle then (0, 0, s)
  else if s.tSize ≤ hHandle then (-1, 0, s.fail "free-invalid handle")
  else
    let chunk := hHandle - 8
    let size := chunkSize s.mem chunk
    if s.tSize ≤ chunk + size then
      (-2, size, s.fail s!"free-invalid handle: {chunk}, size: {size}")
    else if !prevInuse s.mem (chunk + size) then
      let top := s.hTop
      (-3, size,
        s.fail s!"free-memory[handle {chunk}, size: {size}, top: {top}] not in use")
    -- the two checks below return `INVALID_HANDLE`, which is 0
    else if chunk % 8 ≠ 0 then (0, size, s.fail s!"free-invalid handle: {chunk}, size: {size}")
    else
      let (checked, s) := s.checkInuseChunk chunk
      if checked ≠ 0 then (0, size, s.fail s!"free-invalid chunk: {chunk}, size: {size}")
      else
        let (ret, s) := s.releaseChunk chunk size
        (ret, size, s)

/-- `m_tUserAllocSize -= tSize; m_tUserAllocChunkCnt--;` and the statistics. -/
def countFree (size : Nat) : PtMalloc :=
  let s := { s with
    tUserAllocSize := (s.tUserAllocSize + 2 ^ 64 - size) % 2 ^ 64
    tUserAllocChunkCnt := (s.tUserAllocChunkCnt + 2 ^ 64 - 1) % 2 ^ 64
    statChunkTotal := s.statChunkTotal - 1 }
  { s with statDataSize := (s.tUserAllocSize : Int).bmod (2 ^ 64) }

/-- `Free` -/
def free (hHandle : Nat) : Int × PtMalloc :=
  let (ret, size, s) := s.interFree hHandle
  (ret, if ret = 0 then s.countFree size else s)

/-! ### Malloc -/

/-- `bin_malloc`: the first chunk of the bin. -/
def binMalloc (i : Nat) : Nat × PtMalloc :=
  let chunk := (s.ptBin i).hNextChunk
  if chunk = invalidHandle then (invalidHandle, s)
  else
    let s := s.setInuseBit (chunk + chunkSize s.mem chunk)
    (chunk, (s.unlinkBin i chunk).2)

/-- `small_bin_malloc` -/
def smallBinMalloc (size : Nat) : Nat × PtMalloc :=
  let (chunk, s) := s.binMalloc (smallbinIndex size)
  (chunk, s.clearIfEmpty (smallbinIndex size))

/-- `top_alloc`: the handle of the new block, `INVALID_HANDLE` without room. -/
def topAlloc (size : Nat) : Nat × PtMalloc :=
  if s.tSize ≤ s.hTop + size + minSize then (invalidHandle, s.fail "out of memory")
  else
    let chunk := s.hTop
    let s := s.setTSize chunk (Mem.tSize s.mem chunk % 8 ||| realSize size)
    let s := (s.setTPreSize (chunk + size) (realSize size)).setTSize (chunk + size) 1
    (chunk + 8, { s with hTop := s.hTop + size })

/-- `inter_malloc`: the first large enough chunk of a bin, within `count` chunks. -/
def searchBin (s : PtMalloc) (size : Nat) : Nat → Nat → Option Nat
  | 0, _ => none
  | count + 1, v =>
    if v = invalidHandle then none
    else if size ≤ chunkSize s.mem v then some v
    else searchBin s size count (hNextChunk s.mem v)

/-- `inter_malloc`: empty words of the bit map are skipped. The bound of the loop is
the size of the map in bytes. -/
def skipWords (s : PtMalloc) : Nat → Nat → Nat → Nat
  | 0, _, binIdx => binIdx
  | fuel + 1, word, binIdx =>
    if word < 16 ∧ s.binBitMap word = 0 then skipWords s fuel (word + 1) (binIdx + 32) else binIdx

/-- `inter_malloc`: empty bins are skipped. -/
def skipBins (s : PtMalloc) : Nat → Nat → Nat
  | 0, binIdx => binIdx
  | fuel + 1, binIdx =>
    if binIdx < nBins ∧ s.emptyBin binIdx then skipBins s fuel (binIdx + 1) else binIdx

/-- `SEARCH_NEXT_BIN`: the first non-empty bin behind a bin. -/
def searchNextBin (binIdx : Nat) : Nat :=
  let binIdx := binIdx + 1
  let word := binIdx / 32
  let binIdx :=
    if s.binBitMap word = 0 then s.skipWords 16 (word + 1) ((word + 1) * 32) else binIdx
  s.skipBins nBins binIdx

/-- `inter_malloc`: the last large enough chunk of a bin. `none` is a read of the null
chunk. -/
def searchBack (s : PtMalloc) (size : Nat) : Nat → Nat → Option Nat
  | 0, _ => none
  | fuel + 1, h =>
    if h = invalidHandle then none
    else if size ≤ chunkSize s.mem h then some h
    else searchBack s size fuel (hPreChunk s.mem h)

/-- `inter_malloc`: a chunk is taken out of its bin, and what is left of it is freed. -/
def carveChunk (i chunk size : Nat) : PtMalloc :=
  let remain := chunkSize s.mem chunk - size
  let s := (s.unlinkBin i chunk).2.clearIfEmpty i
  if remain < s.getMinChunkSize then s.setInuseBit (chunk + chunkSize s.mem chunk)
  else
    let s := s.setTSize chunk (size ||| Mem.tSize s.mem chunk % 8)
    let next := chunk + size
    let s := ((s.setTSize next remain).setTPreSize next size).setInuseBit next
    let s := (s.setTPreSize (chunk + size + remain) remain).setInuseBit (next + remain)
    (s.interFree (next + 8)).2.2

/-- `inter_malloc`: from the bins behind the bin of the size, else from the top. -/
def mallocNextBin (size : Nat) : Nat × PtMalloc :=
  let i := s.searchNextBin (binIndex size)
  if nBins ≤ i then s.topAlloc size
  else
    match s.searchBack size s.tSize (s.ptBin i).hPreChunk with
    | none => (invalidHandle, s)
    | some chunk => (chunk + 8, s.carveChunk i chunk size)

/-- `inter_malloc` -/
def interMalloc (req : Nat) : Nat × PtMalloc :=
  if requestOutOfRange req then (invalidHandle, s)
  else
    let size := request2size req
    if inSmallbinRange size then
      let (chunk, s) := s.smallBinMalloc size
      if chunk ≠ invalidHandle then (chunk + 8, s) else s.mallocNextBin size
    else
      -- at most 99 chunks of the bin are looked at
      match s.searchBin size 99 (s.ptBin (binIndex size)).hNextChunk with
      | some chunk => (chunk + 8, s.carveChunk (binIndex size) chunk size)
      | none => s.mallocNextBin size

/-- `m_tUserAllocSize += CHUNK_SIZE(pstChunk); m_tUserAllocChunkCnt++;` and the
statistics. -/
def countMalloc (hHandle : Nat) : PtMalloc :=
  let s := { s with
    tUserAllocSize := (s.tUserAllocSize + chunkSize s.mem (hHandle - 8)) % 2 ^ 64
    tUserAllocChunkCnt := (s.tUserAllocChunkCnt + 1) % 2 ^ 64
    statChunkTotal := s.statChunkTotal + 1 }
  { s with statDataSize := (s.tUserAllocSize : Int).bmod (2 ^ 64) }

/-- `Malloc` -/
def malloc (req : Nat) : Nat × PtMalloc :=
  let (hHandle, s) := { s with tLastFreeChunkSize := 0 }.interMalloc req
  (hHandle, if hHandle ≠ invalidHandle then s.countMalloc hHandle else s)

/-- `Calloc` -/
def calloc (req : Nat) : Nat × PtMalloc :=
  let (hHandle, s) := s.malloc req
  (hHandle, if hHandle ≠ invalidHandle then
    { s with mem := store s.mem hHandle (List.replicate req 0) } else s)

/-! ### ReAlloc -/

/-- `inter_re_alloc`: the remainder is cut into chunks, which are freed. -/
def splitRemainder : Nat → PtMalloc → Nat → Nat → PtMalloc
  | 0, s, _, _ => s
  | fuel + 1, s, chunk, remainder =>
    let this :=
      if maxAllocSize < remainder then
        if minSize ≤ remainder - maxAllocSize then realSize maxAllocSize
        else realSize (remainder - minSize)
      else remainder
    let s := s.setTSize chunk (realSize this ||| 1)
    let next := chunk + realSize this
    let s := (s.setTPreSize next (realSize this)).setInuseBit next
    let s := s.setInuseBit (chunk + this)
    let s := (s.interFree (chunk + 8)).2.2
    if 0 < remainder - this then splitRemainder fuel s next (remainder - this) else s

/-- `inter_re_alloc`: the tags of the new chunk. -/
def retag (chunk newSize : Nat) (preInUse : Bool) (preSize : Nat) : PtMalloc :=
  let s := s.setTSize chunk (realSize newSize)
  let s := if preInUse then s.setInuseBit chunk else s
  s.setTPreSize chunk preSize

/-- `inter_re_alloc`: the chunk of `newSize` bytes at `chunk` becomes one of the asked
size. The tags of the chunk are written last. -/
def settle (chunk newSize size : Nat) (preInUse : Bool) (preSize : Nat) :
    Nat × PtMalloc :=
  let remainder := newSize - size
  -- a round takes at least one byte of a remainder
  if s.getMinChunkSize ≤ remainder then
    let s := splitRemainder (remainder + 1) s (chunk + size) remainder
    (chunk + 8, s.retag chunk size preInUse preSize)
  else
    let s := s.setInuseBit (chunk + realSize newSize)
    (chunk + 8, s.retag chunk newSize preInUse preSize)

/-- `inter_re_alloc`: a chunk that is too small. -/
def enlarge (chunk oldSize size req : Nat) : Nat × PtMalloc :=
  let next := chunk + oldSize
  let nextSize := chunkSize s.mem next
  let pre := tPreSize s.mem chunk
  if next = s.hTop ∧ s.hTop + (size - oldSize) + minSize < s.tSize then
    -- expand forward into top
    let s := s.setTSize chunk (realSize size ||| Mem.tSize s.mem chunk % 8)
    let top := s.hTop + (size - oldSize)
    let s := (s.setTPreSize top (realSize size)).setTSize top 1
    (chunk + 8, { s with hTop := top })
  else if next ≠ s.hTop ∧ !prevInuse s.mem (next + nextSize) ∧ size ≤ oldSize + nextSize then
    -- absorb the next chunk
    let s' := (s.unlinkBin (binIndex nextSize) next).2
    s'.settle chunk (oldSize + nextSize) size (prevInuse s.mem chunk) pre
  else if !prevInuse s.mem chunk ∧ size ≤ add32 oldSize pre then
    -- slide into the previous chunk
    let new := chunk - pre
    let s' := (s.unlinkBin (binIndex pre) new).2
    let s' := { s' with mem := move s'.mem (new + 8) (chunk + 8) (chunksize2memsize oldSize) }
    s'.settle new (oldSize + pre) size (prevInuse s.mem new) (tPreSize s.mem new)
  else
    -- alloc, copy and free
    let (new, s) := s.interMalloc req
    if new = invalidHandle then (invalidHandle, s.fail "realloc-out of memory")
    else
      let s := { s with mem := move s.mem new (chunk + 8) (chunksize2memsize oldSize) }
      (new, (s.interFree (chunk + 8)).2.2)

/-- `inter_re_alloc`: the new handle, `tOldMemSize` and the new state. -/
def interReAlloc (hHandle req : Nat) : Nat × Nat × PtMalloc :=
  if hHandle = invalidHandle then
    let (new, s) := s.interMalloc req
    (new, 0, s)
  else if req = 0 then
    let (_, oldMemSize, s) := s.interFree hHandle
    (invalidHandle, oldMemSize, s)
  else if requestOutOfRange req then (invalidHandle, 0, s)
  else if s.hTop ≤ hHandle ∨ hHandle ≤ s.hBottom then
    (invalidHandle, 0, s.fail "realloc-invalid handle")
  else
    let size := request2size req
    let chunk := hHandle - 8
    let oldSize := chunkSize s.mem chunk
    if s.hTop < chunk + oldSize ∨ chunk % 8 ≠ 0 then
      (invalidHandle, 0, s.fail s!"realloc-invalid handle: {chunk}, size: {oldSize}")
    else if oldSize < minSize then
      (invalidHandle, 0, s.fail s!"realloc-invalid old-size: {chunk}, size: {oldSize}")
    else
      let (checked, s) := s.checkInuseChunk chunk
      if checked ≠ 0 then
        (invalidHandle, 0, s.fail s!"realloc-invalid chunk: {chunk}, size: {oldSize}")
      else if size ≤ oldSize then
        let (new, s) := s.settle chunk oldSize size (prevInuse s.mem chunk) (tPreSize s.mem chunk)
        (new, oldSize, s)
      else
        let (new, s) := s.enlarge chunk oldSize size req
        (new, oldSize, s)

/-- `ReAlloc` -/
def reAlloc (hHandle req : Nat) : Nat × PtMalloc :=
  let (new, oldSize, s) := { s with tLastFreeChunkSize := 0 }.interReAlloc hHandle req
  (new,
    if new ≠ invalidHandle then
      let s := { s with
        tUserAllocSize := (s.tUserAllocSize + chunkSize s.mem (new - 8) + 2 ^ 64 - oldSize) % 2 ^ 64
        tUserAllocChunkCnt :=
          if hHandle = invalidHandle then (s.tUserAllocChunkCnt + 1) % 2 ^ 64
          else s.tUserAllocChunkCnt
        statChunkTotal :=
          if hHandle = invalidHandle then s.statChunkTotal + 1 else s.statChunkTotal }
      { s with statDataSize := (s.tUserAllocSize : Int).bmod (2 ^ 64) }
    else if req = 0 then s.countFree oldSize
    else s)

/-- `chunk_size`: the number of bytes the caller may use, 0 for an invalid handle. -/
def chunkSize (hHandle : Nat) : Nat :=
  if s.hTop ≤ hHandle ∨ hHandle ≤ s.hBottom then 0
  else if (s.checkInuseChunk (hHandle - 8)).1 ≠ 0 then 0
  else chunksize2memsize (Mem.chunkSize s.mem (hHandle - 8))

end PtMalloc

end Dtc.Mem
