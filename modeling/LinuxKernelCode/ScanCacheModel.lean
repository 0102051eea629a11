import LinuxKernelCode.CacheIndex

/-!
# The scan cache

This module embeds `cache.c`: the records, the four comparison tables and
every operation on the two trees, in the order of the source.  A record
pointer is the record itself, since the fields are written once, before the
record is linked; its `id` is the slab object.  Statements that read a field
through a pointer appear as `read`, because such a read of a freed record is a
fault.

What the kernel decides is an argument: whether a slab allocation succeeds,
and what `getnstimeofday` returns.  The rebalancing of `linux/rbtree.h` is the
parameter `rb`.
-/

namespace LinuxKernelCode.ScanCache

open RedBlack

/-- `struct timespec` as `getnstimeofday` fills it: a nonnegative second count
and a normalised nanosecond count. -/
structure Timespec where
  tvSec : BitVec 64
  tvNsec : BitVec 64
  secLt : tvSec.toNat < 2 ^ 63
  nsecLt : tvNsec.toNat < 10 ^ 9
  deriving DecidableEq

structure FileInfo where
  devId : BitVec 32
  inodeNumber : BitVec 64
  inodeGeneration : BitVec 32
  deriving DecidableEq, Repr

structure ScanCacheRecord where
  id : ℕ
  devId : BitVec 32
  inodeNumber : BitVec 64
  inodeGeneration : BitVec 32
  timeStamp : Timespec
  deriving DecidableEq

structure ScanCacheRecordCompare where
  devId : BitVec 32
  inodeNumber : BitVec 64
  inodeGeneration : BitVec 32
  deriving DecidableEq, Repr

structure LruCacheRecord where
  id : ℕ
  timeStamp : Timespec
  devId : BitVec 32
  inodeNumber : BitVec 64
  inodeGeneration : BitVec 32
  deriving DecidableEq

structure LruCacheRecordCompare where
  timeStamp : Timespec
  deriving DecidableEq

def FileInfo.key (filp : FileInfo) : ScanCacheRecordCompare :=
  ⟨filp.devId, filp.inodeNumber, filp.inodeGeneration⟩

def LruCacheRecord.key (record : LruCacheRecord) : ScanCacheRecordCompare :=
  ⟨record.devId, record.inodeNumber, record.inodeGeneration⟩

instance : SlabRecord ScanCacheRecord := ⟨ScanCacheRecord.id⟩

instance : SlabRecord LruCacheRecord := ⟨LruCacheRecord.id⟩

/-! ## The comparison tables

Every table computes one difference after the other into an `int64_t` and is
decided by the first that is not zero.  A `dev_t` or `__u32` difference is
taken in 32 unsigned bits before it is widened; an `unsigned long` or `time_t`
difference is taken in 64 bits and reread as signed. -/

def difference32 (first second : BitVec 32) : ℤ :=
  ((first - second).setWidth 64).toInt

def difference64 (first second : BitVec 64) : ℤ :=
  (first - second).toInt

def compareLevels : List ℤ → ℤ
  | [] => 0
  | difference :: levels =>
      if difference > 0 then 1
      else if difference < 0 then -1
      else compareLevels levels

def scanCacheInsertCompareTable (first second : ScanCacheRecord) : ℤ :=
  compareLevels
    [difference32 first.devId second.devId,
      difference64 first.inodeNumber second.inodeNumber]

def scanCacheFindCompareTable
    (key : ScanCacheRecordCompare) (record : ScanCacheRecord) : ℤ :=
  compareLevels
    [difference32 key.devId record.devId,
      difference64 key.inodeNumber record.inodeNumber,
      difference32 key.inodeGeneration record.inodeGeneration]

def lruCacheInsertCompareTable (first second : LruCacheRecord) : ℤ :=
  compareLevels
    [difference64 first.timeStamp.tvSec second.timeStamp.tvSec,
      difference64 first.timeStamp.tvNsec second.timeStamp.tvNsec]

def lruCacheFindCompareTable
    (key : LruCacheRecordCompare) (record : LruCacheRecord) : ℤ :=
  compareLevels
    [difference64 key.timeStamp.tvSec record.timeStamp.tvSec,
      difference64 key.timeStamp.tvNsec record.timeStamp.tvNsec]

/-! ## State -/

/-- `scan_cache_rb_tree` and `lru_cache_rb_tree` with their slabs. -/
structure CacheState where
  scan : Index ScanCacheRecord
  lru : Index LruCacheRecord
  deriving DecidableEq

def CacheState.empty : CacheState := ⟨.empty, .empty⟩

/-- What the kernel answers during one insertion: the two slab allocations and
the clock. -/
structure InsertEnv where
  scanAlloc : Bool
  now : Timespec
  lruAlloc : Bool
  deriving DecidableEq

def ENOMEM : ℤ := 12

def CacheState.readScan (record : ScanCacheRecord) (state : CacheState) :
    CacheState :=
  { state with scan := state.scan.read record }

def CacheState.readLru (record : LruCacheRecord) (state : CacheState) :
    CacheState :=
  { state with lru := state.lru.read record }

/-! ## Removal of one record -/

section Operations

variable (rb : Rbtree)

def removeLruCacheRecord (record : LruCacheRecord) (state : CacheState) :
    CacheState :=
  { state with lru := (state.lru.rbRemove rb record).kmemCacheFree record }

def removeScanCacheRecord (record : ScanCacheRecord) (state : CacheState) :
    CacheState :=
  { state with scan := (state.scan.rbRemove rb record).kmemCacheFree record }

/-! ## Insertion -/

def insertLruCacheRecord
    (timeStamp : Timespec) (devId : BitVec 32) (inodeNumber : BitVec 64)
    (inodeGeneration : BitVec 32) (lruAlloc : Bool) (state : CacheState) :
    ℤ × CacheState :=
  match state.lru.kmemCacheAlloc lruAlloc with
  | (none, lru) => (-1, { state with lru := lru })
  | (some id, lru) =>
      let record : LruCacheRecord :=
        ⟨id, timeStamp, devId, inodeNumber, inodeGeneration⟩
      let inserted := lru.rbInsert rb lruCacheInsertCompareTable record
      (inserted.1, { state with lru := inserted.2 })

def findAndUpdateLruCacheRecord
    (old new : ScanCacheRecord) (lruAlloc : Bool) (state : CacheState) :
    ℤ × CacheState :=
  let state := state.readScan old
  match state.lru.rbSearch lruCacheFindCompareTable ⟨old.timeStamp⟩ none with
  | none => (-1, state)
  | some record =>
      let state := removeLruCacheRecord rb record state
      let state := state.readScan new
      insertLruCacheRecord rb new.timeStamp new.devId new.inodeNumber
        new.inodeGeneration lruAlloc state

def findAndUpdateScanCacheRecord
    (new : ScanCacheRecord) (lruAlloc : Bool) (state : CacheState) :
    ℤ × CacheState :=
  match state.scan.rbSearch scanCacheInsertCompareTable new none with
  | some old =>
      let state := { state with scan := state.scan.rbReplace old new }
      let updated := findAndUpdateLruCacheRecord rb old new lruAlloc state
      let state :=
        if updated.1 ≠ 0 then removeScanCacheRecord rb new updated.2
        else updated.2
      (updated.1, { state with scan := state.scan.kmemCacheFree old })
  | none => (-1, { state with scan := state.scan.kmemCacheFree new })

def insertScanCacheRecord
    (filp : FileInfo) (env : InsertEnv) (state : CacheState) :
    ℤ × CacheState :=
  match state.scan.kmemCacheAlloc env.scanAlloc with
  | (none, scan) => (-ENOMEM, { state with scan := scan })
  | (some id, scan) =>
      let record : ScanCacheRecord :=
        ⟨id, filp.devId, filp.inodeNumber, filp.inodeGeneration, env.now⟩
      let inserted := scan.rbInsert rb scanCacheInsertCompareTable record
      let state := { state with scan := inserted.2 }
      if inserted.1 ≠ 0 then
        findAndUpdateScanCacheRecord rb record env.lruAlloc
          (state.readScan record)
      else
        let stored := insertLruCacheRecord rb record.timeStamp record.devId
          record.inodeNumber record.inodeGeneration env.lruAlloc
          (state.readScan record)
        if stored.1 ≠ 0 then
          (stored.1, removeScanCacheRecord rb record stored.2)
        else stored

/-! ## Lookup and removal by key -/

def findScanCacheRecord (key : ScanCacheRecordCompare) (state : CacheState) :
    Option ScanCacheRecord :=
  state.scan.rbSearch scanCacheFindCompareTable key none

def findLruCacheRecord (key : LruCacheRecordCompare) (state : CacheState) :
    Option LruCacheRecord :=
  state.lru.rbSearch lruCacheFindCompareTable key none

def findRemoveLruCacheRecord (timeStamp : Timespec) (state : CacheState) :
    Bool × CacheState :=
  match findLruCacheRecord ⟨timeStamp⟩ state with
  | some record => (true, removeLruCacheRecord rb record state)
  | none => (false, state)

def findRemoveScanCacheRecord (filp : FileInfo) (state : CacheState) :
    Bool × CacheState :=
  match findScanCacheRecord filp.key state with
  | some record =>
      let state := (state.readScan record).readScan record
      let removed := findRemoveLruCacheRecord rb record.timeStamp state
      (true, removeScanCacheRecord rb record removed.2)
  | none => (false, state)

/-! ## Purging -/

def purgeScanLoop : ℕ → CacheState → CacheState
  | 0, state => state
  | fuel + 1, state =>
      match state.scan.rbFirst with
      | none => state
      | some record =>
          purgeScanLoop fuel
            (removeScanCacheRecord rb record (state.readScan record))

def purgeLruLoop : ℕ → CacheState → CacheState
  | 0, state => state
  | fuel + 1, state =>
      match state.lru.rbFirst with
      | none => state
      | some record =>
          purgeLruLoop fuel
            (removeLruCacheRecord rb record (state.readLru record))

def purgeScanCache (state : CacheState) : CacheState :=
  purgeScanLoop rb state.scan.records.length state

def purgeLruCache (state : CacheState) : CacheState :=
  purgeLruLoop rb state.lru.records.length state

def purgeCache (state : CacheState) : CacheState :=
  purgeLruCache rb (purgeScanCache rb state)

/-! ## Eviction -/

/-- The loop of `remove_cache_entry`; the argument is what is missing from
`remove_count` to `count`. -/
def removeCacheLoop : ℕ → CacheState → CacheState
  | 0, state => state
  | missing + 1, state =>
      match state.lru.rbFirst with
      | none => state
      | some record =>
          let state := (CacheState.readLru record)^[4] state
          match findScanCacheRecord record.key state with
          | none => state
          | some scanRecord =>
              removeCacheLoop missing
                (removeScanCacheRecord rb scanRecord
                  (removeLruCacheRecord rb record state))

def removeCacheEntry (count : ℤ) (state : CacheState) : CacheState :=
  if count ≤ 0 then state else removeCacheLoop rb count.toNat state

/-- `exit_scan_cache` up to the point where the slabs are destroyed. -/
def exitScanCache (state : CacheState) : CacheState :=
  purgeCache rb (removeCacheEntry rb 2 state)

/-! ## Calls -/

inductive Call
  | insert (filp : FileInfo) (env : InsertEnv)
  | findRemove (filp : FileInfo)
  | removeCacheEntry (count : ℤ)
  | purgeScanCache
  | purgeCache
  deriving DecidableEq

inductive Reply
  | code (ret : ℤ)
  | found (ret : Bool)
  | done
  deriving DecidableEq, Repr

def execute (state : CacheState) : Call → Reply × CacheState
  | .insert filp env =>
      let result := insertScanCacheRecord rb filp env state
      (.code result.1, result.2)
  | .findRemove filp =>
      let result := findRemoveScanCacheRecord rb filp state
      (.found result.1, result.2)
  | .removeCacheEntry count => (.done, removeCacheEntry rb count state)
  | .purgeScanCache => (.done, purgeScanCache rb state)
  | .purgeCache => (.done, purgeCache rb state)

def step (state : CacheState) (call : Call) : CacheState :=
  (execute rb state call).2

end Operations

end LinuxKernelCode.ScanCache
