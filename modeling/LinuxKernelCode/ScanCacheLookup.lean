import LinuxKernelCode.CacheIndexOrder
import LinuxKernelCode.ScanCacheEffects
import LinuxKernelCode.ScanCacheInodeOrder
import LinuxKernelCode.StepRuns

/-!
# Lookups in the scan tree

The scan tree is built with a comparison on two fields and searched with one on
three.  The first section shows that, on one device and below `2 ^ 63`, a
search is exact on a tree of any shape: at a record with the right inode and
another generation the descent goes on into a subtree, but finds nothing there.

The second section is about `insert_scan_cache_record` on arbitrary devices and
inode numbers, where the tree need not be in any order.  What `RB_INSERT`
reports as a duplicate is found again by the `RB_SEARCH` of
`find_and_update_scan_cache_record`, so its failure branch is dead.
-/

namespace LinuxKernelCode.ScanCache

open RedBlack
open Runs

/-! ## Searching with three fields -/

section Lookup

variable {domain : BitVec 32}

theorem ranked_of_inodeNumber
    {records : List ScanCacheRecord}
    (hincreasing : records.Pairwise fun first second =>
      first.inodeNumber.toNat < second.inodeNumber.toNat)
    (hdomain : ∀ record ∈ records,
      InDomain domain record.devId record.inodeNumber) :
    Ranked ScanCacheRecord.rank records := by
  apply hincreasing.imp_of_mem
  intro first second hfirst hsecond hlt
  unfold ScanCacheRecord.rank keyRank
  rw [(hdomain first hfirst).1, (hdomain second hsecond).1]
  omega

theorem findScanCacheRecord_exact
    (state : CacheState) (key : ScanCacheRecordCompare)
    (hincreasing : state.scan.records.Pairwise fun first second =>
      first.inodeNumber.toNat < second.inodeNumber.toNat)
    (hdomain : ∀ record ∈ state.scan.records,
      InDomain domain record.devId record.inodeNumber)
    (hkey : InDomain domain key.devId key.inodeNumber) :
    (∀ record, findScanCacheRecord key state = some record ↔
        record ∈ state.scan.records ∧ record.devId = key.devId ∧
          record.inodeNumber = key.inodeNumber ∧
          record.inodeGeneration = key.inodeGeneration) ∧
      ((∃ record ∈ state.scan.records, record.devId = key.devId ∧
          record.inodeNumber = key.inodeNumber ∧
          record.inodeGeneration ≠ key.inodeGeneration) →
        findScanCacheRecord key state = none) := by
  have hranked := ranked_of_inodeNumber hincreasing hdomain
  have hagree := find_descentAgrees key (keyCompare_descentAgrees hkey hdomain)
  have hzero : ∀ record ∈ state.scan.tree.inorder,
      scanCacheFindCompareTable key record = 0 →
        record.rank = keyRank key.devId key.inodeNumber := by
    intro record _ hequal
    obtain ⟨hdev, hinode, _⟩ :=
      (scanCacheFindCompareTable_eq_zero_iff key record).mp hequal
    exact keyRank_inj.mpr ⟨hdev, hinode⟩
  have hexact : ∀ record, findScanCacheRecord key state = some record ↔
      record ∈ state.scan.records ∧ record.devId = key.devId ∧
        record.inodeNumber = key.inodeNumber ∧
        record.inodeGeneration = key.inodeGeneration := by
    intro record
    unfold findScanCacheRecord
    rw [Index.rbSearch_none_eq, descendFind_iff hranked hagree hzero,
      scanCacheFindCompareTable_eq_zero_iff]
    rfl
  refine ⟨hexact, ?_⟩
  rintro ⟨record, hrecord, hdev, hinode, hgeneration⟩
  rw [Option.eq_none_iff_forall_ne_some]
  intro other hother
  obtain ⟨hmem, hdevOther, hinodeOther, hgenerationOther⟩ := (hexact other).mp hother
  have hrank : other.rank = record.rank :=
    keyRank_inj.mpr ⟨hdevOther.trans hdev.symm, hinodeOther.trans hinode.symm⟩
  have hsame := hranked.eq_of_rank_eq hmem hrecord hrank
  exact hgeneration (hsame ▸ hgenerationOther)

/-- An inode that is cached with generation zero. -/
theorem findScanCacheRecord_exact_generation :
    let scan : Index ScanCacheRecord :=
      ⟨.node .black (.node .red .nil (inodeRecord 2) .nil) (inodeRecord 5)
        (.node .red .nil (inodeRecord 9) .nil), ∅, 0, []⟩
    findScanCacheRecord ⟨1, 5, 0⟩ ⟨scan, .empty⟩ = some (inodeRecord 5) ∧
      findScanCacheRecord ⟨1, 5, 4⟩ ⟨scan, .empty⟩ = none := by
  intro scan
  have hincreasing : scan.records.Pairwise fun first second =>
      first.inodeNumber.toNat < second.inodeNumber.toNat := by
    decide
  have hdomain : ∀ record ∈ scan.records,
      InDomain 1 record.devId record.inodeNumber := by
    decide
  have hkey : InDomain 1 1 5 := by
    decide
  have hexact := fun generation =>
    findScanCacheRecord_exact ⟨scan, .empty⟩ ⟨1, 5, generation⟩
      hincreasing hdomain hkey
  constructor
  · exact ((hexact 0).1 (inodeRecord 5)).mpr (by decide)
  · exact (hexact 4).2 ⟨inodeRecord 5, by decide⟩

end Lookup

/-! ## Duplicates are found again -/

/-- The call of `find_and_update_scan_cache_record` that an insertion makes:
the new record and the state in which it is passed, or `none` when
`RB_INSERT` linked the record or there was no record to link. -/
def updateCall (rb : Rbtree) (filp : FileInfo) (env : InsertEnv)
    (state : CacheState) : Option (ScanCacheRecord × CacheState) :=
  match state.scan.kmemCacheAlloc env.scanAlloc with
  | (none, _) => none
  | (some id, scan) =>
      let record := filp.record id env.now
      let inserted := scan.rbInsert rb scanCacheInsertCompareTable record
      if inserted.1 ≠ 0 then
        some (record, ({ state with scan := inserted.2 } : CacheState).readScan record)
      else none

theorem updateCall_eq_some
    {rb : Rbtree} {filp : FileInfo} {env : InsertEnv}
    {state passed : CacheState} {new : ScanCacheRecord}
    (hcall : updateCall rb filp env state = some (new, passed)) :
    env.scanAlloc = true ∧ new = filp.record state.scan.next env.now ∧
      (state.scan.allocated.rbInsert rb scanCacheInsertCompareTable new).1 = -1 ∧
      passed.scan.tree = state.scan.tree ∧
      insertScanCacheRecord rb filp env state =
        findAndUpdateScanCacheRecord rb new env.lruAlloc passed := by
  cases halloc : env.scanAlloc with
  | false => simp [updateCall, halloc] at hcall
  | true =>
      unfold updateCall at hcall
      rw [halloc] at hcall
      change (if (state.scan.allocated.rbInsert rb scanCacheInsertCompareTable
          (filp.record state.scan.next env.now)).1 ≠ 0 then some _ else none) =
        some (new, passed) at hcall
      split_ifs at hcall with hret
      obtain ⟨rfl, rfl⟩ := Prod.mk.inj (Option.some.inj hcall)
      have hinsert := Index.rbInsert_of_ne_zero hret
      refine ⟨rfl, rfl, ?_, ?_, ?_⟩
      · rw [hinsert]
      · change ((state.scan.allocated.rbInsert rb scanCacheInsertCompareTable
          (filp.record state.scan.next env.now)).2.read _).tree = _
        rw [Index.tree_read, hinsert]
        rfl
      · rw [insertScanCacheRecord_of_alloc rb state filp env halloc]
        dsimp only
        rw [if_pos hret]
        rfl

/-- The branch of `find_and_update_scan_cache_record` for a record that was
found: the new record takes its place, its LRU record is renewed, and the old
record is released.  The new record is taken out again if the LRU record could
not be renewed. -/
def replaceBranch
    (rb : Rbtree) (old new : ScanCacheRecord) (lruAlloc : Bool)
    (state : CacheState) : ℤ × CacheState :=
  let replaced : CacheState :=
    { state with scan := state.scan.rbReplace old new }
  let updated := findAndUpdateLruCacheRecord rb old new lruAlloc replaced
  let kept :=
    if updated.1 = 0 then updated.2
    else removeScanCacheRecord rb new updated.2
  (updated.1, { kept with scan := kept.scan.kmemCacheFree old })

theorem findAndUpdateScanCacheRecord_of_found
    (rb : Rbtree) {old new : ScanCacheRecord} {state : CacheState}
    (hfound : state.scan.rbSearch scanCacheInsertCompareTable new none =
      some old) (lruAlloc : Bool) :
    findAndUpdateScanCacheRecord rb new lruAlloc state =
      replaceBranch rb old new lruAlloc state := by
  simp only [findAndUpdateScanCacheRecord, hfound, replaceBranch, ne_eq,
    ite_not]

/-- The `RB_SEARCH` of every update made by an insertion finds a record of the
same device and inode, and the update replaces that record; it never takes the
branch that prints "Fail to search old record". -/
def UpdateFinds (rb : Rbtree) (state : CacheState) : Call → Prop
  | .insert filp env => ∀ new passed,
      updateCall rb filp env state = some (new, passed) →
        insertScanCacheRecord rb filp env state =
            findAndUpdateScanCacheRecord rb new env.lruAlloc passed ∧
          ∃ old ∈ state.scan.records,
            passed.scan.rbSearch scanCacheInsertCompareTable new none = some old ∧
            old.devId = new.devId ∧ old.inodeNumber = new.inodeNumber ∧
            findAndUpdateScanCacheRecord rb new env.lruAlloc passed =
              replaceBranch rb old new env.lruAlloc passed
  | _ => True

theorem updateFinds (rb : Rbtree) (state : CacheState) (call : Call) :
    UpdateFinds rb state call := by
  cases call with
  | insert filp env =>
      intro new passed hcall
      obtain ⟨_, _, hdup, htree, hresult⟩ := updateCall_eq_some hcall
      obtain ⟨position, _, _, hsearch, hzero, _⟩ :=
        Index.rbInsert_stops hdup
      have hfind : descendFind (scanCacheInsertCompareTable new) state.scan.tree =
          some position.value := descendFind_of_searchLoop hsearch
      have hfields := (keyCompare_eq_zero_iff new.devId new.inodeNumber
        position.value).mp hzero
      have hfound : passed.scan.rbSearch scanCacheInsertCompareTable new none =
          some position.value := by
        rw [Index.rbSearch_none_eq, htree]
        exact hfind
      exact ⟨hresult, position.value, (descendFind_eq_some hfind).1, hfound,
        hfields.1, hfields.2,
        findAndUpdateScanCacheRecord_of_found rb hfound env.lruAlloc⟩
  | findRemove filp => trivial
  | removeCacheEntry count => trivial
  | purgeScanCache => trivial
  | purgeCache => trivial

/-- A duplicate on insertion is found again, node for node and whatever the
comparison; in every run the update of an insertion therefore replaces a record
of the same device and inode. -/
theorem duplicate_found_again :
    (∀ (rb : Rbtree) (cmp : ScanCacheRecord → ScanCacheRecord → ℤ)
        (new : ScanCacheRecord) (index : Index ScanCacheRecord),
      (index.rbInsert rb cmp new).1 = -1 →
        ∃ position : Position ScanCacheRecord,
          position.tree = index.tree ∧
          insertLoop (cmp new) index.tree .root = .error position ∧
          searchLoop (cmp new) index.tree .root = some position ∧
          index.rbSearch cmp new none = some position.value) ∧
      ∀ (rb : Rbtree) (calls : List Call),
        Guarded (step rb) (UpdateFinds rb) .empty calls := by
  constructor
  · intro rb cmp new index hdup
    obtain ⟨position, htree, hinsert, hsearch, _, hresult⟩ :=
      Index.rbInsert_stops hdup
    exact ⟨position, htree, hinsert, hsearch, hresult none⟩
  · intro rb calls
    have hall : Guarded (step rb) (fun _ _ => True) .empty calls :=
      guarded_of_forall fun _ _ => trivial
    exact hall.mono fun state call _ => updateFinds rb state call

/-- The second insertion of an inode, with a new generation, is an update. -/
theorem duplicate_found_again_new_generation :
    let now : Timespec := ⟨7, 1, by decide, by decide⟩
    let first : Call := .insert ⟨1, 5, 0⟩ ⟨true, now, true⟩
    let state := step linuxRbtree .empty first
    (∃ position : Position ScanCacheRecord,
        position.tree = state.scan.tree ∧
        state.scan.rbSearch scanCacheInsertCompareTable (inodeRecord 5) none =
          some position.value) ∧
      ∃ new passed, updateCall linuxRbtree ⟨1, 5, 1⟩ ⟨true, now, true⟩ state =
          some (new, passed) ∧
        ∃ old ∈ state.scan.records,
          passed.scan.rbSearch scanCacheInsertCompareTable new none = some old ∧
          old.devId = new.devId ∧ old.inodeNumber = new.inodeNumber ∧
          findAndUpdateScanCacheRecord linuxRbtree new true passed =
            replaceBranch linuxRbtree old new true passed := by
  intro now first state
  constructor
  · obtain ⟨position, htree, _, _, hsearch⟩ :=
      duplicate_found_again.1 linuxRbtree scanCacheInsertCompareTable
        (inodeRecord 5) state.scan (by decide)
    exact ⟨position, htree, hsearch⟩
  · have hguarded := duplicate_found_again.2 linuxRbtree
      [first, .insert ⟨1, 5, 1⟩ ⟨true, now, true⟩]
    have hsome : (updateCall linuxRbtree ⟨1, 5, 1⟩ ⟨true, now, true⟩
        state).isSome = true := by
      decide
    obtain ⟨⟨new, passed⟩, hcall⟩ := Option.isSome_iff_exists.mp hsome
    exact ⟨new, passed, hcall, (hguarded.2.1 new passed hcall).2⟩

end LinuxKernelCode.ScanCache
