import Mathlib.Logic.Function.Iterate
import LinuxKernelCode.RecordOwnership
import LinuxKernelCode.ScanCacheModel

/-!
# Interleaved calls

Several calls of `insert_scan_cache_record`, `find_remove_scan_cache_record`
and `remove_cache_entry` run at once.  Every section under one of the two spin
locks is one step, and so is every statement outside of them; the assignments
to a record that its call has not linked yet are taken together.  A program
counter holds the local variables that the rest of the call reads.

A world is the cache, the program counter of every call, and for each record
the call that erased it from its tree or freed it.
-/

namespace LinuxKernelCode.ScanCache

open RedBlack Ownership

/-! ## Atomic steps -/

def Index.rbEmptyRoot {ρ : Type} (index : Index ρ) : Bool :=
  match index.tree with
  | .nil => true
  | .node _ _ _ _ => false

/-- What one step of a call does to the shared state. -/
inductive Action
  | assign
  | kmemCacheAllocScan (succeeds : Bool)
  | kmemCacheAllocLru (succeeds : Bool)
  | kmemCacheFreeScan (record : ScanCacheRecord)
  | kmemCacheFreeLru (entry : LruCacheRecord)
  | readScan (record : ScanCacheRecord)
  | readLru (entry : LruCacheRecord)
  | rbInsertScan (record : ScanCacheRecord)
  | rbInsertLru (entry : LruCacheRecord)
  | rbSearchScanRecord (new : ScanCacheRecord)
  | rbSearchScanKey (key : ScanCacheRecordCompare)
  | rbSearchLru (key : LruCacheRecordCompare)
  | rbEmptyRootLru
  | rbFirstLru
  | rbReplaceScan (old new : ScanCacheRecord)
  | rbRemoveScan (record : ScanCacheRecord)
  | rbRemoveLru (entry : LruCacheRecord)
  deriving DecidableEq

/-- What the call learns from a step. -/
@[reducible] def Action.Outcome : Action → Type
  | .kmemCacheAllocScan _ => Option ℕ
  | .kmemCacheAllocLru _ => Option ℕ
  | .rbInsertScan _ => ℤ
  | .rbInsertLru _ => ℤ
  | .rbSearchScanRecord _ => Option ScanCacheRecord
  | .rbSearchScanKey _ => Option ScanCacheRecord
  | .rbSearchLru _ => Option LruCacheRecord
  | .rbEmptyRootLru => Bool
  | .rbFirstLru => Option LruCacheRecord
  | _ => Unit

def Action.perform (rb : Rbtree) :
    (action : Action) → CacheState → action.Outcome × CacheState
  | .assign, state => ((), state)
  | .kmemCacheAllocScan succeeds, state =>
      let result := state.scan.kmemCacheAlloc succeeds
      (result.1, { state with scan := result.2 })
  | .kmemCacheAllocLru succeeds, state =>
      let result := state.lru.kmemCacheAlloc succeeds
      (result.1, { state with lru := result.2 })
  | .kmemCacheFreeScan record, state =>
      ((), { state with scan := state.scan.kmemCacheFree record })
  | .kmemCacheFreeLru entry, state =>
      ((), { state with lru := state.lru.kmemCacheFree entry })
  | .readScan record, state => ((), state.readScan record)
  | .readLru entry, state => ((), state.readLru entry)
  | .rbInsertScan record, state =>
      let result := state.scan.rbInsert rb scanCacheInsertCompareTable record
      (result.1, { state with scan := result.2 })
  | .rbInsertLru entry, state =>
      let result := state.lru.rbInsert rb lruCacheInsertCompareTable entry
      (result.1, { state with lru := result.2 })
  | .rbSearchScanRecord new, state =>
      (state.scan.rbSearch scanCacheInsertCompareTable new none, state)
  | .rbSearchScanKey key, state => (findScanCacheRecord key state, state)
  | .rbSearchLru key, state => (findLruCacheRecord key state, state)
  | .rbEmptyRootLru, state => (state.lru.rbEmptyRoot, state)
  | .rbFirstLru, state => (state.lru.rbFirst, state)
  | .rbReplaceScan old new, state =>
      ((), { state with scan := state.scan.rbReplace old new })
  | .rbRemoveScan record, state =>
      ((), { state with scan := state.scan.rbRemove rb record })
  | .rbRemoveLru entry, state =>
      ((), { state with lru := state.lru.rbRemove rb entry })

/-! ## Program counters -/

/-- The insertion that `insert_lru_cache_record` works for: one that linked a
new scan record, or one that replaced an old scan record by a new one. -/
inductive Caller
  | fresh (record : ScanCacheRecord)
  | refresh (old new : ScanCacheRecord)
  deriving DecidableEq

/-- The scan record that the insertion has put into the tree. -/
def Caller.linked : Caller → ScanCacheRecord
  | .fresh record => record
  | .refresh _ new => new

/-- Where a call stands.  The constructors follow the statements of the
source, function by function. -/
inductive Pc
  | insertAlloc (filp : FileInfo) (env : InsertEnv)
  | insertFill (filp : FileInfo) (env : InsertEnv) (id : ℕ)
  | insertLink (record : ScanCacheRecord) (lruAlloc : Bool)
  | insertPresent (record : ScanCacheRecord) (lruAlloc : Bool)
  | insertArguments (record : ScanCacheRecord) (lruAlloc : Bool)
  | updateSearch (new : ScanCacheRecord) (lruAlloc : Bool)
  | updateReplace (old new : ScanCacheRecord) (lruAlloc : Bool)
  | updateKey (old new : ScanCacheRecord) (lruAlloc : Bool)
  | updateLruSearch (old new : ScanCacheRecord) (lruAlloc : Bool)
  | updateLruRemove (old new : ScanCacheRecord) (entry : LruCacheRecord)
      (lruAlloc : Bool)
  | updateLruFree (old new : ScanCacheRecord) (entry : LruCacheRecord)
      (lruAlloc : Bool)
  | updateArguments (old new : ScanCacheRecord) (lruAlloc : Bool)
  | updateFree (new : ScanCacheRecord)
  | lruCacheAlloc (caller : Caller) (lruAlloc : Bool)
  | lruFill (caller : Caller) (id : ℕ)
  | lruLink (caller : Caller) (entry : LruCacheRecord)
  | undoRemove (caller : Caller) (ret : ℤ)
  | undoFree (caller : Caller) (ret : ℤ)
  | updateFreeOld (old : ScanCacheRecord) (ret : ℤ)
  | findSearch (filp : FileInfo)
  | findPrint (record : ScanCacheRecord)
  | findKey (record : ScanCacheRecord)
  | findLruSearch (record : ScanCacheRecord)
  | findLruRemove (record : ScanCacheRecord) (entry : LruCacheRecord)
  | findLruFree (record : ScanCacheRecord) (entry : LruCacheRecord)
  | findRemove (record : ScanCacheRecord)
  | findFree (record : ScanCacheRecord)
  | evictEnter (count : ℤ)
  | evictTest (missing : ℕ)
  | evictFirst (missing : ℕ)
  | evictPrint (entry : LruCacheRecord) (missing : ℕ)
  | evictDevId (entry : LruCacheRecord) (missing : ℕ)
  | evictInodeNumber (entry : LruCacheRecord) (missing : ℕ)
  | evictInodeGeneration (entry : LruCacheRecord) (missing : ℕ)
  | evictSearch (entry : LruCacheRecord) (missing : ℕ)
  | evictLruRemove (entry : LruCacheRecord) (record : ScanCacheRecord)
      (missing : ℕ)
  | evictLruFree (entry : LruCacheRecord) (record : ScanCacheRecord)
      (missing : ℕ)
  | evictRemove (record : ScanCacheRecord) (missing : ℕ)
  | evictFree (record : ScanCacheRecord) (missing : ℕ)
  | returned (reply : Reply)
  deriving DecidableEq

/-- The action of the next step. -/
@[reducible] def Pc.action : Pc → Action
  | .insertAlloc _ env => .kmemCacheAllocScan env.scanAlloc
  | .insertFill _ _ _ => .assign
  | .insertLink record _ => .rbInsertScan record
  | .insertPresent record _ => .readScan record
  | .insertArguments record _ => .readScan record
  | .updateSearch new _ => .rbSearchScanRecord new
  | .updateReplace old new _ => .rbReplaceScan old new
  | .updateKey old _ _ => .readScan old
  | .updateLruSearch old _ _ => .rbSearchLru ⟨old.timeStamp⟩
  | .updateLruRemove _ _ entry _ => .rbRemoveLru entry
  | .updateLruFree _ _ entry _ => .kmemCacheFreeLru entry
  | .updateArguments _ new _ => .readScan new
  | .updateFree new => .kmemCacheFreeScan new
  | .lruCacheAlloc _ lruAlloc => .kmemCacheAllocLru lruAlloc
  | .lruFill _ _ => .assign
  | .lruLink _ entry => .rbInsertLru entry
  | .undoRemove caller _ => .rbRemoveScan caller.linked
  | .undoFree caller _ => .kmemCacheFreeScan caller.linked
  | .updateFreeOld old _ => .kmemCacheFreeScan old
  | .findSearch filp => .rbSearchScanKey filp.key
  | .findPrint record => .readScan record
  | .findKey record => .readScan record
  | .findLruSearch record => .rbSearchLru ⟨record.timeStamp⟩
  | .findLruRemove _ entry => .rbRemoveLru entry
  | .findLruFree _ entry => .kmemCacheFreeLru entry
  | .findRemove record => .rbRemoveScan record
  | .findFree record => .kmemCacheFreeScan record
  | .evictEnter _ => .assign
  | .evictTest _ => .rbEmptyRootLru
  | .evictFirst _ => .rbFirstLru
  | .evictPrint entry _ => .readLru entry
  | .evictDevId entry _ => .readLru entry
  | .evictInodeNumber entry _ => .readLru entry
  | .evictInodeGeneration entry _ => .readLru entry
  | .evictSearch entry _ => .rbSearchScanKey entry.key
  | .evictLruRemove entry _ _ => .rbRemoveLru entry
  | .evictLruFree entry _ _ => .kmemCacheFreeLru entry
  | .evictRemove record _ => .rbRemoveScan record
  | .evictFree record _ => .kmemCacheFreeScan record
  | .returned _ => .assign

/-- After `insert_lru_cache_record` and the rollback that may follow it, an
update frees the record it has replaced. -/
def Caller.finish (ret : ℤ) : Caller → Pc
  | .fresh _ => .returned (.code ret)
  | .refresh old _ => .updateFreeOld old ret

/-- What follows the return of `insert_lru_cache_record`. -/
def Caller.resume (caller : Caller) (ret : ℤ) : Pc :=
  if ret ≠ 0 then .undoRemove caller ret else caller.finish ret

def Caller.entry (caller : Caller) (id : ℕ) : LruCacheRecord :=
  ⟨id, caller.linked.timeStamp, caller.linked.devId, caller.linked.inodeNumber,
    caller.linked.inodeGeneration⟩

def Pc.next : (pc : Pc) → pc.action.Outcome → Pc
  | .insertAlloc filp env, outcome =>
      match outcome with
      | none => .returned (.code (-ENOMEM))
      | some id => .insertFill filp env id
  | .insertFill filp env id, _ =>
      .insertLink
        ⟨id, filp.devId, filp.inodeNumber, filp.inodeGeneration, env.now⟩
        env.lruAlloc
  | .insertLink record lruAlloc, ret =>
      if ret ≠ 0 then .insertPresent record lruAlloc
      else .insertArguments record lruAlloc
  | .insertPresent record lruAlloc, _ => .updateSearch record lruAlloc
  | .insertArguments record lruAlloc, _ =>
      .lruCacheAlloc (.fresh record) lruAlloc
  | .updateSearch new lruAlloc, outcome =>
      match outcome with
      | some old => .updateReplace old new lruAlloc
      | none => .updateFree new
  | .updateReplace old new lruAlloc, _ => .updateKey old new lruAlloc
  | .updateKey old new lruAlloc, _ => .updateLruSearch old new lruAlloc
  | .updateLruSearch old new lruAlloc, outcome =>
      match outcome with
      | some entry => .updateLruRemove old new entry lruAlloc
      | none => .undoRemove (.refresh old new) (-1)
  | .updateLruRemove old new entry lruAlloc, _ =>
      .updateLruFree old new entry lruAlloc
  | .updateLruFree old new _ lruAlloc, _ => .updateArguments old new lruAlloc
  | .updateArguments old new lruAlloc, _ =>
      .lruCacheAlloc (.refresh old new) lruAlloc
  | .updateFree _, _ => .returned (.code (-1))
  | .lruCacheAlloc caller _, outcome =>
      match outcome with
      | none => caller.resume (-1)
      | some id => .lruFill caller id
  | .lruFill caller id, _ => .lruLink caller (caller.entry id)
  | .lruLink caller _, ret => caller.resume ret
  | .undoRemove caller ret, _ => .undoFree caller ret
  | .undoFree caller ret, _ => caller.finish ret
  | .updateFreeOld _ ret, _ => .returned (.code ret)
  | .findSearch _, outcome =>
      match outcome with
      | some record => .findPrint record
      | none => .returned (.found false)
  | .findPrint record, _ => .findKey record
  | .findKey record, _ => .findLruSearch record
  | .findLruSearch record, outcome =>
      match outcome with
      | some entry => .findLruRemove record entry
      | none => .findRemove record
  | .findLruRemove record entry, _ => .findLruFree record entry
  | .findLruFree record _, _ => .findRemove record
  | .findRemove record, _ => .findFree record
  | .findFree _, _ => .returned (.found true)
  | .evictEnter count, _ =>
      if count ≤ 0 then .returned .done else .evictTest count.toNat
  | .evictTest missing, empty =>
      if empty then .returned .done else .evictFirst missing
  | .evictFirst missing, outcome =>
      match outcome with
      | some entry => .evictPrint entry missing
      | none => .returned .done
  | .evictPrint entry missing, _ => .evictDevId entry missing
  | .evictDevId entry missing, _ => .evictInodeNumber entry missing
  | .evictInodeNumber entry missing, _ => .evictInodeGeneration entry missing
  | .evictInodeGeneration entry missing, _ => .evictSearch entry missing
  | .evictSearch entry missing, outcome =>
      match outcome with
      | some record => .evictLruRemove entry record missing
      | none => .returned .done
  | .evictLruRemove entry record missing, _ => .evictLruFree entry record missing
  | .evictLruFree _ record missing, _ => .evictRemove record missing
  | .evictRemove record missing, _ => .evictFree record missing
  | .evictFree _ missing, _ =>
      if missing ≤ 1 then .returned .done else .evictTest (missing - 1)
  | .returned reply, _ => .returned reply

def Pc.advance (rb : Rbtree) (pc : Pc) (cache : CacheState) : Pc × CacheState :=
  let result := pc.action.perform rb cache
  (pc.next result.1, result.2)

/-- A step whose outcome is known. -/
theorem Pc.advance_of_outcome
    (rb : Rbtree) (pc : Pc) (cache : CacheState) {outcome : pc.action.Outcome}
    (houtcome : (pc.action.perform rb cache).1 = outcome) :
    pc.advance rb cache =
      (pc.next outcome, (pc.action.perform rb cache).2) := by
  subst houtcome
  rfl

/-- The calls that run at once. -/
inductive Request
  | insert (filp : FileInfo) (env : InsertEnv)
  | findRemove (filp : FileInfo)
  | removeCacheEntry (count : ℤ)
  deriving DecidableEq

def Request.enter : Request → Pc
  | .insert filp env => .insertAlloc filp env
  | .findRemove filp => .findSearch filp
  | .removeCacheEntry count => .evictEnter count

def Request.call : Request → Call
  | .insert filp env => .insert filp env
  | .findRemove filp => .findRemove filp
  | .removeCacheEntry count => .removeCacheEntry count

/-! ## A call that runs alone

Without other calls the steps of a call add up to the operation of the
sequential model. -/

section Alone

variable (rb : Rbtree)

def Reaches (start final : Pc × CacheState) : Prop :=
  ∃ steps, (fun point : Pc × CacheState =>
    point.1.advance rb point.2)^[steps] start = final

variable {rb}

theorem Reaches.refl (point : Pc × CacheState) : Reaches rb point point :=
  ⟨0, rfl⟩

theorem Reaches.via
    {pc : Pc} {cache : CacheState} {final : Pc × CacheState}
    (next : Pc) (after : CacheState)
    (hstep : pc.advance rb cache = (next, after))
    (hrest : Reaches rb (next, after) final) : Reaches rb (pc, cache) final := by
  obtain ⟨steps, hsteps⟩ := hrest
  refine ⟨steps + 1, ?_⟩
  rw [Function.iterate_succ_apply]
  dsimp only
  rw [hstep]
  exact hsteps

theorem reaches_insertLru
    {caller : Caller} {lruAlloc : Bool} {cache : CacheState}
    {final : Pc × CacheState}
    (hrest : ∀ ret after, insertLruCacheRecord rb caller.linked.timeStamp
      caller.linked.devId caller.linked.inodeNumber
      caller.linked.inodeGeneration lruAlloc cache = (ret, after) →
      Reaches rb (caller.resume ret, after) final) :
    Reaches rb (.lruCacheAlloc caller lruAlloc, cache) final := by
  cases lruAlloc with
  | false => exact Reaches.via _ _ rfl (hrest _ _ rfl)
  | true =>
      apply Reaches.via (.lruFill caller cache.lru.next) _ rfl
      apply Reaches.via (.lruLink caller (caller.entry cache.lru.next)) _ rfl
      exact Reaches.via _ _ rfl (hrest _ _ rfl)

theorem reaches_resume
    {caller : Caller} {ret : ℤ} {cache : CacheState} {final : Pc × CacheState}
    (hrest : Reaches rb (caller.finish ret,
      if ret ≠ 0 then removeScanCacheRecord rb caller.linked cache else cache)
      final) :
    Reaches rb (caller.resume ret, cache) final := by
  unfold Caller.resume
  by_cases hret : ret ≠ 0
  · rw [if_pos hret]
    rw [if_pos hret] at hrest
    apply Reaches.via (.undoFree caller ret) _ rfl
    exact Reaches.via _ _ rfl hrest
  · rw [if_neg hret]
    rw [if_neg hret] at hrest
    exact hrest

theorem reaches_updateLru
    {old new : ScanCacheRecord} {lruAlloc : Bool} {cache : CacheState}
    {final : Pc × CacheState}
    (hrest : ∀ ret after,
      findAndUpdateLruCacheRecord rb old new lruAlloc cache = (ret, after) →
      Reaches rb ((Caller.refresh old new).resume ret, after) final) :
    Reaches rb (.updateKey old new lruAlloc, cache) final := by
  apply Reaches.via (.updateLruSearch old new lruAlloc) (cache.readScan old) rfl
  unfold findAndUpdateLruCacheRecord at hrest
  dsimp only at hrest
  cases hfound : (cache.readScan old).lru.rbSearch lruCacheFindCompareTable
      ⟨old.timeStamp⟩ none with
  | none =>
      rw [hfound] at hrest
      have hsearch : (Pc.updateLruSearch old new lruAlloc).advance rb
          (cache.readScan old) =
            (.undoRemove (.refresh old new) (-1), cache.readScan old) :=
        Pc.advance_of_outcome rb (.updateLruSearch old new lruAlloc) (cache.readScan old) hfound
      exact Reaches.via _ _ hsearch (hrest _ _ rfl)
  | some entry =>
      rw [hfound] at hrest
      have hsearch : (Pc.updateLruSearch old new lruAlloc).advance rb
          (cache.readScan old) =
            (.updateLruRemove old new entry lruAlloc, cache.readScan old) :=
        Pc.advance_of_outcome rb (.updateLruSearch old new lruAlloc) (cache.readScan old) hfound
      apply Reaches.via _ _ hsearch
      apply Reaches.via (.updateLruFree old new entry lruAlloc) _ rfl
      apply Reaches.via (.updateArguments old new lruAlloc)
        (removeLruCacheRecord rb entry (cache.readScan old)) rfl
      apply Reaches.via (.lruCacheAlloc (.refresh old new) lruAlloc) _ rfl
      exact reaches_insertLru hrest

theorem reaches_update
    {new : ScanCacheRecord} {lruAlloc : Bool} {cache : CacheState} :
    Reaches rb (.updateSearch new lruAlloc, cache)
      (.returned (.code (findAndUpdateScanCacheRecord rb new lruAlloc cache).1),
        (findAndUpdateScanCacheRecord rb new lruAlloc cache).2) := by
  unfold findAndUpdateScanCacheRecord
  cases hfound : cache.scan.rbSearch scanCacheInsertCompareTable new none with
  | none =>
      have hsearch : (Pc.updateSearch new lruAlloc).advance rb cache =
          (.updateFree new, cache) :=
        Pc.advance_of_outcome rb (.updateSearch new lruAlloc) cache hfound
      apply Reaches.via _ _ hsearch
      exact Reaches.via _ _ rfl (Reaches.refl _)
  | some old =>
      have hsearch : (Pc.updateSearch new lruAlloc).advance rb cache =
          (.updateReplace old new lruAlloc, cache) :=
        Pc.advance_of_outcome rb (.updateSearch new lruAlloc) cache hfound
      apply Reaches.via _ _ hsearch
      apply Reaches.via (.updateKey old new lruAlloc)
        { cache with scan := cache.scan.rbReplace old new } rfl
      apply reaches_updateLru
      intro ret after hupdate
      apply reaches_resume
      dsimp only
      rw [hupdate]
      exact Reaches.via _ _ rfl (Reaches.refl _)

/-- What is left of `insert_scan_cache_record` once its record is filled. -/
theorem reaches_link
    {record : ScanCacheRecord} {lruAlloc : Bool} {cache : CacheState} :
    let inserted := cache.scan.rbInsert rb scanCacheInsertCompareTable record
    let linked := CacheState.readScan record { cache with scan := inserted.2 }
    let stored := insertLruCacheRecord rb record.timeStamp record.devId
      record.inodeNumber record.inodeGeneration lruAlloc linked
    let result := if inserted.1 ≠ 0 then
        findAndUpdateScanCacheRecord rb record lruAlloc linked
      else if stored.1 ≠ 0 then
        (stored.1, removeScanCacheRecord rb record stored.2)
      else stored
    Reaches rb (.insertLink record lruAlloc, cache)
      (.returned (.code result.1), result.2) := by
  intro inserted linked stored result
  by_cases hret : inserted.1 ≠ 0
  · have hresult : result =
        findAndUpdateScanCacheRecord rb record lruAlloc linked := if_pos hret
    have hlink : (Pc.insertLink record lruAlloc).advance rb cache =
        (.insertPresent record lruAlloc, { cache with scan := inserted.2 }) := by
      unfold Pc.advance
      dsimp only [Action.perform, Pc.next]
      rw [if_pos hret]
    rw [hresult]
    apply Reaches.via _ _ hlink
    apply Reaches.via (.updateSearch record lruAlloc) linked rfl
    exact reaches_update
  · have hresult : result = if stored.1 ≠ 0 then
        (stored.1, removeScanCacheRecord rb record stored.2) else stored :=
      if_neg hret
    have hlink : (Pc.insertLink record lruAlloc).advance rb cache =
        (.insertArguments record lruAlloc, { cache with scan := inserted.2 }) := by
      unfold Pc.advance
      dsimp only [Action.perform, Pc.next]
      rw [if_neg hret]
    rw [hresult]
    apply Reaches.via _ _ hlink
    apply Reaches.via (.lruCacheAlloc (.fresh record) lruAlloc) linked rfl
    apply reaches_insertLru
    intro ret after hinsert
    have hstored : stored = (ret, after) := hinsert
    apply reaches_resume
    rw [hstored]
    by_cases hfailed : ret ≠ 0
    · rw [if_pos hfailed, if_pos hfailed]
      exact Reaches.refl _
    · rw [if_neg hfailed, if_neg hfailed]
      exact Reaches.refl _

theorem reaches_insert (filp : FileInfo) (env : InsertEnv) (cache : CacheState) :
    Reaches rb (.insertAlloc filp env, cache)
      (.returned (.code (insertScanCacheRecord rb filp env cache).1),
        (insertScanCacheRecord rb filp env cache).2) := by
  unfold insertScanCacheRecord
  cases halloc : env.scanAlloc with
  | false =>
      have hfailed : (Pc.insertAlloc filp env).advance rb cache =
          (.returned (.code (-ENOMEM)), cache) := by
        unfold Pc.advance
        dsimp only [Action.perform, Pc.next]
        rw [halloc]
        rfl
      exact Reaches.via _ _ hfailed (Reaches.refl _)
  | true =>
      have hallocated : (Pc.insertAlloc filp env).advance rb cache =
          (.insertFill filp env cache.scan.next,
            { cache with scan := (cache.scan.kmemCacheAlloc true).2 }) := by
        unfold Pc.advance
        dsimp only [Action.perform, Pc.next]
        rw [halloc]
        rfl
      apply Reaches.via _ _ hallocated
      apply Reaches.via (.insertLink ⟨cache.scan.next, filp.devId,
        filp.inodeNumber, filp.inodeGeneration, env.now⟩ env.lruAlloc) _ rfl
      exact reaches_link

theorem reaches_findRemove (filp : FileInfo) (cache : CacheState) :
    Reaches rb (.findSearch filp, cache)
      (.returned (.found (findRemoveScanCacheRecord rb filp cache).1),
        (findRemoveScanCacheRecord rb filp cache).2) := by
  unfold findRemoveScanCacheRecord
  cases hfound : findScanCacheRecord filp.key cache with
  | none =>
      have hsearch : (Pc.findSearch filp).advance rb cache =
          (.returned (.found false), cache) :=
        Pc.advance_of_outcome rb (.findSearch filp) cache hfound
      exact Reaches.via _ _ hsearch (Reaches.refl _)
  | some record =>
      have hsearch : (Pc.findSearch filp).advance rb cache =
          (.findPrint record, cache) :=
        Pc.advance_of_outcome rb (.findSearch filp) cache hfound
      apply Reaches.via _ _ hsearch
      apply Reaches.via (.findKey record) (cache.readScan record) rfl
      apply Reaches.via (.findLruSearch record)
        ((cache.readScan record).readScan record) rfl
      unfold findRemoveLruCacheRecord
      dsimp only
      generalize (cache.readScan record).readScan record = read
      cases hlru : findLruCacheRecord ⟨record.timeStamp⟩ read with
      | none =>
          have hlruSearch : (Pc.findLruSearch record).advance rb read =
              (.findRemove record, read) :=
            Pc.advance_of_outcome rb (.findLruSearch record) read hlru
          apply Reaches.via _ _ hlruSearch
          apply Reaches.via (.findFree record) _ rfl
          exact Reaches.via _ _ rfl (Reaches.refl _)
      | some entry =>
          have hlruSearch : (Pc.findLruSearch record).advance rb read =
              (.findLruRemove record entry, read) :=
            Pc.advance_of_outcome rb (.findLruSearch record) read hlru
          apply Reaches.via _ _ hlruSearch
          apply Reaches.via (.findLruFree record entry) _ rfl
          apply Reaches.via (.findRemove record)
            (removeLruCacheRecord rb entry read) rfl
          apply Reaches.via (.findFree record) _ rfl
          exact Reaches.via _ _ rfl (Reaches.refl _)

theorem Index.rbEmptyRoot_eq {ρ : Type} (index : Index ρ) :
    index.rbEmptyRoot = index.rbFirst.isNone := by
  unfold Index.rbEmptyRoot Index.rbFirst
  cases htree : index.tree with
  | nil => rfl
  | node color left value right =>
      unfold RbTree.first
      cases left.first (.inLeft .root color value right) <;> rfl

theorem reaches_round
    {missing : ℕ} {cache : CacheState}
    (hrest : ∀ after, Reaches rb
      (if missing + 1 ≤ 1 then .returned .done else .evictTest missing, after)
      (.returned .done, removeCacheLoop rb missing after)) :
    Reaches rb (.evictTest (missing + 1), cache)
      (.returned .done, removeCacheLoop rb (missing + 1) cache) := by
  have hempty := Index.rbEmptyRoot_eq cache.lru
  unfold removeCacheLoop
  cases hfirst : cache.lru.rbFirst with
  | none =>
      rw [hfirst] at hempty
      have htest : (Pc.evictTest (missing + 1)).advance rb cache =
          (.returned .done, cache) :=
        Pc.advance_of_outcome rb (.evictTest (missing + 1)) cache hempty
      exact Reaches.via _ _ htest (Reaches.refl _)
  | some entry =>
      rw [hfirst] at hempty
      have htest : (Pc.evictTest (missing + 1)).advance rb cache =
          (.evictFirst (missing + 1), cache) :=
        Pc.advance_of_outcome rb (.evictTest (missing + 1)) cache hempty
      have htake : (Pc.evictFirst (missing + 1)).advance rb cache =
          (.evictPrint entry (missing + 1), cache) :=
        Pc.advance_of_outcome rb (.evictFirst (missing + 1)) cache hfirst
      apply Reaches.via _ _ htest
      apply Reaches.via _ _ htake
      apply Reaches.via (.evictDevId entry (missing + 1)) _ rfl
      apply Reaches.via (.evictInodeNumber entry (missing + 1)) _ rfl
      apply Reaches.via (.evictInodeGeneration entry (missing + 1)) _ rfl
      apply Reaches.via (.evictSearch entry (missing + 1))
        ((CacheState.readLru entry)^[4] cache) rfl
      dsimp only
      generalize (CacheState.readLru entry)^[4] cache = read
      cases hfound : findScanCacheRecord entry.key read with
      | none =>
          have hsearch : (Pc.evictSearch entry (missing + 1)).advance rb read =
              (.returned .done, read) :=
            Pc.advance_of_outcome rb (.evictSearch entry (missing + 1)) read hfound
          exact Reaches.via _ _ hsearch (Reaches.refl _)
      | some record =>
          have hsearch : (Pc.evictSearch entry (missing + 1)).advance rb read =
              (.evictLruRemove entry record (missing + 1), read) :=
            Pc.advance_of_outcome rb (.evictSearch entry (missing + 1)) read hfound
          apply Reaches.via _ _ hsearch
          apply Reaches.via (.evictLruFree entry record (missing + 1)) _ rfl
          apply Reaches.via (.evictRemove record (missing + 1))
            (removeLruCacheRecord rb entry read) rfl
          apply Reaches.via (.evictFree record (missing + 1)) _ rfl
          exact Reaches.via _ _ rfl (hrest _)

theorem reaches_evict (missing : ℕ) (cache : CacheState) :
    Reaches rb (.evictTest (missing + 1), cache)
      (.returned .done, removeCacheLoop rb (missing + 1) cache) := by
  induction missing generalizing cache with
  | zero =>
      apply reaches_round
      intro after
      exact Reaches.refl _
  | succ missing ih =>
      apply reaches_round
      intro after
      rw [if_neg (by omega)]
      exact ih after

/-- A call that runs alone returns what the sequential operation returns and
leaves the same cache. -/
theorem reaches_returned (request : Request) (cache : CacheState) :
    Reaches rb (request.enter, cache)
      (.returned (execute rb cache request.call).1,
        (execute rb cache request.call).2) := by
  cases request with
  | insert filp env => exact reaches_insert filp env cache
  | findRemove filp => exact reaches_findRemove filp cache
  | removeCacheEntry count =>
      change Reaches rb (.evictEnter count, cache)
        (.returned .done, removeCacheEntry rb count cache)
      unfold removeCacheEntry
      by_cases hcount : count ≤ 0
      · have henter : (Pc.evictEnter count).advance rb cache =
            (.returned .done, cache) := by
          unfold Pc.advance
          dsimp only [Action.perform, Pc.next]
          rw [if_pos hcount]
        rw [if_pos hcount]
        exact Reaches.via _ _ henter (Reaches.refl _)
      · obtain ⟨missing, hmissing⟩ : ∃ missing, count.toNat = missing + 1 :=
          ⟨count.toNat - 1, by omega⟩
        have henter : (Pc.evictEnter count).advance rb cache =
            (.evictTest (missing + 1), cache) := by
          unfold Pc.advance
          dsimp only [Action.perform, Pc.next]
          rw [if_neg hcount, hmissing]
        rw [if_neg hcount, hmissing]
        exact Reaches.via _ _ henter (reaches_evict missing cache)

end Alone

/-! ## Worlds -/

/-- The scan records that the step uses through a pointer of its call: those
to which it applies `RB_REMOVE`, `RB_REPLACE`, `kmem_cache_free` or a field
read, and those that a comparison table reads as the searching key. -/
def Action.scanTouched : Action → List ℕ
  | .kmemCacheFreeScan record => [record.id]
  | .readScan record => [record.id]
  | .rbInsertScan record => [record.id]
  | .rbSearchScanRecord new => [new.id]
  | .rbReplaceScan old new => [old.id, new.id]
  | .rbRemoveScan record => [record.id]
  | _ => []

def Action.lruTouched : Action → List ℕ
  | .kmemCacheFreeLru entry => [entry.id]
  | .readLru entry => [entry.id]
  | .rbInsertLru entry => [entry.id]
  | .rbRemoveLru entry => [entry.id]
  | _ => []

/-- The scan records that the step erases from the tree or frees. -/
def Action.scanRetired : Action → List ℕ
  | .kmemCacheFreeScan record => [record.id]
  | .rbReplaceScan old _ => [old.id]
  | .rbRemoveScan record => [record.id]
  | _ => []

def Action.lruRetired : Action → List ℕ
  | .kmemCacheFreeLru entry => [entry.id]
  | .rbRemoveLru entry => [entry.id]
  | _ => []

structure World (ι : Type) where
  cache : CacheState
  pcs : ι → Pc
  scanGone : ℕ → Option ι
  lruGone : ℕ → Option ι

variable {ι : Type}

def World.start (cache : CacheState) (requests : ι → Request) : World ι where
  cache := cache
  pcs := fun call => (requests call).enter
  scanGone := fun _ => none
  lruGone := fun _ => none

def World.step [DecidableEq ι] (rb : Rbtree) (world : World ι) (call : ι) :
    World ι :=
  let pc := world.pcs call
  let result := pc.advance rb world.cache
  { cache := result.2
    pcs := Function.update world.pcs call result.1
    scanGone := markGone call pc.action.scanRetired world.scanGone
    lruGone := markGone call pc.action.lruRetired world.lruGone }

end LinuxKernelCode.ScanCache
