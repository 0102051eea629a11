import LinuxKernelCode.StepRuns
import LinuxKernelCode.RedBlackRebalance
import LinuxKernelCode.ScanCacheInterleaving
import LinuxKernelCode.ScanCacheCoherence

/-!
# Records shared by interleaved calls

Every operation looks a record up in one section and acts on the pointer in a
later one.  Two calls that hold the same record therefore use it after the
other has erased or freed it.  This module proves that this is all that goes
wrong: as long as no call looks up a record that another call in progress
holds, no call touches a record that another call has erased or freed, for any
number of calls, any files and any interleaving.
-/

namespace LinuxKernelCode.ScanCache

open RedBlack Runs Ownership

variable {ι : Type}

/-! ## What a call holds -/

def Caller.scanHolding : Caller → Holding
  | .fresh record => ⟨[], [], [record.id]⟩
  | .refresh old new => ⟨[], [old.id], [new.id]⟩

/-- The scan records that the rest of the call may still touch. -/
def Pc.scanHolding : Pc → Holding
  | .insertFill _ _ id => ⟨[id], [], []⟩
  | .insertLink record _ => ⟨[record.id], [], []⟩
  | .insertPresent record _ => ⟨[record.id], [], []⟩
  | .insertArguments record _ => ⟨[], [], [record.id]⟩
  | .updateSearch new _ => ⟨[new.id], [], []⟩
  | .updateReplace old new _ => ⟨[new.id], [], [old.id]⟩
  | .updateKey old new _ => ⟨[], [old.id], [new.id]⟩
  | .updateLruSearch old new _ => ⟨[], [old.id], [new.id]⟩
  | .updateLruRemove old new _ _ => ⟨[], [old.id], [new.id]⟩
  | .updateLruFree old new _ _ => ⟨[], [old.id], [new.id]⟩
  | .updateArguments old new _ => ⟨[], [old.id], [new.id]⟩
  | .updateFree new => ⟨[], [new.id], []⟩
  | .lruCacheAlloc caller _ => caller.scanHolding
  | .lruFill caller _ => caller.scanHolding
  | .lruLink caller _ => caller.scanHolding
  | .undoRemove caller _ => caller.scanHolding
  | .undoFree (.fresh record) _ => ⟨[], [record.id], []⟩
  | .undoFree (.refresh old new) _ => ⟨[], [new.id, old.id], []⟩
  | .updateFreeOld old _ => ⟨[], [old.id], []⟩
  | .findPrint record => ⟨[], [], [record.id]⟩
  | .findKey record => ⟨[], [], [record.id]⟩
  | .findLruSearch record => ⟨[], [], [record.id]⟩
  | .findLruRemove record _ => ⟨[], [], [record.id]⟩
  | .findLruFree record _ => ⟨[], [], [record.id]⟩
  | .findRemove record => ⟨[], [], [record.id]⟩
  | .findFree record => ⟨[], [record.id], []⟩
  | .evictLruRemove _ record _ => ⟨[], [], [record.id]⟩
  | .evictLruFree _ record _ => ⟨[], [], [record.id]⟩
  | .evictRemove record _ => ⟨[], [], [record.id]⟩
  | .evictFree record _ => ⟨[], [record.id], []⟩
  | _ => .none

/-- The LRU records that the rest of the call may still touch. -/
def Pc.lruHolding : Pc → Holding
  | .updateLruRemove _ _ entry _ => ⟨[], [], [entry.id]⟩
  | .updateLruFree _ _ entry _ => ⟨[], [entry.id], []⟩
  | .lruFill _ id => ⟨[id], [], []⟩
  | .lruLink _ entry => ⟨[entry.id], [], []⟩
  | .findLruRemove _ entry => ⟨[], [], [entry.id]⟩
  | .findLruFree _ entry => ⟨[], [entry.id], []⟩
  | .evictPrint entry _ => ⟨[], [], [entry.id]⟩
  | .evictDevId entry _ => ⟨[], [], [entry.id]⟩
  | .evictInodeNumber entry _ => ⟨[], [], [entry.id]⟩
  | .evictInodeGeneration entry _ => ⟨[], [], [entry.id]⟩
  | .evictSearch entry _ => ⟨[], [], [entry.id]⟩
  | .evictLruRemove entry _ _ => ⟨[], [], [entry.id]⟩
  | .evictLruFree entry _ _ => ⟨[], [entry.id], []⟩
  | _ => .none

/-- The scan record that the step looks up. -/
def Action.scanFound : Action → CacheState → Option ScanCacheRecord
  | .rbSearchScanRecord new, cache =>
      cache.scan.rbSearch scanCacheInsertCompareTable new none
  | .rbSearchScanKey key, cache => findScanCacheRecord key cache
  | _, _ => none

/-- The LRU record that the step looks up. -/
def Action.lruFound : Action → CacheState → Option LruCacheRecord
  | .rbSearchLru key, cache => findLruCacheRecord key cache
  | .rbFirstLru, cache => cache.lru.rbFirst
  | _, _ => none

/-- The step does not look up a record that another call in progress holds. -/
def LookupExclusive (world : World ι) (call : ι) : Prop :=
  (∀ record ∈ (world.pcs call).action.scanFound world.cache, ∀ other,
    other ≠ call → record.id ∉ (world.pcs other).scanHolding.held) ∧
  ∀ entry ∈ (world.pcs call).action.lruFound world.cache, ∀ other,
    other ≠ call → entry.id ∉ (world.pcs other).lruHolding.held

instance [DecidableEq ι] [Fintype ι] (world : World ι) (call : ι) :
    Decidable (LookupExclusive world call) :=
  inferInstanceAs (Decidable (_ ∧ _))

/-- No record that the step touches, and none that a descent through a tree
may read, was erased or freed by another call. -/
structure StepSafe (world : World ι) (call : ι) : Prop where
  scanTouched : ∀ id ∈ (world.pcs call).action.scanTouched, ∀ other,
    world.scanGone id = some other → other = call
  lruTouched : ∀ id ∈ (world.pcs call).action.lruTouched, ∀ other,
    world.lruGone id = some other → other = call
  scanLinked : ∀ record ∈ world.cache.scan.records,
    world.scanGone record.id = none
  lruLinked : ∀ entry ∈ world.cache.lru.records, world.lruGone entry.id = none

theorem stepSafe_iff {world : World ι} {call : ι} :
    StepSafe world call ↔
      (∀ id ∈ (world.pcs call).action.scanTouched, ∀ other,
        world.scanGone id = some other → other = call) ∧
      (∀ id ∈ (world.pcs call).action.lruTouched, ∀ other,
        world.lruGone id = some other → other = call) ∧
      (∀ record ∈ world.cache.scan.records,
        world.scanGone record.id = none) ∧
      ∀ entry ∈ world.cache.lru.records, world.lruGone entry.id = none :=
  ⟨fun h => ⟨h.scanTouched, h.lruTouched, h.scanLinked, h.lruLinked⟩,
    fun ⟨hscan, hlru, hscanLinked, hlruLinked⟩ =>
      ⟨hscan, hlru, hscanLinked, hlruLinked⟩⟩

instance [DecidableEq ι] [Fintype ι] (world : World ι) (call : ι) :
    Decidable (StepSafe world call) :=
  decidable_of_iff _ stepSafe_iff.symm

/-! ## Effects of the actions on the two slabs -/

def Action.scanEffect : (action : Action) → action.Outcome → Effect
  | .kmemCacheAllocScan _, outcome => .ofAlloc outcome
  | .kmemCacheFreeScan record, _ => .free record.id
  | .rbInsertScan record, ret => if ret ≠ 0 then .quiet else .link record.id
  | .rbSearchScanRecord _, outcome => .ofFound (outcome.map ScanCacheRecord.id)
  | .rbSearchScanKey _, outcome => .ofFound (outcome.map ScanCacheRecord.id)
  | .rbReplaceScan old new, _ => .swap old.id new.id
  | .rbRemoveScan record, _ => .unlink record.id
  | _, _ => .quiet

def Action.lruEffect : (action : Action) → action.Outcome → Effect
  | .kmemCacheAllocLru _, outcome => .ofAlloc outcome
  | .kmemCacheFreeLru entry, _ => .free entry.id
  | .rbInsertLru entry, ret => if ret ≠ 0 then .quiet else .link entry.id
  | .rbSearchLru _, outcome => .ofFound (outcome.map LruCacheRecord.id)
  | .rbFirstLru, outcome => .ofFound (outcome.map LruCacheRecord.id)
  | .rbRemoveLru entry, _ => .unlink entry.id
  | _, _ => .quiet

theorem Action.scanEffect_retired (action : Action) (outcome : action.Outcome) :
    (action.scanEffect outcome).retired = action.scanRetired := by
  cases action with
  | kmemCacheAllocScan => cases outcome <;> rfl
  | rbInsertScan record =>
      dsimp only [Action.scanEffect]
      split_ifs <;> rfl
  | rbSearchScanRecord => cases outcome <;> rfl
  | rbSearchScanKey => cases outcome <;> rfl
  | _ => rfl

theorem Action.lruEffect_retired (action : Action) (outcome : action.Outcome) :
    (action.lruEffect outcome).retired = action.lruRetired := by
  cases action with
  | kmemCacheAllocLru => cases outcome <;> rfl
  | rbInsertLru entry =>
      dsimp only [Action.lruEffect]
      split_ifs <;> rfl
  | rbSearchLru => cases outcome <;> rfl
  | rbFirstLru => cases outcome <;> rfl
  | _ => rfl

theorem Caller.finish_scanTransfer (caller : Caller) (ret : ℤ) :
    Transfer .quiet caller.scanHolding (caller.finish ret).scanHolding := by
  cases caller with
  | fresh record => exact Transfer.drop _
  | refresh old new =>
      exact .quiet (List.nil_subset _) (List.Subset.refl _) (List.nil_subset _)

theorem Caller.resume_scanTransfer (caller : Caller) (ret : ℤ) :
    Transfer .quiet caller.scanHolding (caller.resume ret).scanHolding := by
  unfold Caller.resume
  split_ifs
  · exact Transfer.refl _
  · exact caller.finish_scanTransfer ret

theorem Caller.finish_lruHolding (caller : Caller) (ret : ℤ) :
    (caller.finish ret).lruHolding = .none := by
  cases caller <;> rfl

theorem Caller.resume_lruHolding (caller : Caller) (ret : ℤ) :
    (caller.resume ret).lruHolding = .none := by
  unfold Caller.resume
  split_ifs
  · rfl
  · exact caller.finish_lruHolding ret

/-- Every step of every call keeps to the rules for the scan records it
holds. -/
theorem Pc.scanTransfer (pc : Pc) (outcome : pc.action.Outcome) :
    Transfer (pc.action.scanEffect outcome) pc.scanHolding
      (pc.next outcome).scanHolding := by
  cases pc with
  | insertAlloc filp env =>
      cases outcome with
      | none => exact Transfer.drop _
      | some id => exact Transfer.of_allocate id
  | insertLink record lruAlloc =>
      dsimp only [Action.scanEffect, Pc.next]
      split_ifs
      · exact Transfer.refl _
      · exact Transfer.of_link record.id
  | updateSearch new lruAlloc =>
      cases outcome with
      | none => exact Transfer.of_dismiss new.id
      | some old => exact Transfer.of_acquire [new.id] old.id
  | updateReplace old new lruAlloc => exact Transfer.of_swap old.id new.id
  | updateLruSearch old new lruAlloc => cases outcome <;> exact Transfer.refl _
  | updateFree new => exact Transfer.of_free [] new.id
  | lruCacheAlloc caller lruAlloc =>
      cases outcome with
      | none => exact caller.resume_scanTransfer (-1)
      | some id => exact Transfer.refl _
  | lruLink caller entry => exact caller.resume_scanTransfer outcome
  | undoRemove caller ret =>
      cases caller with
      | fresh record => exact Transfer.of_unlink [] record.id
      | refresh old new => exact Transfer.of_unlink [old.id] new.id
  | undoFree caller ret =>
      cases caller with
      | fresh record => exact Transfer.of_free [] record.id
      | refresh old new => exact Transfer.of_free [old.id] new.id
  | updateFreeOld old ret => exact Transfer.of_free [] old.id
  | findSearch filp =>
      cases outcome with
      | none => exact Transfer.drop _
      | some record => exact Transfer.of_acquire [] record.id
  | findLruSearch record => cases outcome <;> exact Transfer.refl _
  | findRemove record => exact Transfer.of_unlink [] record.id
  | findFree record => exact Transfer.of_free [] record.id
  | evictEnter count =>
      dsimp only [Pc.next]
      split_ifs <;> exact Transfer.refl _
  | evictTest missing =>
      dsimp only [Pc.next]
      split_ifs <;> exact Transfer.refl _
  | evictFirst missing => cases outcome <;> exact Transfer.refl _
  | evictSearch entry missing =>
      cases outcome with
      | none => exact Transfer.drop _
      | some record => exact Transfer.of_acquire [] record.id
  | evictRemove record missing => exact Transfer.of_unlink [] record.id
  | evictFree record missing =>
      dsimp only [Pc.next]
      split_ifs <;> exact Transfer.of_free [] record.id
  | _ => exact Transfer.refl _

/-- Every step of every call keeps to the rules for the LRU records it
holds. -/
theorem Pc.lruTransfer (pc : Pc) (outcome : pc.action.Outcome) :
    Transfer (pc.action.lruEffect outcome) pc.lruHolding
      (pc.next outcome).lruHolding := by
  cases pc with
  | insertAlloc filp env => cases outcome <;> exact Transfer.refl _
  | insertLink record lruAlloc =>
      dsimp only [Pc.next]
      split_ifs <;> exact Transfer.refl _
  | updateSearch new lruAlloc => cases outcome <;> exact Transfer.refl _
  | updateLruSearch old new lruAlloc =>
      cases outcome with
      | none => exact Transfer.refl _
      | some entry => exact Transfer.of_acquire [] entry.id
  | updateLruRemove old new entry lruAlloc =>
      exact Transfer.of_unlink [] entry.id
  | updateLruFree old new entry lruAlloc => exact Transfer.of_free [] entry.id
  | lruCacheAlloc caller lruAlloc =>
      cases outcome with
      | none =>
          dsimp only [Action.lruEffect, Pc.next]
          rw [caller.resume_lruHolding]
          exact Transfer.refl _
      | some id => exact Transfer.of_allocate id
  | lruLink caller entry =>
      dsimp only [Action.lruEffect, Pc.next]
      rw [caller.resume_lruHolding]
      split_ifs
      · exact Transfer.drop _
      · exact Transfer.of_link_drop entry.id
  | undoFree caller ret =>
      dsimp only [Action.lruEffect, Pc.next]
      rw [caller.finish_lruHolding]
      exact Transfer.refl _
  | findSearch filp => cases outcome <;> exact Transfer.refl _
  | findLruSearch record =>
      cases outcome with
      | none => exact Transfer.refl _
      | some entry => exact Transfer.of_acquire [] entry.id
  | findLruRemove record entry => exact Transfer.of_unlink [] entry.id
  | findLruFree record entry => exact Transfer.of_free [] entry.id
  | evictEnter count =>
      dsimp only [Pc.next]
      split_ifs <;> exact Transfer.refl _
  | evictTest missing =>
      dsimp only [Pc.next]
      split_ifs <;> exact Transfer.refl _
  | evictFirst missing =>
      cases outcome with
      | none => exact Transfer.refl _
      | some entry => exact Transfer.of_acquire [] entry.id
  | evictSearch entry missing =>
      cases outcome with
      | none => exact Transfer.drop _
      | some record => exact Transfer.refl _
  | evictLruRemove entry record missing => exact Transfer.of_unlink [] entry.id
  | evictLruFree entry record missing => exact Transfer.of_free [] entry.id
  | evictFree record missing =>
      dsimp only [Pc.next]
      split_ifs <;> exact Transfer.refl _
  | _ => exact Transfer.refl _

/-! ## Effects on the linked records -/

section Index

variable {ρ : Type} [SlabRecord ρ]

def Index.ids (index : Index ρ) : List ℕ := index.records.map recordId

theorem Index.alloc_relates (index : Index ρ) (succeeds : Bool) :
    (Effect.ofAlloc (index.kmemCacheAlloc succeeds).1).Relates index.ids
      index.next (index.kmemCacheAlloc succeeds).2.ids
      (index.kmemCacheAlloc succeeds).2.next := by
  cases succeeds with
  | false => exact ⟨rfl, rfl⟩
  | true => exact ⟨rfl, rfl, rfl⟩

theorem Index.found_relates
    (index : Index ρ) {found : Option ρ}
    (hfound : ∀ record, found = some record → record ∈ index.records) :
    (Effect.ofFound (found.map recordId)).Relates index.ids index.next index.ids
      index.next := by
  cases found with
  | none => exact ⟨rfl, rfl⟩
  | some record =>
      exact ⟨List.mem_map_of_mem (hfound record rfl), rfl, rfl⟩

theorem Index.insert_relates
    (rb : Rbtree) (cmp : ρ → ρ → ℤ) (new : ρ) (index : Index ρ) :
    (if (index.rbInsert rb cmp new).1 ≠ 0 then Effect.quiet
      else .link (recordId new)).Relates index.ids index.next
        (index.rbInsert rb cmp new).2.ids (index.rbInsert rb cmp new).2.next := by
  cases hfound : index.rbSearch cmp new none with
  | some old =>
      rw [Index.rbInsert_of_found rb hfound]
      exact ⟨rfl, rfl⟩
  | none =>
      obtain ⟨slot, _, hbefore, hinsert, hafter⟩ :=
        Index.rbInsert_of_notFound rb hfound
      rw [hinsert, if_neg (not_not.mpr rfl)]
      refine ⟨?_, rfl⟩
      unfold Index.ids
      rw [hafter, hbefore, ← List.map_cons]
      exact List.perm_middle.map recordId

theorem Index.remove_relates
    (rb : Rbtree) (record : ρ) {index : Index ρ} (hnodup : index.ids.Nodup) :
    (Effect.unlink (recordId record)).Relates index.ids index.next
      (index.rbRemove rb record).ids (index.rbRemove rb record).next := by
  refine ⟨?_, index.next_rbRemove rb record⟩
  unfold Index.ids
  rw [Index.records_rbRemove rb record hnodup, List.filter_map]
  rfl

theorem Index.replace_relates
    (old new : ρ) {index : Index ρ} (hnodup : index.ids.Nodup) :
    (Effect.swap (recordId old) (recordId new)).Relates index.ids index.next
      (index.rbReplace old new).ids (index.rbReplace old new).next := by
  refine ⟨?_, index.next_rbReplace old new⟩
  unfold Index.ids
  rw [Index.records_rbReplace old new hnodup, List.map_map, List.map_map]
  apply List.map_congr_left
  intro record _
  exact apply_ite recordId _ _ _

theorem Index.free_relates (record : ρ) (index : Index ρ) :
    (Effect.free (recordId record)).Relates index.ids index.next
      (index.kmemCacheFree record).ids (index.kmemCacheFree record).next := by
  refine ⟨?_, index.next_kmemCacheFree record⟩
  unfold Index.ids
  rw [index.records_kmemCacheFree record]

theorem Index.read_relates (record : ρ) (index : Index ρ) :
    Effect.quiet.Relates index.ids index.next (index.read record).ids
      (index.read record).next := by
  refine ⟨?_, index.next_read record⟩
  unfold Index.ids Index.records
  rw [index.tree_read record]

omit [SlabRecord ρ] in
theorem Index.rbFirst_mem
    {index : Index ρ} {record : ρ} (hfirst : index.rbFirst = some record) :
    record ∈ index.records := by
  rw [Index.rbFirst_eq] at hfirst
  exact List.mem_of_mem_head? hfirst

end Index

theorem Action.scanRelates
    (rb : Rbtree) (action : Action) {cache : CacheState}
    (hnodup : cache.scan.ids.Nodup) :
    (action.scanEffect (action.perform rb cache).1).Relates cache.scan.ids
      cache.scan.next (action.perform rb cache).2.scan.ids
      (action.perform rb cache).2.scan.next := by
  cases action with
  | kmemCacheAllocScan succeeds => exact cache.scan.alloc_relates succeeds
  | kmemCacheFreeScan record => exact cache.scan.free_relates record
  | readScan record => exact cache.scan.read_relates record
  | rbInsertScan record =>
      exact cache.scan.insert_relates rb scanCacheInsertCompareTable record
  | rbSearchScanRecord new =>
      exact cache.scan.found_relates fun _ h => (Index.rbSearch_eq_some h).1
  | rbSearchScanKey key =>
      exact cache.scan.found_relates fun _ h => (Index.rbSearch_eq_some h).1
  | rbReplaceScan old new => exact Index.replace_relates old new hnodup
  | rbRemoveScan record => exact Index.remove_relates rb record hnodup
  | _ => exact ⟨rfl, rfl⟩

theorem Action.lruRelates
    (rb : Rbtree) (action : Action) {cache : CacheState}
    (hnodup : cache.lru.ids.Nodup) :
    (action.lruEffect (action.perform rb cache).1).Relates cache.lru.ids
      cache.lru.next (action.perform rb cache).2.lru.ids
      (action.perform rb cache).2.lru.next := by
  cases action with
  | kmemCacheAllocLru succeeds => exact cache.lru.alloc_relates succeeds
  | kmemCacheFreeLru entry => exact cache.lru.free_relates entry
  | readLru entry => exact cache.lru.read_relates entry
  | rbInsertLru entry =>
      exact cache.lru.insert_relates rb lruCacheInsertCompareTable entry
  | rbSearchLru key =>
      exact cache.lru.found_relates fun _ h => (Index.rbSearch_eq_some h).1
  | rbFirstLru => exact cache.lru.found_relates fun _ h => Index.rbFirst_mem h
  | rbRemoveLru entry => exact Index.remove_relates rb entry hnodup
  | _ => exact ⟨rfl, rfl⟩

theorem Action.scanFound_of_acquire
    {rb : Rbtree} {action : Action} {cache : CacheState} {id : ℕ}
    (hacquire : action.scanEffect (action.perform rb cache).1 = .acquire id) :
    ∃ record ∈ action.scanFound cache, record.id = id := by
  cases action with
  | kmemCacheAllocScan succeeds => cases succeeds <;> contradiction
  | rbInsertScan record =>
      dsimp only [Action.scanEffect] at hacquire
      split_ifs at hacquire
  | rbSearchScanRecord new =>
      exact Option.map_eq_some_iff.mp (Effect.ofFound_eq_acquire.mp hacquire)
  | rbSearchScanKey key =>
      exact Option.map_eq_some_iff.mp (Effect.ofFound_eq_acquire.mp hacquire)
  | _ => contradiction

theorem Action.lruFound_of_acquire
    {rb : Rbtree} {action : Action} {cache : CacheState} {id : ℕ}
    (hacquire : action.lruEffect (action.perform rb cache).1 = .acquire id) :
    ∃ entry ∈ action.lruFound cache, entry.id = id := by
  cases action with
  | kmemCacheAllocLru succeeds => cases succeeds <;> contradiction
  | rbInsertLru entry =>
      dsimp only [Action.lruEffect] at hacquire
      split_ifs at hacquire
  | rbSearchLru key =>
      exact Option.map_eq_some_iff.mp (Effect.ofFound_eq_acquire.mp hacquire)
  | rbFirstLru =>
      exact Option.map_eq_some_iff.mp (Effect.ofFound_eq_acquire.mp hacquire)
  | _ => contradiction

/-- A call touches only what it holds. -/
theorem Pc.scanTouched_held (pc : Pc) :
    ∀ id ∈ pc.action.scanTouched, id ∈ pc.scanHolding.held := by
  cases pc with
  | undoRemove caller ret =>
      cases caller <;> simp [Action.scanTouched, Pc.scanHolding,
        Caller.scanHolding, Caller.linked, Holding.mem_held]
  | undoFree caller ret =>
      cases caller <;> simp [Action.scanTouched, Pc.scanHolding, Caller.linked,
        Holding.mem_held]
  | _ => simp [Action.scanTouched, Pc.scanHolding, Holding.mem_held]

theorem Pc.lruTouched_held (pc : Pc) :
    ∀ id ∈ pc.action.lruTouched, id ∈ pc.lruHolding.held := by
  cases pc with
  | _ => simp [Action.lruTouched, Pc.lruHolding, Holding.mem_held]

/-! ## The invariant of a world -/

def World.scanSlab (world : World ι) : Slab ι :=
  ⟨world.cache.scan.ids, world.cache.scan.next, world.scanGone,
    Pc.scanHolding ∘ world.pcs⟩

def World.lruSlab (world : World ι) : Slab ι :=
  ⟨world.cache.lru.ids, world.cache.lru.next, world.lruGone,
    Pc.lruHolding ∘ world.pcs⟩

structure World.Owned (world : World ι) : Prop where
  scan : world.scanSlab.Owned
  lru : world.lruSlab.Owned

/-- In every interleaving a record that is still to be linked is unlinked and
no other call's. -/
structure World.Reserved (world : World ι) : Prop where
  scan : world.scanSlab.Reserved
  lru : world.lruSlab.Reserved

theorem Index.WellFormed.ids_lt
    {ρ : Type} [SlabRecord ρ] {index : Index ρ} (hwell : index.WellFormed) :
    ∀ id ∈ index.ids, id < index.next := by
  intro id hid
  obtain ⟨record, hrecord, rfl⟩ := List.mem_map.mp hid
  exact hwell.liveLt _ (hwell.recordsLive record hrecord)

theorem Request.enter_scanHolding (request : Request) :
    request.enter.scanHolding = .none := by
  cases request <;> rfl

theorem Request.enter_lruHolding (request : Request) :
    request.enter.lruHolding = .none := by
  cases request <;> rfl

section Start

variable {cache : CacheState} (hscan : cache.scan.WellFormed)
  (hlru : cache.lru.WellFormed) (requests : ι → Request)

include hscan hlru

theorem World.start_owned : (World.start cache requests).Owned where
  scan := Slab.Owned.start hscan.idsNodup hscan.ids_lt
    fun call => (requests call).enter_scanHolding
  lru := Slab.Owned.start hlru.idsNodup hlru.ids_lt
    fun call => (requests call).enter_lruHolding

theorem World.start_reserved : (World.start cache requests).Reserved where
  scan := Slab.Reserved.start hscan.idsNodup hscan.ids_lt
    fun call => (requests call).enter_scanHolding
  lru := Slab.Reserved.start hlru.idsNodup hlru.ids_lt
    fun call => (requests call).enter_lruHolding

end Start

section Step

variable [DecidableEq ι] {rb : Rbtree} {world : World ι} {call : ι}

theorem World.scanSlab_step :
    (world.step rb call).scanSlab =
      let pc := world.pcs call
      let result := pc.action.perform rb world.cache
      ⟨result.2.scan.ids, result.2.scan.next,
        markGone call (pc.action.scanEffect result.1).retired world.scanGone,
        Function.update world.scanSlab.holdings call
          (pc.next result.1).scanHolding⟩ := by
  dsimp only [World.scanSlab, World.step, Pc.advance]
  rw [Action.scanEffect_retired, Function.comp_update]

theorem World.lruSlab_step :
    (world.step rb call).lruSlab =
      let pc := world.pcs call
      let result := pc.action.perform rb world.cache
      ⟨result.2.lru.ids, result.2.lru.next,
        markGone call (pc.action.lruEffect result.1).retired world.lruGone,
        Function.update world.lruSlab.holdings call
          (pc.next result.1).lruHolding⟩ := by
  dsimp only [World.lruSlab, World.step, Pc.advance]
  rw [Action.lruEffect_retired, Function.comp_update]

theorem World.Owned.step
    (howned : world.Owned) (hexclusive : LookupExclusive world call) :
    (world.step rb call).Owned := by
  obtain ⟨hscanFound, hlruFound⟩ := hexclusive
  constructor
  · rw [World.scanSlab_step]
    apply howned.scan.step call (Pc.scanTransfer _ _)
    · exact Action.scanRelates rb _ howned.scan.linkedNodup
    · intro id hacquire other hother
      obtain ⟨record, hfound, rfl⟩ := Action.scanFound_of_acquire hacquire
      exact hscanFound record hfound other hother
  · rw [World.lruSlab_step]
    apply howned.lru.step call (Pc.lruTransfer _ _)
    · exact Action.lruRelates rb _ howned.lru.linkedNodup
    · intro id hacquire other hother
      obtain ⟨entry, hfound, rfl⟩ := Action.lruFound_of_acquire hacquire
      exact hlruFound entry hfound other hother

theorem World.Reserved.step (hreserved : world.Reserved) :
    (world.step rb call).Reserved := by
  constructor
  · rw [World.scanSlab_step]
    exact hreserved.scan.step call (Pc.scanTransfer _ _)
      (Action.scanRelates rb _ hreserved.scan.linkedNodup)
  · rw [World.lruSlab_step]
    exact hreserved.lru.step call (Pc.lruTransfer _ _)
      (Action.lruRelates rb _ hreserved.lru.linkedNodup)

omit [DecidableEq ι] in
theorem World.Owned.stepSafe (howned : world.Owned) : StepSafe world call where
  scanTouched := fun id hid =>
    howned.scan.heldKept call id (Pc.scanTouched_held _ id hid)
  lruTouched := fun id hid =>
    howned.lru.heldKept call id (Pc.lruTouched_held _ id hid)
  scanLinked := fun _ hrecord =>
    howned.scan.linkedKept _ (List.mem_map_of_mem hrecord)
  lruLinked := fun _ hentry =>
    howned.lru.linkedKept _ (List.mem_map_of_mem hentry)

/-- However many calls run on whatever files, in whatever order their steps
are taken: if no lookup finds a record that another call in progress holds, no
step touches a record that another call has erased or freed. -/
theorem stepSafe_of_lookupExclusive
    (cache : CacheState) (hscan : cache.scan.WellFormed)
    (hlru : cache.lru.WellFormed) (requests : ι → Request) (schedule : List ι)
    (hexclusive : Guarded (World.step rb) LookupExclusive
      (.start cache requests) schedule) :
    Guarded (World.step rb) StepSafe (.start cache requests) schedule := by
  apply hexclusive.strengthen World.Owned
  · intro world call howned hlookup
    exact howned.step hlookup
  · intro world call howned _
    exact howned.stepSafe
  · exact World.start_owned hscan hlru requests

end Step

/-- Two files are cached; a third is inserted while one of them is removed and
the other evicted, the steps taken in turn. -/
theorem stepSafe_of_lookupExclusive_three :
    let cache := [Call.insert ⟨1, 4, 1⟩ ⟨true, .atSecond 5, true⟩,
      .insert ⟨1, 6, 1⟩ ⟨true, .atSecond 6, true⟩].foldl (step linuxRbtree) .empty
    Guarded (World.step linuxRbtree) StepSafe
      (.start cache ![.insert ⟨1, 9, 1⟩ ⟨true, .atSecond 7, true⟩,
        .findRemove ⟨1, 6, 1⟩, .removeCacheEntry 1])
      ((List.replicate 14 [0, 1, 2]).flatten : List (Fin 3)) :=
  stepSafe_of_lookupExclusive _ ⟨by decide, by decide, by decide⟩
    ⟨by decide, by decide, by decide⟩ _ _ (by decide)

/-- Two removals of one file: the second looks the record up, the first runs
to its end and frees it, then the second reads it. -/
theorem findRemove_reads_freed_record :
    let cache := [Call.insert ⟨1, 4, 1⟩ ⟨true, .atSecond 5, true⟩].foldl
      (step linuxRbtree) .empty
    ¬ Guarded (World.step linuxRbtree) StepSafe
      (.start cache fun _ => .findRemove ⟨1, 4, 1⟩)
      (true :: List.replicate 8 false ++ [true]) := by
  decide

end LinuxKernelCode.ScanCache
