import LinuxKernelCode.ScanCacheClock

/-!
# The cache as a finite map

The scan tree is meant to be a map from device and inode to generation, in
ascending order of its keys.  The comparison tables subtract unsigned numbers,
so that a smaller device compares as larger; a descent through the tree may
therefore leave the path that the order prescribes.  In a run whose descents
all stay on that path the cache is the map, and the enumeration of the tree is
ascending exactly in the runs whose insertions do.
-/

namespace LinuxKernelCode.ScanCache

open RedBlack Runs

abbrev FileMap := BitVec 32 × BitVec 64 → Option (BitVec 32)

/-- The calls on one file. -/
def Call.OnFile : Call → Prop
  | .insert _ _ => True
  | .findRemove _ => True
  | _ => False

instance : DecidablePred Call.OnFile
  | .insert _ _ => .isTrue trivial
  | .findRemove _ => .isTrue trivial
  | .removeCacheEntry _ => .isFalse id
  | .purgeScanCache => .isFalse id
  | .purgeCache => .isFalse id

/-- What the calls on one file mean for the map. -/
def FileMap.execute (map : FileMap) : Call → Reply × FileMap
  | .insert filp _ =>
      (.code 0, Function.update map filp.pair (some filp.inodeGeneration))
  | .findRemove filp =>
      if map filp.pair = some filp.inodeGeneration then
        (.found true, Function.update map filp.pair none)
      else (.found false, map)
  | _ => (.done, map)

/-- The records of the scan tree are the bindings of the map, one record for
each. -/
structure CacheState.Binds (state : CacheState) (map : FileMap) : Prop where
  bound : ∀ filp : FileInfo, map filp.pair = some filp.inodeGeneration ↔
    ∃ record ∈ state.scan.records, record.tuple.file = filp
  single : NoSharedKey state.scanTuples

/-- The descent of the call stays on the path that the order of the keys
prescribes. -/
def OrderedDescent (state : CacheState) : Call → Prop
  | .insert filp _ => DescentOrdered filp state
  | .findRemove filp => DescentOrdered filp state
  | _ => True

instance (state : CacheState) : DecidablePred (OrderedDescent state)
  | .insert filp _ => inferInstanceAs (Decidable (DescentOrdered filp state))
  | .findRemove filp => inferInstanceAs (Decidable (DescentOrdered filp state))
  | .removeCacheEntry _ => .isTrue trivial
  | .purgeScanCache => .isTrue trivial
  | .purgeCache => .isTrue trivial

theorem FileInfo.ext_pair {first second : FileInfo}
    (hpair : first.pair = second.pair)
    (hgeneration : first.inodeGeneration = second.inodeGeneration) :
    first = second := by
  cases first
  cases second
  obtain ⟨hdev, hino⟩ := Prod.mk.inj hpair
  cases hdev
  cases hino
  cases hgeneration
  rfl

/-! ## One call -/

theorem InsertEffect.binds
    {filp : FileInfo} {env : InsertEnv} {state after : CacheState} {ret : ℤ}
    {map : FileMap} (heffect : InsertEffect filp env state ret after)
    (hret : ret = 0) (hcovered : state.Covered)
    (hdescent : DescentOrdered filp state)
    (hbound : ∀ other : FileInfo,
      map other.pair = some other.inodeGeneration ↔
        ∃ record ∈ state.scan.records, record.tuple.file = other)
    (other : FileInfo) :
    Function.update map filp.pair (some filp.inodeGeneration) other.pair =
        some other.inodeGeneration ↔
      ∃ record ∈ after.scan.records, record.tuple.file = other := by
  have hmem {record : ScanCacheRecord} :
      record ∈ after.scan.records ↔ _ :=
    heffect.scan_mem_iff hret hcovered hdescent
  by_cases hpair : other.pair = filp.pair
  · rw [hpair, Function.update_self, Option.some_inj]
    constructor
    · intro hgeneration
      exact ⟨filp.record state.scan.next env.now, hmem.mpr (.inl rfl),
        FileInfo.ext_pair hpair.symm hgeneration⟩
    · rintro ⟨record, hrecord, hfile⟩
      rcases hmem.mp hrecord with hnew | ⟨_, hkey⟩
      · subst record
        exact congrArg FileInfo.inodeGeneration hfile
      · exact absurd (CacheTuple.keyed_iff_pair.mpr (hfile ▸ hpair)) hkey
  · rw [Function.update_of_ne hpair, hbound other]
    constructor
    · rintro ⟨record, hrecord, hfile⟩
      refine ⟨record, hmem.mpr (.inr ⟨hrecord, ?_⟩), hfile⟩
      intro hkey
      exact hpair (hfile ▸ CacheTuple.keyed_iff_pair.mp hkey)
    · rintro ⟨record, hrecord, hfile⟩
      rcases hmem.mp hrecord with hnew | ⟨hold, _⟩
      · subst record
        exact absurd (congrArg FileInfo.pair hfile).symm hpair
      · exact ⟨record, hold, hfile⟩

/-- After the removal of the record of a file its key is unbound and the other
bindings stay. -/
theorem Discards.binds
    {filp : FileInfo} {state : CacheState} {scan : Index ScanCacheRecord}
    {record : ScanCacheRecord} {map : FileMap} (hcovered : state.Covered)
    (hrecord : record ∈ state.scan.records) (hfile : record.tuple.file = filp)
    (hscan : Index.Discards record state.scan scan)
    (hbound : ∀ other : FileInfo,
      map other.pair = some other.inodeGeneration ↔
        ∃ record ∈ state.scan.records, record.tuple.file = other)
    (other : FileInfo) :
    Function.update map filp.pair none other.pair =
        some other.inodeGeneration ↔
      ∃ record ∈ scan.records, record.tuple.file = other := by
  by_cases hpair : other.pair = filp.pair
  · rw [hpair, Function.update_self]
    constructor
    · intro hnone
      contradiction
    · rintro ⟨found, hfound, hfoundFile⟩
      obtain ⟨hmem, hne⟩ := hscan.mem_iff.mp hfound
      have hsame : found.tuple.file.pair = record.tuple.file.pair := by
        rw [hfoundFile, hfile, hpair]
      have heq := hcovered.eq_of_pair_eq hmem hrecord hsame
      exact absurd (congrArg ScanCacheRecord.id heq) hne
  · rw [Function.update_of_ne hpair, hbound other]
    constructor
    · rintro ⟨found, hfound, hfoundFile⟩
      refine ⟨found, hscan.mem_iff.mpr ⟨hfound, ?_⟩, hfoundFile⟩
      intro hid
      have heq := hcovered.sound.scan.wellFormed.eq_of_id_eq hfound hrecord hid
      subst found
      exact hpair (congrArg FileInfo.pair (hfoundFile.symm.trans hfile))
    · rintro ⟨found, hfound, hfoundFile⟩
      exact ⟨found, (hscan.mem_iff.mp hfound).1, hfoundFile⟩

theorem binds_step
    (rb : Rbtree) {state : CacheState} {map : FileMap}
    (hcovered : state.Covered) (hbinds : state.Binds map) {call : Call}
    (hfile : call.OnFile) (hallocates : call.Allocates)
    (hahead : ClockAhead state call) (hordered : OrderedDescent state call) :
    (execute rb state call).1 = (map.execute call).1 ∧
      (execute rb state call).2.Binds (map.execute call).2 := by
  have hnext : (execute rb state call).2.Covered := by
    apply hcovered.step rb
    intro filp env heq
    subst call
    exact hordered
  have hsingle := hnext.noSharedKey
  cases call with
  | insert filp env =>
      obtain ⟨ret, after, hresult, heffect, _⟩ :=
        insertScanCacheRecord_effect rb hcovered.sound filp env
      have hret := heffect.returns_zero hcovered hallocates hahead.clear
      have hbound := heffect.binds hret hcovered hordered hbinds.bound
      simp only [execute, hresult] at hsingle ⊢
      exact ⟨congrArg Reply.code hret, hbound, hsingle⟩
  | findRemove filp =>
      obtain ⟨ret, after, hresult, heffect, _⟩ :=
        findRemoveScanCacheRecord_effect rb hcovered.sound filp
      have hexact := findScanCacheRecord_file_iff hcovered.ranked hordered
      simp only [execute, hresult, FileMap.execute] at hsingle ⊢
      cases heffect with
      | absent hfind =>
          have hunbound : map filp.pair ≠ some filp.inodeGeneration := by
            intro hbound
            obtain ⟨record, hrecord⟩ := (hbinds.bound filp).mp hbound
            have hfound := (hexact record).mpr hrecord
            rw [hfind] at hfound
            contradiction
          rw [if_neg hunbound]
          exact ⟨rfl, hbinds⟩
      | @removed _ record _ hfind _ _ hscan =>
          obtain ⟨hrecord, hrecordFile⟩ := (hexact record).mp hfind
          have hbound : map filp.pair = some filp.inodeGeneration :=
            (hbinds.bound filp).mpr ⟨record, hrecord, hrecordFile⟩
          rw [if_pos hbound]
          exact ⟨rfl, Discards.binds hcovered hrecord hrecordFile hscan
            hbinds.bound, hsingle⟩
      | unpaired hfind hmissing =>
          exact absurd (hcovered.stamped (findScanCacheRecord_eq_some hfind).1)
            hmissing
  | removeCacheEntry count => exact absurd hfile id
  | purgeScanCache => exact absurd hfile id
  | purgeCache => exact absurd hfile id

/-! ## Runs -/

/-- In every run whose descents stay on the prescribed path the cache answers
as the map does, and its scan tree holds the bindings of the map. -/
theorem map_refinement
    (rb : Rbtree) (calls : List Call)
    (hfiles : ∀ call ∈ calls, call.OnFile)
    (hallocates : ∀ call ∈ calls, call.Allocates)
    (hclock : IncreasingClock calls)
    (hordered : Guarded (step rb) OrderedDescent .empty calls) :
    let cache := answers (execute rb) .empty calls
    let map := answers FileMap.execute (fun _ => none) calls
    cache.1 = map.1 ∧ cache.2.Binds map.2 := by
  have hcalls : Guarded (step rb)
      (fun _ call => call.OnFile ∧ call.Allocates) .empty calls :=
    guarded_of_forall fun call hcall =>
      ⟨hfiles call hcall, hallocates call hcall⟩
  have hguarded := (hcalls.and (increasing_run rb hclock)).and hordered
  have hinit : CacheState.empty.Covered ∧
      CacheState.empty.Binds (fun _ => none) := by
    refine ⟨CacheState.empty_covered, ?_, CacheState.empty_covered.noSharedKey⟩
    intro filp
    simp [CacheState.empty, Index.empty, Index.records]
  have hstep : ∀ state (map : FileMap) call,
      state.Covered ∧ state.Binds map →
      ((call.OnFile ∧ call.Allocates) ∧ ClockAhead state call) ∧
        OrderedDescent state call →
      (execute rb state call).1 = (map.execute call).1 ∧
        (execute rb state call).2.Covered ∧
        (execute rb state call).2.Binds (map.execute call).2 := by
    rintro state map call ⟨hcovered, hbinds⟩ ⟨⟨⟨hfile, halloc⟩, hahead⟩, hpath⟩
    obtain ⟨hanswer, hnext⟩ :=
      binds_step rb hcovered hbinds hfile halloc hahead hpath
    refine ⟨hanswer, ?_, hnext⟩
    apply hcovered.step rb
    intro filp env heq
    subst call
    exact hpath
  obtain ⟨hanswers, _, hbinds⟩ := hguarded.simulation hstep hinit
  exact ⟨hanswers, hbinds⟩

/-- Two devices in ascending order. -/
theorem map_refinement_two_devices :
    let calls : List Call :=
      [.insert ⟨1, 9, 1⟩ ⟨true, .atSecond 1, true⟩,
        .insert ⟨2, 4, 1⟩ ⟨true, .atSecond 2, true⟩,
        .insert ⟨2, 4, 7⟩ ⟨true, .atSecond 3, true⟩,
        .findRemove ⟨2, 4, 1⟩, .findRemove ⟨2, 4, 7⟩]
    let cache := answers (execute linuxRbtree) .empty calls
    let map := answers FileMap.execute (fun _ => none) calls
    cache.1 = map.1 ∧ cache.2.Binds map.2 :=
  map_refinement linuxRbtree _ (by decide) (by decide) (by decide) (by decide)

/-- After three devices the rebalanced tree has the second at its root, and
the lookup of the first goes to the right of it. -/
theorem map_refinement_fails_after_rebalancing :
    let calls : List Call :=
      [.insert ⟨1, 1, 1⟩ ⟨true, .atSecond 1, true⟩,
        .insert ⟨2, 1, 1⟩ ⟨true, .atSecond 2, true⟩,
        .insert ⟨3, 1, 1⟩ ⟨true, .atSecond 3, true⟩,
        .findRemove ⟨1, 1, 1⟩]
    (answers (execute linuxRbtree) .empty calls).1 ≠
      (answers FileMap.execute (fun _ => none) calls).1 := by
  decide

/-! ## Enumeration of the scan tree -/

/-- The lexicographic order of device and inode, as unsigned numbers. -/
def ScanCacheRecord.LexLt (first second : ScanCacheRecord) : Prop :=
  first.devId < second.devId ∨
    first.devId = second.devId ∧ first.inodeNumber < second.inodeNumber

instance (first second : ScanCacheRecord) : Decidable (first.LexLt second) :=
  inferInstanceAs (Decidable (_ ∨ _))

/-- The records visited by `RB_FIRST` and then `RB_NEXT` up to the null
pointer. -/
def CacheState.enumeration (state : CacheState) : List ScanCacheRecord :=
  walk (state.scan.records.length + 1) (state.scan.tree.first .root)

structure EnumeratesSorted (state : CacheState) : Prop where
  once : ∀ record ∈ state.scan.records, state.enumeration.count record = 1
  cached : ∀ record ∈ state.enumeration, record ∈ state.scan.records
  ascending : state.enumeration.Pairwise ScanCacheRecord.LexLt
  last : ∀ record ∈ state.scan.records, ∃ greatest,
    state.scan.rbLast = some greatest ∧
      (record = greatest ∨ record.LexLt greatest)

/-- The descent of an insertion stays on the path that the order of the keys
prescribes. -/
def OrderedInsertion (state : CacheState) : Call → Prop
  | .insert filp _ => DescentOrdered filp state
  | _ => True

instance (state : CacheState) : DecidablePred (OrderedInsertion state)
  | .insert filp _ => inferInstanceAs (Decidable (DescentOrdered filp state))
  | .findRemove _ => .isTrue trivial
  | .removeCacheEntry _ => .isTrue trivial
  | .purgeScanCache => .isTrue trivial
  | .purgeCache => .isTrue trivial

theorem ScanCacheRecord.lexLt_iff_rank {first second : ScanCacheRecord} :
    first.LexLt second ↔ first.rank < second.rank := by
  have hfirst := first.inodeNumber.isLt
  have hsecond := second.inodeNumber.isLt
  unfold ScanCacheRecord.LexLt ScanCacheRecord.rank keyRank
  rw [BitVec.lt_def, BitVec.lt_def, ← BitVec.toNat_inj]
  omega

theorem CacheState.enumeration_eq (state : CacheState) :
    state.enumeration = state.scan.records :=
  walk_first state.scan.tree _ (Nat.le_succ _)

theorem Index.rbLast_eq (index : Index ScanCacheRecord) :
    index.rbLast = index.records.getLast? :=
  RbTree.last_value index.tree .root

theorem enumeratesSorted_iff {state : CacheState} :
    EnumeratesSorted state ↔
      Ranked ScanCacheRecord.rank state.scan.records := by
  have hpairwise : state.enumeration.Pairwise ScanCacheRecord.LexLt ↔
      Ranked ScanCacheRecord.rank state.scan.records := by
    rw [CacheState.enumeration_eq]
    exact List.Pairwise.iff fun _ _ => ScanCacheRecord.lexLt_iff_rank
  constructor
  · intro hsorted
    exact hpairwise.mp hsorted.ascending
  · intro hranked
    have hnodup : state.scan.records.Nodup := hranked.nodup_map.of_map _
    constructor
    · intro record hrecord
      rw [CacheState.enumeration_eq]
      exact List.count_eq_one_of_mem hnodup hrecord
    · intro record hrecord
      rwa [CacheState.enumeration_eq] at hrecord
    · exact hpairwise.mpr hranked
    · intro record hrecord
      have hne := List.ne_nil_of_mem hrecord
      refine ⟨state.scan.records.getLast hne, ?_, ?_⟩
      · rw [Index.rbLast_eq]
        exact List.getLast?_eq_some_getLast hne
      · rcases List.mem_iff_append.mp hrecord with ⟨before, after, hsplit⟩
        unfold Ranked at hranked
        cases hafter : after.getLast? with
        | none =>
            left
            have hnil := List.getLast?_eq_none_iff.mp hafter
            simp [hsplit, hnil]
        | some greatest =>
            right
            have hmem := List.mem_of_getLast? hafter
            have hlast : state.scan.records.getLast hne = greatest := by
              apply Option.some_inj.mp
              rw [← List.getLast?_eq_some_getLast, hsplit,
                List.getLast?_append, List.getLast?_cons, hafter]
              rfl
            rw [hsplit, List.pairwise_append, List.pairwise_cons] at hranked
            rw [hlast]
            exact ScanCacheRecord.lexLt_iff_rank.mpr
              (hranked.2.1.1 greatest hmem)

/-- In a sorted tree an insertion whose descent leaves the prescribed path
breaks the order. -/
theorem InsertEffect.descentOrdered_of_ranked
    {filp : FileInfo} {env : InsertEnv} {state after : CacheState} {ret : ℤ}
    (heffect : InsertEffect filp env state ret after) (hret : ret = 0)
    (hranked : Ranked ScanCacheRecord.rank state.scan.records)
    (hafter : Ranked ScanCacheRecord.rank after.scan.records) :
    DescentOrdered filp state := by
  cases heffect with
  | noMemory => exact absurd hret (by decide)
  | rejected => exact absurd hret (by decide)
  | stored _ _ _ _ hslot _ hscan =>
      by_contra hdescent
      have hmisplaced := descendSlot_misplaced hslot hdescent
      rw [hscan] at hafter
      exact not_ranked_insert hmisplaced hafter
  | refreshed _ hlookup =>
      exact descentAgrees_of_find hranked hlookup
        (FileInfo.rank_eq_iff.mpr (scanLookup_eq_some hlookup).2)
  | dropped => exact absurd hret (by decide)
  | orphaned => exact absurd hret (by decide)

theorem enumeratesSorted_step_iff
    (rb : Rbtree) {state : CacheState} (hcovered : state.Covered) {call : Call}
    (hfile : call.OnFile) (hallocates : call.Allocates)
    (hahead : ClockAhead state call) :
    EnumeratesSorted (step rb state call) ↔ OrderedInsertion state call := by
  rw [enumeratesSorted_iff]
  constructor
  · intro hranked
    cases call with
    | insert filp env =>
        obtain ⟨ret, after, hresult, heffect, _⟩ :=
          insertScanCacheRecord_effect rb hcovered.sound filp env
        have hret := heffect.returns_zero hcovered hallocates hahead.clear
        simp only [step, execute, hresult] at hranked
        exact heffect.descentOrdered_of_ranked hret hcovered.ranked hranked
    | findRemove filp => trivial
    | removeCacheEntry count => exact absurd hfile id
    | purgeScanCache => exact absurd hfile id
    | purgeCache => exact absurd hfile id
  · intro hordered
    have hnext : (step rb state call).Covered := by
      apply hcovered.step rb
      intro filp env heq
      subst call
      exact hordered
    exact hnext.ranked

/-- The enumeration is sorted and complete all along a run exactly when every
insertion of the run stays on the prescribed path. -/
theorem enumeratesSorted_always_iff
    (rb : Rbtree) (calls : List Call)
    (hfiles : ∀ call ∈ calls, call.OnFile)
    (hallocates : ∀ call ∈ calls, call.Allocates)
    (hclock : IncreasingClock calls) :
    Always (step rb) EnumeratesSorted .empty calls ↔
      Guarded (step rb) OrderedInsertion .empty calls := by
  have hcalls : Guarded (step rb)
      (fun _ call => call.OnFile ∧ call.Allocates) .empty calls :=
    guarded_of_forall fun call hcall =>
      ⟨hfiles call hcall, hallocates call hcall⟩
  have hguarded := hcalls.and (increasing_run rb hclock)
  apply always_iff_guarded hguarded CacheState.Covered
  · rintro state call hcovered ⟨⟨hfile, halloc⟩, hahead⟩ hsorted
    apply hcovered.step rb
    intro filp env heq
    subst call
    exact (enumeratesSorted_step_iff rb hcovered hfile halloc hahead).mp hsorted
  · rintro state call hcovered ⟨⟨hfile, halloc⟩, hahead⟩
    exact enumeratesSorted_step_iff rb hcovered hfile halloc hahead
  · exact CacheState.empty_covered
  · exact enumeratesSorted_iff.mpr CacheState.empty_covered.ranked

theorem enumeratesSorted_always_iff_ascending_devices :
    Always (step linuxRbtree) EnumeratesSorted .empty
      [.insert ⟨1, 9, 1⟩ ⟨true, .atSecond 1, true⟩,
        .insert ⟨2, 4, 1⟩ ⟨true, .atSecond 2, true⟩,
        .insert ⟨3, 4, 1⟩ ⟨true, .atSecond 3, true⟩,
        .findRemove ⟨1, 9, 1⟩] :=
  (enumeratesSorted_always_iff linuxRbtree _ (by decide) (by decide)
    (by decide)).mpr (by decide)

/-- The smaller device is placed after the larger one. -/
theorem enumeration_descends_on_smaller_device :
    ¬ Always (step linuxRbtree) EnumeratesSorted .empty
      [.insert ⟨2, 1, 1⟩ ⟨true, .atSecond 1, true⟩,
        .insert ⟨1, 1, 1⟩ ⟨true, .atSecond 2, true⟩] := by
  rintro ⟨_, _, hsorted⟩
  exact absurd hsorted.ascending (by decide)

end LinuxKernelCode.ScanCache
