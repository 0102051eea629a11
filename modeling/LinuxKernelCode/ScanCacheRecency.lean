import LinuxKernelCode.RecencyList
import LinuxKernelCode.ScanCacheClock

/-!
# The cache as a recency list

On files of one device, with an increasing clock and successful allocations,
the two trees implement a recency list of files: the LRU tree is the list, in
time order, and the scan tree holds the same files by key.

The last section leaves the recency list: once `purge_scan_cache` has run on
its own the LRU tree holds stale records, and eviction stops at the first of
them that has no scan record.
-/

namespace LinuxKernelCode.ScanCache

open RedBlack Runs Recency

/-- The files of the LRU tree, oldest time stamp first. -/
def CacheState.lruFiles (state : CacheState) : List FileInfo :=
  state.lruTuples.map CacheTuple.file

/-- The files of the scan tree, in tree order. -/
def CacheState.scanFiles (state : CacheState) : List FileInfo :=
  state.scanTuples.map CacheTuple.file

abbrev FileList := RecencyList FileInfo.pair

/-- What each call means for the recency list.  `purge_scan_cache` alone has
no meaning there. -/
def FileList.execute (list : FileList) : Call → Reply × FileList
  | .insert filp _ => (.code 0, list.push filp)
  | .findRemove filp => (.found (decide (filp ∈ list.entries)), list.delete filp)
  | .removeCacheEntry count => (.done, list.dropOldest (max count 0).toNat)
  | .purgeScanCache => (.done, list)
  | .purgeCache => (.done, .empty)

/-- The LRU tree is the list and the scan tree holds the same files. -/
def CacheState.Holds (state : CacheState) (list : FileList) : Prop :=
  state.lruFiles = list.entries ∧ state.scanFiles.Perm list.entries

/-! ## The files of the two trees -/

theorem CacheState.lruFiles_eq (state : CacheState) :
    state.lruFiles = state.lru.records.map fun entry => entry.tuple.file := by
  unfold CacheState.lruFiles CacheState.lruTuples
  rw [List.map_map]
  rfl

theorem CacheState.scanFiles_eq (state : CacheState) :
    state.scanFiles = state.scan.records.map fun record => record.tuple.file := by
  unfold CacheState.scanFiles CacheState.scanTuples
  rw [List.map_map]
  rfl

theorem CacheState.Paired.scanFiles_perm
    {state : CacheState} (hpaired : state.Paired) :
    state.scanFiles.Perm state.lruFiles := by
  obtain ⟨htuples, ⟨_, hscan⟩, _, hlru⟩ := hpaired.coherent
  apply List.Perm.map
  apply (List.perm_ext_iff_of_nodup hscan.of_map hlru.of_map).mpr
  intro tuple
  rw [← List.mem_toFinset, htuples, List.mem_toFinset]

theorem CacheState.Paired.mem_lruFiles_iff
    {state : CacheState} (hpaired : state.Paired) {filp : FileInfo} :
    filp ∈ state.lruFiles ↔
      ∃ record ∈ state.scan.records, record.tuple.file = filp := by
  rw [← hpaired.scanFiles_perm.mem_iff, CacheState.scanFiles_eq, List.mem_map]

/-- The lookup by all three fields is exact for every file, of the device or
not. -/
theorem CacheState.Covered.find_iff
    {domain : BitVec 32} {state : CacheState} (hcovered : state.Covered)
    (hdomain : state.InDomain domain) (filp : FileInfo)
    (record : ScanCacheRecord) :
    findScanCacheRecord filp.key state = some record ↔
      record ∈ state.scan.records ∧ record.tuple.file = filp := by
  constructor
  · intro hfind
    obtain ⟨hrecord, hdev, hino, hgen⟩ := findScanCacheRecord_eq_some hfind
    refine ⟨hrecord, ?_⟩
    cases filp
    exact FileInfo.mk.injEq _ _ _ _ _ _ ▸ ⟨hdev, hino, hgen⟩
  · rintro ⟨hrecord, hfile⟩
    subst filp
    have hfilp : record.tuple.file.InDomain domain := hdomain record hrecord
    exact (findScanCacheRecord_file_iff hcovered.ranked
      (hdomain.descentOrdered hfilp) record).mpr ⟨hrecord, rfl⟩

theorem Evicts.lruRecords
    {state after : CacheState} {entry : LruCacheRecord}
    {record : ScanCacheRecord} (hevicts : Evicts entry record state after)
    (hsound : state.Sound) :
    state.lru.records = entry :: after.lru.records := by
  have holdest := hevicts.oldest
  cases hrecords : state.lru.records with
  | nil =>
      rw [hrecords] at holdest
      contradiction
  | cons first rest =>
      rw [hrecords, List.head?_cons, Option.some_inj] at holdest
      subst first
      rw [hevicts.lru.records_tail hsound.lru.wellFormed hrecords]

/-! ## One call -/

theorem InsertEffect.lruFiles
    {filp : FileInfo} {env : InsertEnv} {state after : CacheState} {ret : ℤ}
    (heffect : InsertEffect filp env state ret after) (hret : ret = 0)
    (hpaired : state.Paired) (hdescent : DescentOrdered filp state)
    (hafter : after.Sound) (hahead : ClockAhead state (.insert filp env)) :
    after.lruFiles =
      (state.lruFiles.filter fun other => other.pair ≠ filp.pair) ++ [filp] := by
  have hrecords := heffect.lru_records hret hpaired hdescent hafter hahead
  rw [CacheState.lruFiles_eq, CacheState.lruFiles_eq, hrecords, List.map_append,
    List.filter_map]
  congr 2
  apply List.filter_congr
  intro entry _
  simp only [Function.comp_apply, CacheTuple.keyed_iff_pair]

theorem FindRemoveEffect.lruFiles
    {filp : FileInfo} {state after : CacheState} {ret : Bool}
    (heffect : FindRemoveEffect filp state ret after) (hpaired : state.Paired)
    {domain : BitVec 32} (hdomain : state.InDomain domain) :
    ret = decide (filp ∈ state.lruFiles) ∧
      after.lruFiles = state.lruFiles.filter fun other => other ≠ filp := by
  have hexact := hpaired.toCovered.find_iff hdomain filp
  cases heffect with
  | absent hfind =>
      have hmissing : filp ∉ state.lruFiles := by
        rw [hpaired.mem_lruFiles_iff]
        rintro ⟨record, hfile⟩
        have hfound := (hexact record).mpr hfile
        rw [hfind] at hfound
        contradiction
      constructor
      · simp [hmissing]
      · symm
        apply List.filter_eq_self.mpr
        intro other hother
        apply decide_eq_true
        intro heq
        exact hmissing (heq ▸ hother)
  | @removed _ record partner hfind hpartner htime _ hlru =>
      obtain ⟨hrecord, hfile⟩ := (hexact record).mp hfind
      have hrecordKey : record.tuple.Keyed filp :=
        CacheTuple.keyed_iff_pair.mpr (congrArg FileInfo.pair hfile)
      have htuple := hpaired.partner_tuple hrecord hpartner htime
      have hmem : filp ∈ state.lruFiles :=
        hpaired.mem_lruFiles_iff.mpr ⟨record, hrecord, hfile⟩
      constructor
      · simp [hmem]
      · rw [CacheState.lruFiles_eq, CacheState.lruFiles_eq, hlru.records,
          List.filter_map]
        congr 1
        apply List.filter_congr
        intro entry hentry
        apply decide_eq_decide.mpr
        apply not_congr
        constructor
        · intro hid
          have heq := hpaired.sound.lru.wellFormed.eq_of_id_eq hentry hpartner
            hid
          subst entry
          exact (congrArg CacheTuple.file htuple).trans hfile
        · intro hentryFile
          have hkey : entry.tuple.Keyed filp :=
            CacheTuple.keyed_iff_pair.mpr (congrArg FileInfo.pair hentryFile)
          have heq := (hpaired.keyed_iff_partner hrecord hrecordKey hpartner
            htime hentry).mp hkey
          exact congrArg LruCacheRecord.id heq
  | unpaired hfind hmissing =>
      exact absurd (hpaired.stamped (findScanCacheRecord_eq_some hfind).1)
        hmissing

/-- In a paired state the loop of `remove_cache_entry` never stops early. -/
theorem removeCacheLoop_lruRecords
    (rb : Rbtree) {domain : BitVec 32} (missing : ℕ) {state : CacheState}
    (hregular : state.Regular domain) :
    (removeCacheLoop rb missing state).lru.records =
      state.lru.records.drop missing := by
  induction missing generalizing state with
  | zero => rfl
  | succ missing ih =>
      rcases removeCacheLoop_round rb missing hregular.1.sound with
        ⟨hempty, hstop⟩ | ⟨entry, holdest, hmissing, _⟩ |
        ⟨entry, record, after, hevicts, hnext⟩
      · rw [hstop, hempty, List.drop_nil]
      · obtain ⟨record, hrecord, htuple⟩ := hregular.1.mirrored entry
          (List.mem_of_mem_head? holdest)
        have hfound : findScanCacheRecord entry.key state = some record :=
          (hregular.1.toCovered.find_iff hregular.2 entry.tuple.file record).mpr
            ⟨hrecord, congrArg CacheTuple.file htuple⟩
        rw [hmissing] at hfound
        contradiction
      · have hafter : after.Regular domain := by
          refine ⟨hregular.1.evicts hevicts, ?_⟩
          intro other hother
          exact hregular.2 other (hevicts.scan.mem_iff.mp hother).1
        rw [hnext, ih hafter, hevicts.lruRecords hregular.1.sound,
          List.drop_succ_cons]

theorem removeCacheEntry_lruFiles
    (rb : Rbtree) {domain : BitVec 32} (count : ℤ) {state : CacheState}
    (hregular : state.Regular domain) :
    (removeCacheEntry rb count state).lruFiles =
      state.lruFiles.drop (max count 0).toNat := by
  rw [CacheState.lruFiles_eq, CacheState.lruFiles_eq, ← List.map_drop]
  congr 1
  unfold removeCacheEntry
  split_ifs with hcount
  · have hzero : (max count 0).toNat = 0 := by omega
    rw [hzero, List.drop_zero]
  · have hpositive : (max count 0).toNat = count.toNat := by omega
    rw [hpositive]
    exact removeCacheLoop_lruRecords rb count.toNat hregular

/-! ## The refinement -/

def Refines (domain : BitVec 32) (state : CacheState) (list : FileList) : Prop :=
  state.Regular domain ∧ state.lruFiles = list.entries

theorem refines_step
    (rb : Rbtree) {domain : BitVec 32} {state : CacheState} {list : FileList}
    (hrefines : Refines domain state list) {call : Call}
    (hregular : call.Regular domain) (hallocates : call.Allocates)
    (hahead : ClockAhead state call) :
    (execute rb state call).1 = (list.execute call).1 ∧
      Refines domain (execute rb state call).2 (list.execute call).2 := by
  obtain ⟨hstate, hfiles⟩ := hrefines
  have hnext : (execute rb state call).2.Regular domain := hstate.step rb hregular
  have hgoal : (execute rb state call).1 = (list.execute call).1 ∧
      (execute rb state call).2.lruFiles = (list.execute call).2.entries := by
    cases call with
    | insert filp env =>
        obtain ⟨ret, after, hresult, heffect, hsound⟩ :=
          insertScanCacheRecord_effect rb hstate.1.sound filp env
        have hdescent := hstate.2.descentOrdered hregular.1
        have hret := heffect.returns_zero hstate.1.toCovered hallocates
          hahead.clear
        have hafter := heffect.lruFiles hret hstate.1 hdescent hsound hahead
        rw [hfiles] at hafter
        simp only [execute, hresult]
        exact ⟨congrArg Reply.code hret, hafter⟩
    | findRemove filp =>
        obtain ⟨ret, after, hresult, heffect, _⟩ :=
          findRemoveScanCacheRecord_effect rb hstate.1.sound filp
        obtain ⟨hret, hafter⟩ := heffect.lruFiles hstate.1 hstate.2
        rw [hfiles] at hret hafter
        simp only [execute, hresult]
        exact ⟨congrArg Reply.found hret, hafter⟩
    | removeCacheEntry count =>
        refine ⟨rfl, ?_⟩
        refine (removeCacheEntry_lruFiles rb count hstate).trans ?_
        rw [hfiles]
        exact (RecencyList.dropOldest_entries _ _).symm
    | purgeScanCache => exact absurd hregular.2 id
    | purgeCache =>
        obtain ⟨_, _, hlru, _⟩ := purgeCache_spec rb hstate.1.sound
        refine ⟨rfl, ?_⟩
        simp [execute, CacheState.lruFiles_eq, hlru, FileList.execute,
          RecencyList.empty]
  exact ⟨hgoal.1, hnext, hgoal.2⟩

/-- The cache answers every run as the recency list does and holds the files
of the list in both trees, the LRU tree in the list's order. -/
theorem recency_refinement
    (rb : Rbtree) (domain : BitVec 32) (calls : List Call)
    (hdomain : ∀ call ∈ calls, call.InDomain domain)
    (hkeeps : ∀ call ∈ calls, call.KeepsPairs)
    (hallocates : ∀ call ∈ calls, call.Allocates)
    (hclock : IncreasingClock calls) :
    let cache := answers (execute rb) .empty calls
    let list := answers FileList.execute .empty calls
    cache.1 = list.1 ∧ cache.2.Holds list.2 := by
  have hcalls : Guarded (step rb)
      (fun _ call => call.Regular domain ∧ call.Allocates) .empty calls :=
    guarded_of_forall fun call hcall =>
      ⟨⟨hdomain call hcall, hkeeps call hcall⟩, hallocates call hcall⟩
  have hguarded := hcalls.and (increasing_run rb hclock)
  have hinit : Refines domain .empty (.empty : FileList) :=
    ⟨⟨CacheState.empty_paired, CacheState.empty_inDomain domain⟩, rfl⟩
  have hstep : ∀ state (list : FileList) call, Refines domain state list →
      (call.Regular domain ∧ call.Allocates) ∧ ClockAhead state call →
      (execute rb state call).1 = (list.execute call).1 ∧
        Refines domain (execute rb state call).2 (list.execute call).2 := by
    intro state list call hrefines hguard
    exact refines_step rb hrefines hguard.1.1 hguard.1.2 hguard.2
  obtain ⟨hanswers, hstate, hfiles⟩ := hguarded.simulation hstep hinit
  exact ⟨hanswers, hfiles, hfiles ▸ hstate.1.scanFiles_perm⟩

theorem recency_refinement_refreshed_run :
    let calls : List Call :=
      [.insert ⟨1, 7, 1⟩ ⟨true, .atSecond 1, true⟩,
        .insert ⟨1, 3, 1⟩ ⟨true, .atSecond 2, true⟩,
        .insert ⟨1, 7, 2⟩ ⟨true, .atSecond 3, true⟩,
        .findRemove ⟨1, 7, 1⟩, .removeCacheEntry 1]
    let cache := answers (execute linuxRbtree) .empty calls
    let list := answers FileList.execute .empty calls
    cache.1 = list.1 ∧ cache.2.Holds list.2 :=
  recency_refinement linuxRbtree 1 _ (by decide) (by decide) (by decide)
    (by decide)

/-! ## Eviction next to stale LRU records -/

/-- `remove_cache_entry` removes as many scan records as it is asked to, or
all of them. -/
def EvictsFully (rb : Rbtree) (count : ℤ) (state : CacheState) : Prop :=
  state.scan.records.length =
    (removeCacheEntry rb count state).scan.records.length +
      min count.toNat state.scan.records.length

/-- The oldest records of the LRU tree belong to different files, all of them
in the scan tree. -/
def CacheState.OldestCached (state : CacheState) (number : ℕ) : Prop :=
  (state.lruFiles.take number).Nodup ∧
    ∀ filp ∈ state.lruFiles.take number, filp ∈ state.scanFiles

instance (state : CacheState) (number : ℕ) :
    Decidable (state.OldestCached number) :=
  inferInstanceAs (Decidable (_ ∧ _))

/-- A round removes the file of the oldest LRU record from the scan tree. -/
theorem Evicts.mem_scanFiles_iff
    {domain : BitVec 32} {state after : CacheState} {entry : LruCacheRecord}
    {record : ScanCacheRecord} (hevicts : Evicts entry record state after)
    (hcovered : state.Covered) (hdomain : state.InDomain domain)
    {filp : FileInfo} :
    filp ∈ after.scanFiles ↔ filp ∈ state.scanFiles ∧ filp ≠ entry.tuple.file := by
  obtain ⟨hrecord, hfile⟩ := (hcovered.find_iff hdomain
    entry.tuple.file record).mp hevicts.found
  rw [CacheState.scanFiles_eq, CacheState.scanFiles_eq, List.mem_map,
    List.mem_map]
  constructor
  · rintro ⟨other, hother, heq⟩
    obtain ⟨hmem, hne⟩ := hevicts.scan.mem_iff.mp hother
    refine ⟨⟨other, hmem, heq⟩, ?_⟩
    intro hsame
    have hpair : other.tuple.file.pair = record.tuple.file.pair := by
      rw [heq, hsame, hfile]
    have hrecords := hcovered.eq_of_pair_eq hmem hrecord hpair
    exact hne (congrArg ScanCacheRecord.id hrecords)
  · rintro ⟨⟨other, hother, heq⟩, hne⟩
    refine ⟨other, hevicts.scan.mem_iff.mpr ⟨hother, ?_⟩, heq⟩
    intro hid
    have hrecords := hcovered.sound.scan.wellFormed.eq_of_id_eq hother hrecord
      hid
    exact hne (heq.symm.trans ((congrArg (fun found : ScanCacheRecord =>
      found.tuple.file) hrecords).trans hfile))

theorem Evicts.oldestCached_iff
    {domain : BitVec 32} {state after : CacheState} {entry : LruCacheRecord}
    {record : ScanCacheRecord} (hevicts : Evicts entry record state after)
    (hcovered : state.Covered) (hdomain : state.InDomain domain) (number : ℕ) :
    state.OldestCached (number + 1) ↔ after.OldestCached number := by
  have hmem : entry.tuple.file ∈ state.scanFiles := by
    obtain ⟨hrecord, hfile⟩ := (hcovered.find_iff hdomain
      entry.tuple.file record).mp hevicts.found
    rw [CacheState.scanFiles_eq]
    exact List.mem_map.mpr ⟨record, hrecord, hfile⟩
  have hfiles : state.lruFiles = entry.tuple.file :: after.lruFiles := by
    rw [CacheState.lruFiles_eq, CacheState.lruFiles_eq,
      hevicts.lruRecords hcovered.sound, List.map_cons]
  unfold CacheState.OldestCached
  rw [hfiles, List.take_succ_cons, List.nodup_cons, List.forall_mem_cons]
  constructor
  · rintro ⟨⟨hfresh, hnodup⟩, _, hall⟩
    refine ⟨hnodup, ?_⟩
    intro filp hfilp
    refine (hevicts.mem_scanFiles_iff hcovered hdomain).mpr
      ⟨hall filp hfilp, ?_⟩
    intro heq
    exact hfresh (heq ▸ hfilp)
  · rintro ⟨hnodup, hall⟩
    refine ⟨⟨?_, hnodup⟩, hmem, ?_⟩
    · intro hagain
      exact ((hevicts.mem_scanFiles_iff hcovered hdomain).mp
        (hall _ hagain)).2 rfl
    · intro filp hfilp
      exact ((hevicts.mem_scanFiles_iff hcovered hdomain).mp
        (hall filp hfilp)).1

theorem Evicts.scan_length
    {state after : CacheState} {entry : LruCacheRecord}
    {record : ScanCacheRecord} (hevicts : Evicts entry record state after)
    (hsound : state.Sound) :
    state.scan.records.length = after.scan.records.length + 1 := by
  have hmem := (findScanCacheRecord_eq_some hevicts.found).1
  have hids : state.scan.live.card = after.scan.live.card + 1 := by
    rw [hevicts.scan.live]
    exact (Finset.card_erase_add_one
      (hsound.scan.wellFormed.recordsLive record hmem)).symm
  rwa [hsound.scan.card_live, hevicts.sound.scan.card_live] at hids

/-- The loop of `remove_cache_entry` removes all it should exactly when no
stale record comes up. -/
theorem removeCacheLoop_evicts_iff
    (rb : Rbtree) {domain : BitVec 32} (missing : ℕ) {state : CacheState}
    (hcovered : state.Covered) (hdomain : state.InDomain domain) :
    state.scan.records.length =
        (removeCacheLoop rb missing state).scan.records.length +
          min missing state.scan.records.length ↔
      state.OldestCached (min missing state.scan.records.length) := by
  induction missing generalizing state with
  | zero => simp [removeCacheLoop, CacheState.OldestCached]
  | succ missing ih =>
      rcases removeCacheLoop_round rb missing hcovered.sound with
        ⟨hempty, hstop⟩ | ⟨entry, holdest, hmissing, hstop⟩ |
        ⟨entry, record, after, hevicts, hnext⟩
      · have hscan : state.scan.records = [] := by
          apply List.eq_nil_iff_forall_not_mem.mpr
          intro record hrecord
          obtain ⟨entry, hentry, _⟩ := hcovered.covered record hrecord
          rw [hempty] at hentry
          contradiction
        simp [hstop, hscan, CacheState.OldestCached]
      · rw [hstop]
        by_cases hscan : state.scan.records = []
        · simp [hscan, CacheState.OldestCached]
        · obtain ⟨number, hnumber⟩ : ∃ number,
              min (missing + 1) state.scan.records.length = number + 1 := by
            have hpositive := List.length_pos_iff.mpr hscan
            exact ⟨min (missing + 1) state.scan.records.length - 1, by omega⟩
          rw [hnumber]
          constructor
          · intro hlength
            omega
          · intro hcached
            exfalso
            have hfirst : entry.tuple.file ∈ state.lruFiles.take (number + 1) := by
              obtain ⟨rest, hrest⟩ := List.head?_eq_some_iff.mp holdest
              rw [CacheState.lruFiles_eq, hrest]
              simp
            have hfile := hcached.2 _ hfirst
            rw [CacheState.scanFiles_eq] at hfile
            obtain ⟨record, hrecord⟩ := List.mem_map.mp hfile
            have hfound : findScanCacheRecord entry.key state = some record :=
              (hcovered.find_iff hdomain entry.tuple.file record).mpr hrecord
            rw [hmissing] at hfound
            contradiction
      · have hafter : after.InDomain domain := by
          intro other hother
          exact hdomain other (hevicts.scan.mem_iff.mp hother).1
        have hlength := hevicts.scan_length hcovered.sound
        have hmin : min (missing + 1) state.scan.records.length =
            min missing after.scan.records.length + 1 := by omega
        rw [hnext, hmin, hevicts.oldestCached_iff hcovered hdomain,
          ← ih (hcovered.evicts hevicts) hafter]
        omega

theorem covered_run
    (rb : Rbtree) (domain : BitVec 32) {calls : List Call}
    (hcalls : ∀ call ∈ calls, call.InDomain domain) :
    (calls.foldl (step rb) .empty).Covered ∧
      (calls.foldl (step rb) .empty).InDomain domain := by
  have hguarded : Guarded (step rb) (fun _ call => call.InDomain domain) .empty
      calls := guarded_of_forall hcalls
  have hstep : ∀ state call, state.Covered ∧ state.InDomain domain →
      call.InDomain domain →
      (step rb state call).Covered ∧ (step rb state call).InDomain domain := by
    rintro state call ⟨hcovered, hdomain⟩ hcall
    refine ⟨hcovered.step rb ?_, hdomain.step hcovered.sound rb hcall⟩
    intro filp env heq
    subst call
    exact hdomain.descentOrdered hcall
  exact hguarded.invariant hstep
    ⟨CacheState.empty_covered, CacheState.empty_inDomain domain⟩

/-- After any calls, eviction removes the records it is asked to remove exactly
when the oldest LRU records belong to different cached files. -/
theorem removeCacheEntry_evictsFully_iff
    (rb : Rbtree) (domain : BitVec 32) (calls : List Call)
    (hdomain : ∀ call ∈ calls, call.InDomain domain)
    (count : ℤ) (hcount : 1 ≤ count) :
    let state := calls.foldl (step rb) .empty
    EvictsFully rb count state ↔
      state.OldestCached (min count.toNat state.scan.records.length) := by
  intro state
  obtain ⟨hcovered, hinDomain⟩ := covered_run rb domain hdomain
  have hloop : removeCacheEntry rb count state =
      removeCacheLoop rb count.toNat state := by
    unfold removeCacheEntry
    rw [if_neg (by omega)]
  unfold EvictsFully
  rw [hloop]
  exact removeCacheLoop_evicts_iff rb count.toNat hcovered hinDomain

/-- Two files cached after a purge of both trees are evicted. -/
theorem removeCacheEntry_evictsFully_iff_purged :
    EvictsFully linuxRbtree 2
      ([.insert ⟨1, 4, 1⟩ ⟨true, .atSecond 1, true⟩, .purgeCache,
        .insert ⟨1, 6, 1⟩ ⟨true, .atSecond 2, true⟩,
        .insert ⟨1, 5, 1⟩ ⟨true, .atSecond 3, true⟩].foldl
          (step linuxRbtree) .empty) :=
  (removeCacheEntry_evictsFully_iff linuxRbtree 1 _ (by decide) 2
    (by decide)).mpr (by decide)

/-- After `purge_scan_cache` alone the stale LRU record of the purged file
keeps the file cached later from being evicted. -/
theorem removeCacheEntry_blocked_by_stale_record :
    ¬ EvictsFully linuxRbtree 1
      ([.insert ⟨1, 4, 1⟩ ⟨true, .atSecond 1, true⟩, .purgeScanCache,
        .insert ⟨1, 6, 1⟩ ⟨true, .atSecond 2, true⟩].foldl
          (step linuxRbtree) .empty) := by
  unfold EvictsFully
  decide

end LinuxKernelCode.ScanCache
