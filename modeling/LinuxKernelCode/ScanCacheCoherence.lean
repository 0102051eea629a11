import LinuxKernelCode.StepRuns
import LinuxKernelCode.RedBlackRebalance
import LinuxKernelCode.ScanCacheInvariant

/-!
# Coherence of the two trees

On files of one device the two trees hold the same tuples after every call,
whatever the clock returns and whichever allocations fail.  This module states
that, and says exactly when an insertion keeps what was cached: with both
allocations an insertion is lost when another file already carries the time
stamp, and a failing insertion leaves the trees alone unless it was refreshing
a cached file.
-/

namespace LinuxKernelCode.ScanCache

open RedBlack Runs

/-- The tuple belongs to the device and inode of the file. -/
def CacheTuple.Keyed (filp : FileInfo) (tuple : CacheTuple) : Prop :=
  tuple.devId = filp.devId ∧ tuple.inodeNumber = filp.inodeNumber

instance (filp : FileInfo) : DecidablePred (CacheTuple.Keyed filp) :=
  fun tuple => inferInstanceAs (Decidable (tuple.devId = filp.devId ∧ _))

def CacheTuple.file (tuple : CacheTuple) : FileInfo :=
  ⟨tuple.devId, tuple.inodeNumber, tuple.inodeGeneration⟩

def FileInfo.pair (filp : FileInfo) : BitVec 32 × BitVec 64 :=
  (filp.devId, filp.inodeNumber)

theorem CacheTuple.keyed_iff_pair {filp : FileInfo} {tuple : CacheTuple} :
    tuple.Keyed filp ↔ tuple.file.pair = filp.pair := by
  unfold CacheTuple.Keyed FileInfo.pair CacheTuple.file
  exact Prod.mk_inj.symm

/-- The fields of the records of the scan tree and of the LRU tree, in tree
order. -/
def CacheState.scanTuples (state : CacheState) : List CacheTuple :=
  state.scan.records.map ScanCacheRecord.tuple

def CacheState.lruTuples (state : CacheState) : List CacheTuple :=
  state.lru.records.map LruCacheRecord.tuple

def NoSharedKey (tuples : List CacheTuple) : Prop :=
  (tuples.map fun tuple => (tuple.devId, tuple.inodeNumber)).Nodup

def NoSharedTime (tuples : List CacheTuple) : Prop :=
  (tuples.map CacheTuple.timeStamp).Nodup

def TwoIndexCoherent (state : CacheState) : Prop :=
  state.scanTuples.toFinset = state.lruTuples.toFinset ∧
    (NoSharedKey state.scanTuples ∧ NoSharedTime state.scanTuples) ∧
    NoSharedKey state.lruTuples ∧ NoSharedTime state.lruTuples

/-! ## Runs on the files of one device -/

/-- The calls the runs of this module are made of. -/
def Call.Regular (domain : BitVec 32) (call : Call) : Prop :=
  call.InDomain domain ∧ call.KeepsPairs

instance (domain : BitVec 32) : DecidablePred (Call.Regular domain) :=
  fun _ => inferInstanceAs (Decidable (_ ∧ _))

def CacheState.Regular (domain : BitVec 32) (state : CacheState) : Prop :=
  state.Paired ∧ state.InDomain domain

theorem CacheState.empty_inDomain (domain : BitVec 32) :
    CacheState.empty.InDomain domain := by
  intro record hrecord
  simp [CacheState.empty, Index.empty, Index.records] at hrecord

theorem CacheState.Regular.step
    {domain : BitVec 32} {state : CacheState} (hregular : state.Regular domain)
    (rb : Rbtree) {call : Call} (hcall : call.Regular domain) :
    (step rb state call).Regular domain := by
  constructor
  · apply hregular.1.step rb hcall.2
    intro filp env heq
    subst call
    exact hregular.2.descentOrdered hcall.1
  · exact hregular.2.step hregular.1.sound rb hcall.1

theorem regular_run
    (rb : Rbtree) (domain : BitVec 32) {calls : List Call}
    (hcalls : ∀ call ∈ calls, call.Regular domain) :
    (calls.foldl (step rb) .empty).Regular domain := by
  have hguarded : Guarded (step rb) (fun _ call => call.Regular domain) .empty
      calls := guarded_of_forall hcalls
  apply hguarded.invariant
  · intro state call hregular hcall
    exact hregular.step rb hcall
  · exact ⟨CacheState.empty_paired, CacheState.empty_inDomain domain⟩

/-! ## Coherence -/

theorem CacheState.Covered.eq_of_pair_eq
    {state : CacheState} (hcovered : state.Covered)
    {first second : ScanCacheRecord}
    (hfirst : first ∈ state.scan.records) (hsecond : second ∈ state.scan.records)
    (heq : first.tuple.file.pair = second.tuple.file.pair) : first = second := by
  obtain ⟨hdev, hino⟩ := Prod.mk.inj heq
  exact hcovered.ranked.eq_of_rank_eq hfirst hsecond
    (keyRank_inj.mpr ⟨hdev, hino⟩)

theorem CacheState.Covered.noSharedKey
    {state : CacheState} (hcovered : state.Covered) :
    NoSharedKey state.scanTuples := by
  unfold NoSharedKey CacheState.scanTuples
  rw [List.map_map]
  apply List.Nodup.map_on
  · intro first hfirst second hsecond heq
    exact hcovered.eq_of_pair_eq hfirst hsecond heq
  · exact hcovered.ranked.nodup_map.of_map _

theorem CacheState.Paired.scanTimes
    {state : CacheState} (hpaired : state.Paired) :
    NoSharedTime state.scanTuples := by
  unfold NoSharedTime CacheState.scanTuples
  rw [List.map_map]
  apply List.Nodup.map_on
  · intro first hfirst second hsecond heq
    obtain ⟨entry, hentry, htuple⟩ := hpaired.covered first hfirst
    have htime : entry.timeStamp = second.timeStamp :=
      (congrArg CacheTuple.timeStamp htuple).trans heq
    have hsame := hpaired.partner_tuple hsecond hentry htime
    exact hpaired.toCovered.eq_of_tuple_eq hfirst hsecond
      (htuple.symm.trans hsame)
  · exact (hpaired.ranked.nodup_map).of_map _

theorem CacheState.Paired.lruKeys
    {state : CacheState} (hpaired : state.Paired) :
    NoSharedKey state.lruTuples := by
  unfold NoSharedKey CacheState.lruTuples
  rw [List.map_map]
  apply List.Nodup.map_on
  · intro first hfirst second hsecond heq
    obtain ⟨record, hrecord, htuple⟩ := hpaired.mirrored first hfirst
    obtain ⟨other, hother, htupleOther⟩ := hpaired.mirrored second hsecond
    have hsame : record = other := by
      apply hpaired.eq_of_pair_eq hrecord hother
      rw [htuple, htupleOther]
      exact heq
    subst other
    exact hpaired.eq_of_tuple_eq hfirst hsecond (htuple.symm.trans htupleOther)
  · exact (hpaired.sound.lru.ranked.nodup_map).of_map _

theorem CacheState.Paired.coherent
    {state : CacheState} (hpaired : state.Paired) : TwoIndexCoherent state := by
  refine ⟨?_, ⟨hpaired.noSharedKey, hpaired.scanTimes⟩, hpaired.lruKeys, ?_⟩
  · ext tuple
    simp only [CacheState.scanTuples, CacheState.lruTuples, List.mem_toFinset,
      List.mem_map]
    constructor
    · rintro ⟨record, hrecord, heq⟩
      obtain ⟨entry, hentry, htuple⟩ := hpaired.covered record hrecord
      exact ⟨entry, hentry, htuple.trans heq⟩
    · rintro ⟨entry, hentry, heq⟩
      obtain ⟨record, hrecord, htuple⟩ := hpaired.mirrored entry hentry
      exact ⟨record, hrecord, htuple.trans heq⟩
  · unfold NoSharedTime CacheState.lruTuples
    rw [List.map_map]
    apply List.Nodup.map_on
    · intro first hfirst second hsecond heq
      exact hpaired.sound.lru.eq_of_timeStamp_eq hfirst hsecond heq
    · exact (hpaired.sound.lru.ranked.nodup_map).of_map _

/-- Whatever the clock returns and whichever allocations fail, the two trees
are coherent after every call. -/
theorem twoIndexCoherent_always
    (rb : Rbtree) (domain : BitVec 32) (calls : List Call)
    (hdomain : ∀ call ∈ calls, call.InDomain domain)
    (hkeeps : ∀ call ∈ calls, call.KeepsPairs) :
    Always (step rb) TwoIndexCoherent .empty calls := by
  have hguarded : Guarded (step rb) (fun _ call => call.Regular domain) .empty
      calls := guarded_of_forall fun call hcall =>
    ⟨hdomain call hcall, hkeeps call hcall⟩
  apply hguarded.always (CacheState.Regular domain)
  · intro state call hregular hcall
    exact hregular.step rb hcall
  · intro state hregular
    exact hregular.1.coherent
  · exact ⟨CacheState.empty_paired, CacheState.empty_inDomain domain⟩

/-- The clock at a whole second. -/
def Timespec.atSecond (seconds : BitVec 32) : Timespec :=
  ⟨seconds.setWidth 64, 0, by
    have := seconds.isLt
    rw [BitVec.toNat_setWidth]
    omega, by decide⟩

/-- A run with a repeated clock reading, a clock that goes back and both kinds
of failing allocations. -/
theorem twoIndexCoherent_always_mixed_run :
    Always (step linuxRbtree) TwoIndexCoherent .empty
      [.insert ⟨1, 7, 1⟩ ⟨true, .atSecond 5, true⟩,
        .insert ⟨1, 3, 1⟩ ⟨true, .atSecond 5, true⟩,
        .insert ⟨1, 3, 1⟩ ⟨true, .atSecond 2, true⟩,
        .insert ⟨1, 7, 2⟩ ⟨true, .atSecond 9, false⟩,
        .insert ⟨1, 9, 1⟩ ⟨false, .atSecond 9, true⟩,
        .findRemove ⟨1, 3, 1⟩, .removeCacheEntry 4, .purgeCache] :=
  twoIndexCoherent_always linuxRbtree 1 _ (by decide) (by decide)

/-! ## What the lookups find -/

/-- In an ordered tree the lookup by all three fields finds the file. -/
theorem findScanCacheRecord_file_iff
    {state : CacheState} {filp : FileInfo}
    (hranked : Ranked ScanCacheRecord.rank state.scan.records)
    (hdescent : DescentOrdered filp state) (record : ScanCacheRecord) :
    findScanCacheRecord filp.key state = some record ↔
      record ∈ state.scan.records ∧ record.tuple.file = filp := by
  rw [findScanCacheRecord_iff hranked hdescent]
  apply and_congr Iff.rfl
  rw [FileInfo.rank_eq_iff]
  cases filp
  unfold CacheTuple.file
  rw [FileInfo.mk.injEq, and_assoc]
  rfl

section Found

variable {domain : BitVec 32} {state : CacheState}
  (hregular : state.Regular domain) {filp : FileInfo}

include hregular

/-- The lookup of an insertion is exact for every file, of the device or not. -/
theorem CacheState.Regular.lookup_iff (record : ScanCacheRecord) :
    scanLookup filp state = some record ↔
      record ∈ state.scan.records ∧ record.tuple.Keyed filp := by
  constructor
  · intro hlookup
    exact scanLookup_eq_some hlookup
  · rintro ⟨hrecord, hdev, hino⟩
    have hdomain := hregular.2 record hrecord
    have hfilp : filp.InDomain domain := by
      unfold FileInfo.InDomain
      rw [← hdev, ← hino]
      exact hdomain
    have hdescent := hregular.2.descentOrdered hfilp
    exact (scanLookup_iff hregular.1.ranked hdescent record).mpr
      ⟨hrecord, FileInfo.rank_eq_iff.mpr ⟨hdev, hino⟩⟩

theorem CacheState.Regular.not_keyed_of_lookup_none
    (hlookup : scanLookup filp state = none) {record : ScanCacheRecord}
    (hrecord : record ∈ state.scan.records) : ¬ record.tuple.Keyed filp := by
  intro hkey
  have hfound := (hregular.lookup_iff record).mpr ⟨hrecord, hkey⟩
  rw [hlookup] at hfound
  contradiction

theorem CacheState.Regular.entry_not_keyed_of_lookup_none
    (hlookup : scanLookup filp state = none) {entry : LruCacheRecord}
    (hentry : entry ∈ state.lru.records) : ¬ entry.tuple.Keyed filp := by
  obtain ⟨record, hrecord, htuple⟩ := hregular.1.mirrored entry hentry
  rw [← htuple]
  exact hregular.not_keyed_of_lookup_none hlookup hrecord

end Found

/-- The LRU record of a file is the partner of its scan record. -/
theorem CacheState.Paired.keyed_iff_partner
    {state : CacheState} (hpaired : state.Paired) {filp : FileInfo}
    {old : ScanCacheRecord} {partner : LruCacheRecord}
    (hold : old ∈ state.scan.records) (hkey : old.tuple.Keyed filp)
    (hpartner : partner ∈ state.lru.records)
    (htime : partner.timeStamp = old.timeStamp)
    {entry : LruCacheRecord} (hentry : entry ∈ state.lru.records) :
    entry.tuple.Keyed filp ↔ entry = partner := by
  have htuple := hpaired.partner_tuple hold hpartner htime
  constructor
  · intro hentryKey
    obtain ⟨record, hrecord, hsame⟩ := hpaired.mirrored entry hentry
    have hrecordKey : record.tuple.Keyed filp := hsame ▸ hentryKey
    have heq : record = old := by
      apply hpaired.ranked.eq_of_rank_eq hrecord hold
      apply keyRank_inj.mpr
      exact ⟨hrecordKey.1.trans hkey.1.symm, hrecordKey.2.trans hkey.2.symm⟩
    subst record
    exact hpaired.eq_of_tuple_eq hentry hpartner (hsame.symm.trans htuple.symm)
  · intro heq
    subst entry
    rw [htuple]
    exact hkey

/-! ## Insertions that are not lost -/

/-- The insertion succeeds, caches the file and keeps every other file. -/
structure InsertKept
    (filp : FileInfo) (state : CacheState) (ret : ℤ) (after : CacheState) :
    Prop where
  returns : ret = 0
  inScan : ∃ record ∈ after.scan.records, record.tuple.file = filp
  inLru : ∃ entry ∈ after.lru.records, entry.tuple.file = filp
  scanKept : ∀ record ∈ state.scan.records, ¬ record.tuple.Keyed filp →
    record ∈ after.scan.records
  lruKept : ∀ entry ∈ state.lru.records, ¬ entry.tuple.Keyed filp →
    entry ∈ after.lru.records

theorem InsertEffect.kept_iff
    {domain : BitVec 32} {filp : FileInfo} {env : InsertEnv}
    {state after : CacheState} {ret : ℤ}
    (heffect : InsertEffect filp env state ret after)
    (hregular : state.Regular domain)
    (hscanAlloc : env.scanAlloc = true) (hlruAlloc : env.lruAlloc = true) :
    InsertKept filp state ret after ↔
      ∀ entry ∈ state.lru.records, entry.timeStamp = env.now →
        entry.tuple.Keyed filp := by
  cases heffect with
  | noMemory halloc =>
      rw [hscanAlloc] at halloc
      contradiction
  | rejected _ hlookup hcause =>
      obtain ⟨entry, hentry, hnow⟩ : state.lru.Stamped env.now := by
        simpa [hlruAlloc] using hcause
      constructor
      · intro hkept
        exact absurd hkept.returns (by decide)
      · intro hclear
        exact absurd (hclear entry hentry hnow)
          (hregular.entry_not_keyed_of_lookup_none hlookup hentry)
  | stored _ _ _ hclear _ hbefore hscan hlru =>
      constructor
      · intro _ entry hentry hnow
        exact absurd ⟨entry, hentry, hnow⟩ hclear
      · intro _
        constructor
        · rfl
        · exact ⟨filp.record state.scan.next env.now, by simp [hscan], rfl⟩
        · exact ⟨filp.entry state.lru.next env.now,
            hlru.mem_iff.mpr (by simp), rfl⟩
        · intro record hrecord _
          rw [hbefore, List.mem_append] at hrecord
          rw [hscan, List.mem_append, List.mem_cons]
          tauto
        · intro entry hentry _
          exact hlru.mem_iff.mpr (by simp [hentry])
  | @refreshed _ old partner _ hlookup hpartner htime _ hclear hscan hlru =>
      obtain ⟨hold, hkey⟩ := scanLookup_eq_some hlookup
      constructor
      · intro _ entry hentry hnow
        exact (hregular.1.keyed_iff_partner hold hkey hpartner htime hentry).mpr
          (hclear entry hentry hnow)
      · intro _
        constructor
        · rfl
        · refine ⟨filp.record state.scan.next env.now, ?_, rfl⟩
          rw [hscan]
          exact (mem_map_replace (ρ := ScanCacheRecord) hold).mpr (.inl rfl)
        · exact ⟨filp.entry state.lru.next env.now,
            hlru.mem_iff.mpr (by simp), rfl⟩
        · intro record hrecord hother
          rw [hscan]
          refine (mem_map_replace (ρ := ScanCacheRecord) hold).mpr
            (.inr ⟨hrecord, ?_⟩)
          intro hid
          have heq := hregular.1.sound.scan.wellFormed.eq_of_id_eq hrecord hold
            hid
          exact hother (heq ▸ hkey)
        · intro entry hentry hother
          have hne : entry.id ≠ partner.id := by
            intro hid
            have heq := hregular.1.sound.lru.wellFormed.eq_of_id_eq hentry
              hpartner hid
            exact hother ((hregular.1.keyed_iff_partner hold hkey hpartner htime
              hentry).mpr heq)
          exact hlru.mem_iff.mpr (by simp [hentry, hne])
  | @dropped _ old partner _ hlookup hpartner htime hcause =>
      obtain ⟨hold, hkey⟩ := scanLookup_eq_some hlookup
      obtain ⟨entry, hentry, hnow, hne⟩ : ∃ entry ∈ state.lru.records,
          entry.timeStamp = env.now ∧ entry ≠ partner := by
        simpa [hlruAlloc] using hcause
      constructor
      · intro hkept
        exact absurd hkept.returns (by decide)
      · intro hclear
        exact absurd ((hregular.1.keyed_iff_partner hold hkey hpartner htime
          hentry).mp (hclear entry hentry hnow)) hne
  | orphaned _ hlookup hmissing =>
      exact absurd (hregular.1.stamped (scanLookup_eq_some hlookup).1) hmissing

/-- With both allocations an insertion is kept exactly when no record of
another file carries the time that the clock returns. -/
theorem insertScanCacheRecord_kept_iff
    (rb : Rbtree) (domain : BitVec 32) (calls : List Call)
    (hdomain : ∀ call ∈ calls, call.InDomain domain)
    (hkeeps : ∀ call ∈ calls, call.KeepsPairs)
    (filp : FileInfo) (now : Timespec) :
    let state := calls.foldl (step rb) .empty
    let result := insertScanCacheRecord rb filp ⟨true, now, true⟩ state
    InsertKept filp state result.1 result.2 ↔
      ∀ entry ∈ state.lru.records, entry.timeStamp = now →
        entry.tuple.Keyed filp := by
  intro state result
  have hregular : state.Regular domain := regular_run rb domain
    fun call hcall => ⟨hdomain call hcall, hkeeps call hcall⟩
  obtain ⟨ret, after, hresult, heffect, _⟩ :=
    insertScanCacheRecord_effect rb hregular.1.sound filp ⟨true, now, true⟩
  have heq : result = (ret, after) := hresult
  rw [heq]
  exact heffect.kept_iff hregular rfl rfl

theorem insertScanCacheRecord_kept_iff_refresh :
    let state := [Call.insert ⟨1, 4, 1⟩ ⟨true, .atSecond 5, true⟩].foldl
      (step linuxRbtree) .empty
    let result := insertScanCacheRecord linuxRbtree ⟨1, 4, 2⟩
      ⟨true, .atSecond 5, true⟩ state
    InsertKept ⟨1, 4, 2⟩ state result.1 result.2 :=
  (insertScanCacheRecord_kept_iff linuxRbtree 1 _ (by decide) (by decide)
    ⟨1, 4, 2⟩ (.atSecond 5)).mpr (by decide)

/-- The second file is refused because the first was cached at the same
time. -/
theorem insertScanCacheRecord_lost_at_shared_time :
    let state := [Call.insert ⟨1, 4, 1⟩ ⟨true, .atSecond 5, true⟩].foldl
      (step linuxRbtree) .empty
    let result := insertScanCacheRecord linuxRbtree ⟨1, 6, 1⟩
      ⟨true, .atSecond 5, true⟩ state
    ¬ InsertKept ⟨1, 6, 1⟩ state result.1 result.2 := by
  intro state result hkept
  exact absurd hkept.returns (by decide)

/-! ## Failing insertions -/

/-- A failing insertion leaves the fields of all records as they were. -/
def FailureKeepsRecords
    (state : CacheState) (ret : ℤ) (after : CacheState) : Prop :=
  ret ≠ 0 → after.scanTuples = state.scanTuples ∧
    after.lruTuples = state.lruTuples

/-- The insertion finds the file cached and cannot link its new LRU record. -/
def RefreshBlocked
    (filp : FileInfo) (env : InsertEnv) (state : CacheState) : Prop :=
  env.scanAlloc = true ∧
    (∃ record ∈ state.scan.records, record.tuple.Keyed filp) ∧
    (env.lruAlloc = false ∨ ∃ entry ∈ state.lru.records,
      entry.timeStamp = env.now ∧ ¬ entry.tuple.Keyed filp)

theorem scanTuples_ne_of_removed
    {state after : CacheState} {old : ScanCacheRecord}
    (hold : old ∈ state.scan.records)
    (hscan : after.scan.records =
      state.scan.records.filter fun other => other.id ≠ old.id) :
    after.scanTuples ≠ state.scanTuples := by
  intro heq
  have hlength : after.scan.records.length = state.scan.records.length := by
    simpa [CacheState.scanTuples] using congrArg List.length heq
  rw [hscan] at hlength
  have hkeep := List.length_filter_eq_length_iff.mp hlength old hold
  simp at hkeep

theorem InsertEffect.failureKeepsRecords_iff
    {domain : BitVec 32} {filp : FileInfo} {env : InsertEnv}
    {state after : CacheState} {ret : ℤ}
    (heffect : InsertEffect filp env state ret after)
    (hregular : state.Regular domain) :
    FailureKeepsRecords state ret after ↔ ¬ RefreshBlocked filp env state := by
  cases heffect with
  | noMemory halloc =>
      constructor
      · intro _ hblocked
        exact absurd hblocked.1 (by simp [halloc])
      · intro _ _
        exact ⟨rfl, rfl⟩
  | rejected _ hlookup _ hscan _ hlru =>
      constructor
      · rintro _ ⟨_, ⟨record, hrecord, hkey⟩, _⟩
        exact hregular.not_keyed_of_lookup_none hlookup hrecord hkey
      · intro _ _
        exact ⟨congrArg (List.map ScanCacheRecord.tuple) hscan,
          congrArg (List.map LruCacheRecord.tuple) hlru⟩
  | stored _ hlookup =>
      constructor
      · rintro _ ⟨_, ⟨record, hrecord, hkey⟩, _⟩
        exact hregular.not_keyed_of_lookup_none hlookup hrecord hkey
      · intro _ hret
        exact absurd rfl hret
  | refreshed _ hlookup hpartner htime hlruAlloc hclear =>
      obtain ⟨hold, hkey⟩ := scanLookup_eq_some hlookup
      constructor
      · rintro _ ⟨_, _, hfailed | ⟨entry, hentry, hnow, hother⟩⟩
        · rw [hlruAlloc] at hfailed
          contradiction
        · have heq := hclear entry hentry hnow
          exact hother ((hregular.1.keyed_iff_partner hold hkey hpartner htime
            hentry).mpr heq)
      · intro _ hret
        exact absurd rfl hret
  | @dropped _ old partner halloc hlookup hpartner htime hcause hscan =>
      obtain ⟨hold, hkey⟩ := scanLookup_eq_some hlookup
      constructor
      · intro hkeeps _
        exact scanTuples_ne_of_removed hold hscan (hkeeps (by decide)).1
      · intro hfree
        refine absurd ⟨halloc, ⟨old, hold, hkey⟩, ?_⟩ hfree
        rcases hcause with hfailed | ⟨entry, hentry, hnow, hne⟩
        · exact .inl hfailed
        · refine .inr ⟨entry, hentry, hnow, ?_⟩
          intro hentryKey
          exact hne ((hregular.1.keyed_iff_partner hold hkey hpartner htime
            hentry).mp hentryKey)
  | orphaned _ hlookup hmissing =>
      exact absurd (hregular.1.stamped (scanLookup_eq_some hlookup).1) hmissing

/-- A failing insertion keeps the cached records exactly when it is not the
blocked refresh of a cached file. -/
theorem insertScanCacheRecord_failure_iff
    (rb : Rbtree) (domain : BitVec 32) (calls : List Call)
    (hdomain : ∀ call ∈ calls, call.InDomain domain)
    (hkeeps : ∀ call ∈ calls, call.KeepsPairs)
    (filp : FileInfo) (env : InsertEnv) :
    let state := calls.foldl (step rb) .empty
    let result := insertScanCacheRecord rb filp env state
    FailureKeepsRecords state result.1 result.2 ↔
      ¬ RefreshBlocked filp env state := by
  intro state result
  have hregular : state.Regular domain := regular_run rb domain
    fun call hcall => ⟨hdomain call hcall, hkeeps call hcall⟩
  obtain ⟨ret, after, hresult, heffect, _⟩ :=
    insertScanCacheRecord_effect rb hregular.1.sound filp env
  have heq : result = (ret, after) := hresult
  rw [heq]
  exact heffect.failureKeepsRecords_iff hregular

/-- A fresh insertion that fails is rolled back. -/
theorem insertScanCacheRecord_failure_iff_fresh :
    let state := [Call.insert ⟨1, 4, 1⟩ ⟨true, .atSecond 5, true⟩].foldl
      (step linuxRbtree) .empty
    let result := insertScanCacheRecord linuxRbtree ⟨1, 6, 1⟩
      ⟨true, .atSecond 8, false⟩ state
    FailureKeepsRecords state result.1 result.2 :=
  (insertScanCacheRecord_failure_iff linuxRbtree 1 _ (by decide) (by decide)
    ⟨1, 6, 1⟩ ⟨true, .atSecond 8, false⟩).mpr (by
      rintro ⟨_, ⟨record, hrecord, hkey⟩, _⟩
      revert hkey
      revert record
      decide)

/-- A refresh whose LRU allocation fails drops the record it was to
refresh. -/
theorem insertScanCacheRecord_failed_refresh_drops :
    let state := [Call.insert ⟨1, 4, 1⟩ ⟨true, .atSecond 5, true⟩].foldl
      (step linuxRbtree) .empty
    let result := insertScanCacheRecord linuxRbtree ⟨1, 4, 2⟩
      ⟨true, .atSecond 8, false⟩ state
    ¬ FailureKeepsRecords state result.1 result.2 := by
  intro state result hkeeps
  have hsame := (hkeeps (by decide)).1
  exact absurd (congrArg List.length hsame) (by decide)

end LinuxKernelCode.ScanCache
