import LinuxKernelCode.ScanCacheEffects

/-!
# Order and pairing of the two trees

The invariant of the two trees has three parts.  The scan tree is in the order
of its keys; every scan record has an LRU record with the same four fields;
and every LRU record has such a scan record.  The last part is lost by
`purge_scan_cache` alone, so the first two are kept as an invariant of their
own, `Covered`.

An insertion keeps the invariant whenever its descent through the scan tree
agrees with the intended order.  On files of one device with inode numbers
below `2 ^ 63` every descent does.
-/

namespace LinuxKernelCode.ScanCache

open RedBlack

/-- The four fields that a scan record and its LRU record share. -/
structure CacheTuple where
  timeStamp : Timespec
  devId : BitVec 32
  inodeNumber : BitVec 64
  inodeGeneration : BitVec 32
  deriving DecidableEq

def ScanCacheRecord.tuple (record : ScanCacheRecord) : CacheTuple :=
  ⟨record.timeStamp, record.devId, record.inodeNumber, record.inodeGeneration⟩

def LruCacheRecord.tuple (entry : LruCacheRecord) : CacheTuple :=
  ⟨entry.timeStamp, entry.devId, entry.inodeNumber, entry.inodeGeneration⟩

/-- The comparison with the file takes the intended side all along the
descent through the scan tree. -/
def DescentOrdered (filp : FileInfo) (state : CacheState) : Prop :=
  DescentAgrees (keyCompare filp.devId filp.inodeNumber) ScanCacheRecord.rank
    filp.rank state.scan.tree

instance (filp : FileInfo) (state : CacheState) :
    Decidable (DescentOrdered filp state) :=
  DescentAgrees.instDecidable _ _ _ _

theorem FileInfo.rank_eq_iff {filp : FileInfo} {record : ScanCacheRecord} :
    record.rank = filp.rank ↔
      record.devId = filp.devId ∧ record.inodeNumber = filp.inodeNumber :=
  keyRank_inj

/-- In an ordered tree the lookup of an insertion is exact. -/
theorem scanLookup_iff
    {state : CacheState} {filp : FileInfo}
    (hranked : Ranked ScanCacheRecord.rank state.scan.records)
    (hdescent : DescentOrdered filp state) (record : ScanCacheRecord) :
    scanLookup filp state = some record ↔
      record ∈ state.scan.records ∧ record.rank = filp.rank := by
  refine (descendFind_iff hranked hdescent ?_ record).trans ?_
  · intro other _ hzero
    exact FileInfo.rank_eq_iff.mpr ((keyCompare_eq_zero_iff _ _ _).mp hzero)
  · exact and_congr Iff.rfl
      ((keyCompare_eq_zero_iff _ _ _).trans FileInfo.rank_eq_iff.symm)

/-- In an ordered tree the lookup by all three fields is exact. -/
theorem findScanCacheRecord_iff
    {state : CacheState} {filp : FileInfo}
    (hranked : Ranked ScanCacheRecord.rank state.scan.records)
    (hdescent : DescentOrdered filp state) (record : ScanCacheRecord) :
    findScanCacheRecord filp.key state = some record ↔
      record ∈ state.scan.records ∧ record.rank = filp.rank ∧
        record.inodeGeneration = filp.inodeGeneration := by
  have hagree : DescentAgrees (scanCacheFindCompareTable filp.key)
      ScanCacheRecord.rank filp.rank state.scan.tree :=
    find_descentAgrees filp.key hdescent
  unfold findScanCacheRecord
  rw [Index.rbSearch_none_eq]
  refine (descendFind_iff hranked hagree ?_ record).trans ?_
  · intro other _ hzero
    obtain ⟨hdev, hino, _⟩ :=
      (scanCacheFindCompareTable_eq_zero_iff _ _).mp hzero
    exact FileInfo.rank_eq_iff.mpr ⟨hdev, hino⟩
  · rw [scanCacheFindCompareTable_eq_zero_iff, FileInfo.rank_eq_iff, and_assoc]
    rfl

/-! ## The order of the scan tree -/

theorem ranked_map_replace
    {records : List ScanCacheRecord} {old new : ScanCacheRecord}
    (hranked : Ranked ScanCacheRecord.rank records)
    (hsame : ∀ record ∈ records, record.id = old.id → record.rank = new.rank) :
    Ranked ScanCacheRecord.rank
      (records.map fun other => if other.id = old.id then new else other) := by
  have hrank : ∀ record ∈ records,
      (if record.id = old.id then new else record).rank = record.rank := by
    intro record hrecord
    split_ifs with hid
    · exact (hsame record hrecord hid).symm
    · rfl
  unfold Ranked
  rw [List.pairwise_map]
  refine hranked.imp_of_mem ?_
  intro first second hfirst hsecond hlt
  rwa [hrank first hfirst, hrank second hsecond]

theorem InsertEffect.ranked
    {filp : FileInfo} {env : InsertEnv} {state after : CacheState} {ret : ℤ}
    (heffect : InsertEffect filp env state ret after) (hsound : state.Sound)
    (hranked : Ranked ScanCacheRecord.rank state.scan.records)
    (hdescent : DescentOrdered filp state) :
    Ranked ScanCacheRecord.rank after.scan.records := by
  cases heffect with
  | noMemory => exact hranked
  | rejected _ _ _ hscan => exact hscan ▸ hranked
  | stored _ hlookup _ _ hslot hbefore hscan =>
      have hfresh : ∀ record ∈ state.scan.tree.inorder,
          record.rank ≠ filp.rank := by
        intro record hrecord heq
        have hfound := (scanLookup_iff hranked hdescent record).mpr
          ⟨hrecord, heq⟩
        rw [hlookup] at hfound
        contradiction
      have hbounds := descendSlot_bounds hslot hranked hdescent hfresh
        (by simp) (by simp)
      rw [hscan]
      exact ranked_insert (hbefore ▸ hranked) hbounds.1 hbounds.2
  | refreshed _ hlookup _ _ _ _ hscan =>
      obtain ⟨hold, hkey⟩ := scanLookup_eq_some hlookup
      rw [hscan]
      refine ranked_map_replace hranked ?_
      intro record hrecord hid
      have heq := hsound.scan.wellFormed.eq_of_id_eq hrecord hold hid
      rw [heq]
      exact FileInfo.rank_eq_iff.mpr hkey
  | dropped _ _ _ _ _ hscan =>
      rw [hscan]
      exact hranked.sublist List.filter_sublist
  | orphaned _ _ _ hscan =>
      rw [hscan]
      exact hranked.sublist List.filter_sublist

/-! ## Covered states -/

/-- The scan tree is ordered and each of its records has an LRU record. -/
structure CacheState.Covered (state : CacheState) : Prop where
  sound : state.Sound
  ranked : Ranked ScanCacheRecord.rank state.scan.records
  covered : ∀ record ∈ state.scan.records, ∃ entry ∈ state.lru.records,
    entry.tuple = record.tuple

theorem CacheState.empty_covered : CacheState.empty.Covered where
  sound := CacheState.empty_sound
  ranked := List.Pairwise.nil
  covered := by simp [CacheState.empty, Index.empty, Index.records]

theorem CacheState.Covered.eq_of_tuple_eq
    {state : CacheState} (hcovered : state.Covered)
    {first second : ScanCacheRecord}
    (hfirst : first ∈ state.scan.records) (hsecond : second ∈ state.scan.records)
    (heq : first.tuple = second.tuple) : first = second := by
  apply hcovered.ranked.eq_of_rank_eq hfirst hsecond
  have hdev := congrArg CacheTuple.devId heq
  have hino := congrArg CacheTuple.inodeNumber heq
  exact keyRank_inj.mpr ⟨hdev, hino⟩

/-- The LRU record with the time stamp of a scan record is its partner. -/
theorem CacheState.Covered.partner_tuple
    {state : CacheState} (hcovered : state.Covered)
    {record : ScanCacheRecord} {partner : LruCacheRecord}
    (hrecord : record ∈ state.scan.records)
    (hpartner : partner ∈ state.lru.records)
    (htime : partner.timeStamp = record.timeStamp) :
    partner.tuple = record.tuple := by
  obtain ⟨entry, hentry, htuple⟩ := hcovered.covered record hrecord
  have heq := hcovered.sound.lru.eq_of_timeStamp_eq hpartner hentry
    (htime.trans (congrArg CacheTuple.timeStamp htuple).symm)
  rw [heq, htuple]

theorem CacheState.Covered.stamped
    {state : CacheState} (hcovered : state.Covered)
    {record : ScanCacheRecord} (hrecord : record ∈ state.scan.records) :
    state.lru.Stamped record.timeStamp := by
  obtain ⟨entry, hentry, htuple⟩ := hcovered.covered record hrecord
  exact ⟨entry, hentry, congrArg CacheTuple.timeStamp htuple⟩

/-- Removing a scan record together with an LRU record whose fields match no
other scan record keeps the rest covered. -/
theorem covered_after_removal
    {state after : CacheState} (hcovered : state.Covered)
    (record : ScanCacheRecord) {partner : LruCacheRecord}
    (hpartner : partner ∈ state.lru.records)
    (honly : ∀ other ∈ state.scan.records, partner.tuple = other.tuple →
      other.id = record.id)
    (hscan : ∀ other ∈ after.scan.records,
      other ∈ state.scan.records ∧ other.id ≠ record.id)
    (hlru : ∀ entry ∈ state.lru.records, entry.id ≠ partner.id →
      entry ∈ after.lru.records) :
    ∀ other ∈ after.scan.records, ∃ entry ∈ after.lru.records,
      entry.tuple = other.tuple := by
  intro other hother
  obtain ⟨hmem, hne⟩ := hscan other hother
  obtain ⟨entry, hentry, htuple⟩ := hcovered.covered other hmem
  refine ⟨entry, hlru entry hentry ?_, htuple⟩
  intro hid
  have heq := hcovered.sound.lru.wellFormed.eq_of_id_eq hentry hpartner hid
  subst entry
  exact hne (honly other hmem htuple)

theorem mem_filter_id
    {records : List ScanCacheRecord} {other : ScanCacheRecord} {id : ℕ} :
    (other ∈ records.filter fun record => record.id ≠ id) ↔
      other ∈ records ∧ other.id ≠ id := by
  simp

theorem CacheState.Covered.insert
    {filp : FileInfo} {env : InsertEnv} {state after : CacheState} {ret : ℤ}
    (hcovered : state.Covered) (hdescent : DescentOrdered filp state)
    (heffect : InsertEffect filp env state ret after) (hafter : after.Sound) :
    after.Covered := by
  refine ⟨hafter, heffect.ranked hcovered.sound hcovered.ranked hdescent, ?_⟩
  cases heffect with
  | noMemory => exact hcovered.covered
  | rejected _ _ _ hscan _ hlru =>
      rw [hscan, hlru]
      exact hcovered.covered
  | stored _ _ _ _ _ hbefore hscan hlru =>
      intro record hrecord
      rw [hscan, List.mem_append, List.mem_cons] at hrecord
      have hcases : record = filp.record state.scan.next env.now ∨
          record ∈ state.scan.records := by
        rw [hbefore, List.mem_append]
        tauto
      rcases hcases with heq | hold
      · subst record
        exact ⟨filp.entry state.lru.next env.now, hlru.mem_iff.mpr (by simp),
          rfl⟩
      · obtain ⟨entry, hentry, htuple⟩ := hcovered.covered record hold
        exact ⟨entry, hlru.mem_iff.mpr (by simp [hentry]), htuple⟩
  | @refreshed _ old partner _ hlookup hpartner htime _ _ hscan hlru =>
      have hold := (scanLookup_eq_some hlookup).1
      have htuple := hcovered.partner_tuple hold hpartner htime
      intro record hrecord
      rw [hscan] at hrecord
      rcases (mem_map_replace (ρ := ScanCacheRecord) hold).mp hrecord with
        heq | ⟨hmem, hid⟩
      · subst record
        exact ⟨filp.entry state.lru.next env.now, hlru.mem_iff.mpr (by simp),
          rfl⟩
      · obtain ⟨entry, hentry, hsame⟩ := hcovered.covered record hmem
        refine ⟨entry, hlru.mem_iff.mpr ?_, hsame⟩
        have hne : entry.id ≠ partner.id := by
          intro hidEntry
          have heq := hcovered.sound.lru.wellFormed.eq_of_id_eq hentry hpartner
            hidEntry
          subst entry
          exact hid (congrArg ScanCacheRecord.id
            (hcovered.eq_of_tuple_eq hmem hold (hsame.symm.trans htuple)))
        simp [hentry, hne]
  | @dropped _ old partner _ hlookup hpartner htime _ hscan hlru =>
      have hold := (scanLookup_eq_some hlookup).1
      have htuple := hcovered.partner_tuple hold hpartner htime
      refine covered_after_removal hcovered old hpartner ?_ ?_ ?_
      · intro other hother hsame
        exact congrArg ScanCacheRecord.id
          (hcovered.eq_of_tuple_eq hother hold (hsame.symm.trans htuple))
      · intro other hother
        rw [hscan] at hother
        exact mem_filter_id.mp hother
      · intro entry hentry hne
        rw [hlru]
        simp [hentry, hne]
  | orphaned _ hlookup hmissing =>
      exact absurd (hcovered.stamped (scanLookup_eq_some hlookup).1) hmissing

theorem CacheState.Covered.findRemove
    {filp : FileInfo} {state after : CacheState} {ret : Bool}
    (hcovered : state.Covered)
    (heffect : FindRemoveEffect filp state ret after) (hafter : after.Sound) :
    after.Covered := by
  cases heffect with
  | absent => exact hcovered
  | @removed _ record partner hfind hpartner htime hscan hlru =>
      have hmem := (findScanCacheRecord_eq_some hfind).1
      have htuple := hcovered.partner_tuple hmem hpartner htime
      refine ⟨hafter, ?_, ?_⟩
      · rw [hscan.records]
        exact hcovered.ranked.sublist List.filter_sublist
      · refine covered_after_removal hcovered record hpartner ?_
          (fun other hother => hscan.mem_iff.mp hother)
          (fun entry hentry hne => hlru.mem_iff.mpr ⟨hentry, hne⟩)
        intro other hother hsame
        exact congrArg ScanCacheRecord.id
          (hcovered.eq_of_tuple_eq hother hmem (hsame.symm.trans htuple))
  | unpaired hfind hmissing =>
      exact absurd (hcovered.stamped (findScanCacheRecord_eq_some hfind).1)
        hmissing

theorem CacheState.Covered.evicts
    {state after : CacheState} {entry : LruCacheRecord}
    {record : ScanCacheRecord} (hcovered : state.Covered)
    (hevicts : Evicts entry record state after) : after.Covered := by
  obtain ⟨hmem, hdev, hino, _⟩ := findScanCacheRecord_eq_some hevicts.found
  refine ⟨hevicts.sound, ?_, ?_⟩
  · rw [hevicts.scan.records]
    exact hcovered.ranked.sublist List.filter_sublist
  · refine covered_after_removal hcovered record
      (List.mem_of_mem_head? hevicts.oldest) ?_
      (fun other hother => hevicts.scan.mem_iff.mp hother)
      (fun other hother hne => hevicts.lru.mem_iff.mpr ⟨hother, hne⟩)
    intro other hother hsame
    have hdevOther := congrArg CacheTuple.devId hsame
    have hinoOther := congrArg CacheTuple.inodeNumber hsame
    have heq := hcovered.ranked.eq_of_rank_eq hother hmem
      (keyRank_inj.mpr ⟨hdevOther.symm.trans hdev.symm,
        hinoOther.symm.trans hino.symm⟩)
    exact congrArg ScanCacheRecord.id heq

theorem CacheState.Covered.step
    {state : CacheState} (hcovered : state.Covered) (rb : Rbtree) {call : Call}
    (hdescent : ∀ filp env, call = .insert filp env →
      DescentOrdered filp state) :
    (step rb state call).Covered := by
  have hafter := hcovered.sound.step rb call
  cases call with
  | insert filp env =>
      obtain ⟨ret, after, hresult, heffect, hsound⟩ :=
        insertScanCacheRecord_effect rb hcovered.sound filp env
      have hnext := hcovered.insert (hdescent filp env rfl) heffect hsound
      simpa [ScanCache.step, execute, hresult] using hnext
  | findRemove filp =>
      obtain ⟨ret, after, hresult, heffect, hsound⟩ :=
        findRemoveScanCacheRecord_effect rb hcovered.sound filp
      have hnext := hcovered.findRemove heffect hsound
      simpa [ScanCache.step, execute, hresult] using hnext
  | removeCacheEntry count =>
      exact (removeCacheEntry_invariant rb CacheState.Covered
        (fun _ hinv hevicts => hinv.evicts hevicts) count hcovered.sound
        hcovered).2
  | purgeScanCache =>
      obtain ⟨hsound, hscan, _⟩ := purgeScanCache_spec rb hcovered.sound
      refine ⟨hsound, ?_, ?_⟩
      · exact hscan.symm ▸ List.Pairwise.nil
      · simp [ScanCache.step, execute, hscan]
  | purgeCache =>
      obtain ⟨hsound, hscan, _⟩ := purgeCache_spec rb hcovered.sound
      refine ⟨hsound, ?_, ?_⟩
      · exact hscan.symm ▸ List.Pairwise.nil
      · simp [ScanCache.step, execute, hscan]

/-! ## Paired states -/

/-- Every record of either tree has its counterpart in the other. -/
structure CacheState.Paired (state : CacheState) : Prop extends
    state.Covered where
  mirrored : ∀ entry ∈ state.lru.records, ∃ record ∈ state.scan.records,
    record.tuple = entry.tuple

theorem CacheState.empty_paired : CacheState.empty.Paired where
  toCovered := CacheState.empty_covered
  mirrored := by simp [CacheState.empty, Index.empty, Index.records]

theorem CacheState.Paired.eq_of_tuple_eq
    {state : CacheState} (hpaired : state.Paired)
    {first second : LruCacheRecord}
    (hfirst : first ∈ state.lru.records) (hsecond : second ∈ state.lru.records)
    (heq : first.tuple = second.tuple) : first = second :=
  hpaired.sound.lru.eq_of_timeStamp_eq hfirst hsecond
    (congrArg CacheTuple.timeStamp heq)

/-- The mirror image of `covered_after_removal`. -/
theorem mirrored_after_removal
    {state after : CacheState} (hpaired : state.Paired)
    {record : ScanCacheRecord} {partner : LruCacheRecord}
    (hrecord : record ∈ state.scan.records)
    (hpartner : partner ∈ state.lru.records)
    (htuple : partner.tuple = record.tuple)
    (hscan : ∀ other ∈ state.scan.records, other.id ≠ record.id →
      other ∈ after.scan.records)
    (hlru : ∀ entry ∈ after.lru.records,
      entry ∈ state.lru.records ∧ entry.id ≠ partner.id) :
    ∀ entry ∈ after.lru.records, ∃ other ∈ after.scan.records,
      other.tuple = entry.tuple := by
  intro entry hentry
  obtain ⟨hmem, hne⟩ := hlru entry hentry
  obtain ⟨other, hother, hsame⟩ := hpaired.mirrored entry hmem
  refine ⟨other, hscan other hother ?_, hsame⟩
  intro hid
  have heq := hpaired.sound.scan.wellFormed.eq_of_id_eq hother hrecord hid
  subst other
  exact hne (congrArg LruCacheRecord.id
    (hpaired.eq_of_tuple_eq hmem hpartner (hsame.symm.trans htuple.symm)))

theorem CacheState.Paired.insert
    {filp : FileInfo} {env : InsertEnv} {state after : CacheState} {ret : ℤ}
    (hpaired : state.Paired) (hdescent : DescentOrdered filp state)
    (heffect : InsertEffect filp env state ret after) (hafter : after.Sound) :
    after.Paired := by
  refine ⟨hpaired.toCovered.insert hdescent heffect hafter, ?_⟩
  cases heffect with
  | noMemory => exact hpaired.mirrored
  | rejected _ _ _ hscan _ hlru =>
      rw [hscan, hlru]
      exact hpaired.mirrored
  | stored _ _ _ _ _ hbefore hscan hlru =>
      intro entry hentry
      rw [hscan]
      rcases List.mem_cons.mp (hlru.mem_iff.mp hentry) with heq | hmem
      · subst entry
        exact ⟨filp.record state.scan.next env.now, by simp, rfl⟩
      · obtain ⟨record, hrecord, htuple⟩ := hpaired.mirrored entry hmem
        rw [hbefore, List.mem_append] at hrecord
        refine ⟨record, ?_, htuple⟩
        rw [List.mem_append, List.mem_cons]
        tauto
  | @refreshed _ old partner _ hlookup hpartner htime _ _ hscan hlru =>
      have hold := (scanLookup_eq_some hlookup).1
      have htuple := hpaired.partner_tuple hold hpartner htime
      intro entry hentry
      rw [hscan]
      rcases List.mem_cons.mp (hlru.mem_iff.mp hentry) with heq | hmem
      · subst entry
        exact ⟨filp.record state.scan.next env.now,
          (mem_map_replace (ρ := ScanCacheRecord) hold).mpr (.inl rfl), rfl⟩
      · obtain ⟨hentryMem, hne⟩ : entry ∈ state.lru.records ∧
            entry.id ≠ partner.id := by simpa using hmem
        obtain ⟨record, hrecord, hsame⟩ := hpaired.mirrored entry hentryMem
        refine ⟨record, (mem_map_replace (ρ := ScanCacheRecord) hold).mpr
          (.inr ⟨hrecord, ?_⟩), hsame⟩
        intro hid
        have heq := hpaired.sound.scan.wellFormed.eq_of_id_eq hrecord hold hid
        subst record
        exact hne (congrArg LruCacheRecord.id (hpaired.eq_of_tuple_eq hentryMem
          hpartner (hsame.symm.trans htuple.symm)))
  | @dropped _ old partner _ hlookup hpartner htime _ hscan hlru =>
      have hold := (scanLookup_eq_some hlookup).1
      refine mirrored_after_removal hpaired hold hpartner
        (hpaired.partner_tuple hold hpartner htime) ?_ ?_
      · intro other hother hne
        rw [hscan]
        exact mem_filter_id.mpr ⟨hother, hne⟩
      · intro entry hentry
        rw [hlru] at hentry
        simpa using hentry
  | orphaned _ hlookup hmissing =>
      exact absurd (hpaired.stamped (scanLookup_eq_some hlookup).1) hmissing

theorem CacheState.Paired.findRemove
    {filp : FileInfo} {state after : CacheState} {ret : Bool}
    (hpaired : state.Paired)
    (heffect : FindRemoveEffect filp state ret after) (hafter : after.Sound) :
    after.Paired := by
  refine ⟨hpaired.toCovered.findRemove heffect hafter, ?_⟩
  cases heffect with
  | absent => exact hpaired.mirrored
  | removed hfind hpartner htime hscan hlru =>
      have hmem := (findScanCacheRecord_eq_some hfind).1
      exact mirrored_after_removal hpaired hmem hpartner
        (hpaired.partner_tuple hmem hpartner htime)
        (fun other hother hne => hscan.mem_iff.mpr ⟨hother, hne⟩)
        (fun entry hentry => hlru.mem_iff.mp hentry)
  | unpaired hfind hmissing =>
      exact absurd (hpaired.stamped (findScanCacheRecord_eq_some hfind).1)
        hmissing

/-- An evicted pair has the same four fields. -/
theorem CacheState.Paired.evicts_tuple
    {state after : CacheState} {entry : LruCacheRecord}
    {record : ScanCacheRecord} (hpaired : state.Paired)
    (hevicts : Evicts entry record state after) :
    entry.tuple = record.tuple := by
  obtain ⟨hmem, hdev, hino, _⟩ := findScanCacheRecord_eq_some hevicts.found
  obtain ⟨other, hother, hsame⟩ := hpaired.mirrored entry
    (List.mem_of_mem_head? hevicts.oldest)
  have hdevOther := congrArg CacheTuple.devId hsame
  have hinoOther := congrArg CacheTuple.inodeNumber hsame
  have heq := hpaired.ranked.eq_of_rank_eq hother hmem
    (keyRank_inj.mpr ⟨hdevOther.trans hdev.symm, hinoOther.trans hino.symm⟩)
  exact heq ▸ hsame.symm

theorem CacheState.Paired.evicts
    {state after : CacheState} {entry : LruCacheRecord}
    {record : ScanCacheRecord} (hpaired : state.Paired)
    (hevicts : Evicts entry record state after) : after.Paired :=
  ⟨hpaired.toCovered.evicts hevicts,
    mirrored_after_removal hpaired
      (findScanCacheRecord_eq_some hevicts.found).1
      (List.mem_of_mem_head? hevicts.oldest) (hpaired.evicts_tuple hevicts)
      (fun _ hother hne => hevicts.scan.mem_iff.mpr ⟨hother, hne⟩)
      (fun _ hother => hevicts.lru.mem_iff.mp hother)⟩

/-- The calls other than `purge_scan_cache` on its own. -/
def Call.KeepsPairs : Call → Prop
  | .purgeScanCache => False
  | _ => True

instance : DecidablePred Call.KeepsPairs
  | .insert _ _ => .isTrue trivial
  | .findRemove _ => .isTrue trivial
  | .removeCacheEntry _ => .isTrue trivial
  | .purgeScanCache => .isFalse id
  | .purgeCache => .isTrue trivial

theorem CacheState.Paired.step
    {state : CacheState} (hpaired : state.Paired) (rb : Rbtree) {call : Call}
    (hkeeps : call.KeepsPairs)
    (hdescent : ∀ filp env, call = .insert filp env →
      DescentOrdered filp state) :
    (step rb state call).Paired := by
  cases call with
  | insert filp env =>
      obtain ⟨ret, after, hresult, heffect, hsound⟩ :=
        insertScanCacheRecord_effect rb hpaired.sound filp env
      have hnext := hpaired.insert (hdescent filp env rfl) heffect hsound
      simpa [ScanCache.step, execute, hresult] using hnext
  | findRemove filp =>
      obtain ⟨ret, after, hresult, heffect, hsound⟩ :=
        findRemoveScanCacheRecord_effect rb hpaired.sound filp
      have hnext := hpaired.findRemove heffect hsound
      simpa [ScanCache.step, execute, hresult] using hnext
  | removeCacheEntry count =>
      exact (removeCacheEntry_invariant rb CacheState.Paired
        (fun _ hinv hevicts => hinv.evicts hevicts) count hpaired.sound
        hpaired).2
  | purgeScanCache => exact absurd hkeeps id
  | purgeCache =>
      have hcovered : (ScanCache.step rb state .purgeCache).Covered :=
        hpaired.toCovered.step rb (by intro _ _ hcall; cases hcall)
      refine ⟨hcovered, ?_⟩
      obtain ⟨_, _, hlru, _⟩ := purgeCache_spec rb hpaired.sound
      simp [ScanCache.step, execute, hlru]

/-! ## Files of one device -/

def FileInfo.InDomain (domain : BitVec 32) (filp : FileInfo) : Prop :=
  ScanCache.InDomain domain filp.devId filp.inodeNumber

instance (domain : BitVec 32) (filp : FileInfo) :
    Decidable (filp.InDomain domain) :=
  inferInstanceAs (Decidable (ScanCache.InDomain _ _ _))

def Call.InDomain (domain : BitVec 32) : Call → Prop
  | .insert filp _ => filp.InDomain domain
  | .findRemove filp => filp.InDomain domain
  | _ => True

instance (domain : BitVec 32) : DecidablePred (Call.InDomain domain)
  | .insert filp _ => inferInstanceAs (Decidable (filp.InDomain domain))
  | .findRemove filp => inferInstanceAs (Decidable (filp.InDomain domain))
  | .removeCacheEntry _ => .isTrue trivial
  | .purgeScanCache => .isTrue trivial
  | .purgeCache => .isTrue trivial

def CacheState.InDomain (domain : BitVec 32) (state : CacheState) : Prop :=
  ∀ record ∈ state.scan.records,
    ScanCache.InDomain domain record.devId record.inodeNumber

theorem CacheState.InDomain.descentOrdered
    {domain : BitVec 32} {state : CacheState} (hdomain : state.InDomain domain)
    {filp : FileInfo} (hfilp : filp.InDomain domain) :
    DescentOrdered filp state :=
  keyCompare_descentAgrees hfilp hdomain

/-- After an insertion every scan record is old or is the new file's. -/
theorem InsertEffect.scan_mem
    {filp : FileInfo} {env : InsertEnv} {state after : CacheState} {ret : ℤ}
    (heffect : InsertEffect filp env state ret after)
    {record : ScanCacheRecord} (hrecord : record ∈ after.scan.records) :
    record ∈ state.scan.records ∨
      record = filp.record state.scan.next env.now := by
  cases heffect with
  | noMemory => exact .inl hrecord
  | rejected _ _ _ hscan => exact .inl (hscan ▸ hrecord)
  | stored _ _ _ _ _ hbefore hscan =>
      rw [hscan, List.mem_append, List.mem_cons] at hrecord
      rw [hbefore, List.mem_append]
      tauto
  | refreshed _ hlookup _ _ _ _ hscan =>
      rw [hscan] at hrecord
      rcases (mem_map_replace (ρ := ScanCacheRecord)
        (scanLookup_eq_some hlookup).1).mp hrecord with heq | ⟨hmem, _⟩
      · exact .inr heq
      · exact .inl hmem
  | dropped _ _ _ _ _ hscan =>
      rw [hscan] at hrecord
      exact .inl (mem_filter_id.mp hrecord).1
  | orphaned _ _ _ hscan =>
      rw [hscan] at hrecord
      exact .inl (mem_filter_id.mp hrecord).1

theorem FindRemoveEffect.scan_mem
    {filp : FileInfo} {state after : CacheState} {ret : Bool}
    (heffect : FindRemoveEffect filp state ret after)
    {record : ScanCacheRecord} (hrecord : record ∈ after.scan.records) :
    record ∈ state.scan.records := by
  cases heffect with
  | absent => exact hrecord
  | removed _ _ _ hscan => exact (hscan.mem_iff.mp hrecord).1
  | unpaired _ _ hscan => exact (hscan.mem_iff.mp hrecord).1

theorem CacheState.InDomain.step
    {domain : BitVec 32} {state : CacheState} (hdomain : state.InDomain domain)
    (hsound : state.Sound) (rb : Rbtree) {call : Call}
    (hcall : call.InDomain domain) :
    (step rb state call).InDomain domain := by
  cases call with
  | insert filp env =>
      obtain ⟨ret, after, hresult, heffect, _⟩ :=
        insertScanCacheRecord_effect rb hsound filp env
      have hnext : after.InDomain domain := by
        intro record hrecord
        rcases heffect.scan_mem hrecord with hold | heq
        · exact hdomain record hold
        · exact heq ▸ hcall
      simpa [ScanCache.step, execute, hresult] using hnext
  | findRemove filp =>
      obtain ⟨ret, after, hresult, heffect, _⟩ :=
        findRemoveScanCacheRecord_effect rb hsound filp
      have hnext : after.InDomain domain :=
        fun record hrecord => hdomain record (heffect.scan_mem hrecord)
      simpa [ScanCache.step, execute, hresult] using hnext
  | removeCacheEntry count =>
      exact (removeCacheEntry_invariant rb (CacheState.InDomain domain)
        (fun _ hinv hevicts record hrecord =>
          hinv record (hevicts.scan.mem_iff.mp hrecord).1)
        count hsound hdomain).2
  | purgeScanCache =>
      obtain ⟨_, hscan, _⟩ := purgeScanCache_spec rb hsound
      intro record hrecord
      simp [ScanCache.step, execute, hscan] at hrecord
  | purgeCache =>
      obtain ⟨_, hscan, _⟩ := purgeCache_spec rb hsound
      intro record hrecord
      simp [ScanCache.step, execute, hscan] at hrecord

end LinuxKernelCode.ScanCache
