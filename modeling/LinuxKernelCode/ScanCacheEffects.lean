import LinuxKernelCode.ScanCacheOrder

/-!
# Effects of the scan cache operations

Each operation of the cache is described once by the ways it can end, for
every state that the operations can produce, whatever the files, the clock and
the allocations were.  Nothing is assumed here of the order of the scan tree:
what an insertion finds is what the descent of `RB_INSERT` finds.
-/

namespace LinuxKernelCode.ScanCache

open RedBlack

/-! ## States -/

/-- What holds of the LRU tree and its slab in every sequential run. -/
structure Index.LruSound (lru : Index LruCacheRecord) : Prop where
  wellFormed : lru.WellFormed
  ranked : Ranked LruCacheRecord.rank lru.records
  faults : lru.faults = []

/-- What holds of the scan tree and its slab in every sequential run. -/
structure Index.ScanSound (scan : Index ScanCacheRecord) : Prop where
  wellFormed : scan.WellFormed
  faults : scan.faults = []
  owned : scan.Owned

structure CacheState.Sound (state : CacheState) : Prop where
  scan : state.scan.ScanSound
  lru : state.lru.LruSound

theorem CacheState.empty_sound : CacheState.empty.Sound where
  scan := ⟨Index.empty_wellFormed, rfl, by
    intro id hid
    simp [CacheState.empty, Index.empty] at hid⟩
  lru := ⟨Index.empty_wellFormed, List.Pairwise.nil, rfl⟩

/-- The scan slab holds as many records as the scan tree. -/
theorem Index.ScanSound.card_live
    {scan : Index ScanCacheRecord} (hscan : scan.ScanSound) :
    scan.live.card = scan.records.length := by
  rw [hscan.owned.live_eq hscan.wellFormed, List.toFinset_card_of_nodup hscan.wellFormed.idsNodup,
    List.length_map]

/-- Some record of the LRU tree carries the time stamp. -/
def Index.Stamped (time : Timespec) (lru : Index LruCacheRecord) : Prop :=
  ∃ entry ∈ lru.records, entry.timeStamp = time

instance (time : Timespec) (lru : Index LruCacheRecord) :
    Decidable (lru.Stamped time) :=
  inferInstanceAs (Decidable (∃ entry ∈ lru.records, entry.timeStamp = time))

theorem lruSearch_iff
    {lru : Index LruCacheRecord}
    (hranked : Ranked LruCacheRecord.rank lru.records) (time : Timespec)
    (entry : LruCacheRecord) :
    lru.rbSearch lruCacheFindCompareTable ⟨time⟩ none = some entry ↔
      entry ∈ lru.records ∧ entry.timeStamp = time := by
  rw [Index.rbSearch_none_eq]
  have hagree := timeCompare_descentAgrees time lru.tree
  refine (descendFind_iff hranked hagree ?_ entry).trans ?_
  · intro other _ hzero
    exact congrArg Timespec.ticks ((timeCompare_eq_zero_iff _ _).mp hzero).symm
  · exact and_congr Iff.rfl
      ((timeCompare_eq_zero_iff time entry.timeStamp).trans eq_comm)

theorem lruSearch_eq_none_iff
    {lru : Index LruCacheRecord}
    (hranked : Ranked LruCacheRecord.rank lru.records) (time : Timespec) :
    lru.rbSearch lruCacheFindCompareTable ⟨time⟩ none = none ↔
      ¬ lru.Stamped time := by
  constructor
  · rintro hnone ⟨entry, hmem, htime⟩
    have hsome := (lruSearch_iff hranked time entry).mpr ⟨hmem, htime⟩
    rw [hnone] at hsome
    contradiction
  · intro hclear
    cases hsearch : lru.rbSearch lruCacheFindCompareTable ⟨time⟩ none with
    | none => rfl
    | some entry =>
        exact absurd ⟨entry, (lruSearch_iff hranked time entry).mp hsearch⟩ hclear

theorem Index.LruSound.eq_of_timeStamp_eq
    {lru : Index LruCacheRecord} (hlru : lru.LruSound)
    {first second : LruCacheRecord}
    (hfirst : first ∈ lru.records) (hsecond : second ∈ lru.records)
    (heq : first.timeStamp = second.timeStamp) : first = second :=
  hlru.ranked.eq_of_rank_eq hfirst hsecond (congrArg Timespec.ticks heq)

/-! ## Removal of one record -/

theorem Index.LruSound.discards
    {lru after : Index LruCacheRecord} (hlru : lru.LruSound)
    {entry : LruCacheRecord} (hdiscards : Index.Discards entry lru after) :
    after.LruSound where
  wellFormed := hdiscards.wellFormed
  ranked := by
    rw [hdiscards.records]
    exact hlru.ranked.sublist List.filter_sublist
  faults := hdiscards.faults.trans hlru.faults

theorem Index.LruSound.stamped_discards_iff
    {lru after : Index LruCacheRecord} (hlru : lru.LruSound)
    {entry : LruCacheRecord} (hentry : entry ∈ lru.records)
    (hdiscards : Index.Discards entry lru after) (time : Timespec) :
    after.Stamped time ↔
      ∃ other ∈ lru.records, other.timeStamp = time ∧ other ≠ entry := by
  constructor
  · rintro ⟨other, hother, htime⟩
    obtain ⟨hmem, hid⟩ := hdiscards.mem_iff.mp hother
    exact ⟨other, hmem, htime, fun heq => hid (heq ▸ rfl)⟩
  · rintro ⟨other, hmem, htime, hne⟩
    refine ⟨other, hdiscards.mem_iff.mpr ⟨hmem, ?_⟩, htime⟩
    intro hid
    exact hne (hlru.wellFormed.eq_of_id_eq hmem hentry hid)

theorem Index.ScanSound.discards
    {scan after : Index ScanCacheRecord} (hscan : scan.ScanSound)
    {record : ScanCacheRecord} (hdiscards : Index.Discards record scan after) :
    after.ScanSound where
  wellFormed := hdiscards.wellFormed
  faults := hdiscards.faults.trans hscan.faults
  owned := hscan.owned.discards hdiscards

theorem CacheState.readScan_eq_self
    {state : CacheState} {record : ScanCacheRecord}
    (hlive : record.id ∈ state.scan.live) :
    state.readScan record = state := by
  unfold CacheState.readScan
  rw [Index.read_eq_self hlive]

theorem CacheState.readLru_eq_self
    {state : CacheState} {entry : LruCacheRecord}
    (hlive : entry.id ∈ state.lru.live) :
    state.readLru entry = state := by
  unfold CacheState.readLru
  rw [Index.read_eq_self hlive]

/-! ## Insertion into the LRU tree -/

/-- What an insertion leaves live in the LRU slab when its entry is not
linked. -/
def Index.leftover (lruAlloc : Bool) (lru : Index LruCacheRecord) : Finset ℕ :=
  if lruAlloc then insert lru.next lru.live else lru.live

/-- How `insert_lru_cache_record` ends.  A collision of time stamps leaves the
allocated entry live and unlinked. -/
inductive LruInsertEffect
    (entry : LruCacheRecord) (lruAlloc : Bool) (lru : Index LruCacheRecord) :
    ℤ → Index LruCacheRecord → Prop
  | failed {after : Index LruCacheRecord}
      (hcause : lruAlloc = false ∨ lru.Stamped entry.timeStamp)
      (hrecords : after.records = lru.records)
      (hlive : after.live = lru.leftover lruAlloc) :
      LruInsertEffect entry lruAlloc lru (-1) after
  | stored {after : Index LruCacheRecord}
      (halloc : lruAlloc = true)
      (hclear : ¬ lru.Stamped entry.timeStamp)
      (hrecords : after.records.Perm (entry :: lru.records))
      (hlive : after.live = insert lru.next lru.live) :
      LruInsertEffect entry lruAlloc lru 0 after

/-- `RB_INSERT` into the LRU tree fails on a time stamp that is there and
otherwise links the entry in its place. -/
theorem lruInsert_cases
    (rb : Rbtree) {lru : Index LruCacheRecord}
    (hranked : Ranked LruCacheRecord.rank lru.records) (entry : LruCacheRecord) :
    (lru.Stamped entry.timeStamp ∧
      lru.rbInsert rb lruCacheInsertCompareTable entry = (-1, lru)) ∨
    (¬ lru.Stamped entry.timeStamp ∧ ∃ tree before after,
      lru.rbInsert rb lruCacheInsertCompareTable entry =
        (0, { lru with tree := tree }) ∧
      lru.records = before ++ after ∧
      tree.inorder = before ++ entry :: after ∧
      Ranked LruCacheRecord.rank tree.inorder) := by
  have hsearch : lru.rbSearch lruCacheInsertCompareTable entry none =
      lru.rbSearch lruCacheFindCompareTable ⟨entry.timeStamp⟩ none := rfl
  cases hfound : lru.rbSearch lruCacheFindCompareTable ⟨entry.timeStamp⟩ none with
  | some other =>
      left
      exact ⟨⟨other, (lruSearch_iff hranked _ other).mp hfound⟩,
        Index.rbInsert_of_found rb (hsearch.trans hfound)⟩
  | none =>
      right
      have hclear := (lruSearch_eq_none_iff hranked _).mp hfound
      obtain ⟨slot, hslot, hbefore, hinsert, hafter⟩ :=
        Index.rbInsert_of_notFound rb (hsearch.trans hfound)
      have hbounds := descendSlot_bounds hslot hranked
        (timeCompare_descentAgrees entry.timeStamp lru.tree)
        (fun other hother heq => hclear ⟨other, hother,
          Timespec.ticks_inj.mp heq⟩) (by simp) (by simp)
      refine ⟨hclear, _, _, _, hinsert, hbefore, hafter, ?_⟩
      rw [rb.inorder_insertColor]
      exact ranked_insert (hbefore ▸ hranked) hbounds.1 hbounds.2

theorem insertLruCacheRecord_effect
    (rb : Rbtree) (state : CacheState) (hlru : state.lru.LruSound)
    (timeStamp : Timespec) (devId : BitVec 32) (inodeNumber : BitVec 64)
    (inodeGeneration : BitVec 32) (lruAlloc : Bool) :
    ∃ ret lru,
      insertLruCacheRecord rb timeStamp devId inodeNumber inodeGeneration
        lruAlloc state = (ret, { state with lru := lru }) ∧
      LruInsertEffect
        ⟨state.lru.next, timeStamp, devId, inodeNumber, inodeGeneration⟩
        lruAlloc state.lru ret lru ∧
      lru.LruSound := by
  cases lruAlloc with
  | false => exact ⟨-1, state.lru, rfl, .failed (.inl rfl) rfl rfl, hlru⟩
  | true =>
      let entry : LruCacheRecord :=
        ⟨state.lru.next, timeStamp, devId, inodeNumber, inodeGeneration⟩
      let lru : Index LruCacheRecord :=
        { state.lru with
          live := insert state.lru.next state.lru.live
          next := state.lru.next + 1 }
      have hallocated : lru.WellFormed := hlru.wellFormed.alloc
      have hresult : insertLruCacheRecord rb timeStamp devId inodeNumber
          inodeGeneration true state =
            ((lru.rbInsert rb lruCacheInsertCompareTable entry).1,
              { state with
                lru := (lru.rbInsert rb lruCacheInsertCompareTable entry).2 }) :=
        rfl
      have hrankedAlloc : Ranked LruCacheRecord.rank lru.records := hlru.ranked
      rcases lruInsert_cases rb hrankedAlloc entry with
        ⟨hstamped, hinsert⟩ | ⟨hclear, tree, before, after, hinsert, hbefore,
          hafter, hranked⟩
      · rw [hinsert] at hresult
        exact ⟨-1, lru, hresult, .failed (.inr hstamped) rfl rfl,
          hallocated, hlru.ranked, hlru.faults⟩
      · have hfresh : ∀ other ∈ lru.records, recordId other ≠ entry.id :=
          fun other hother => hlru.wellFormed.id_ne_next hother
        have hwell := hallocated.link hbefore hafter
          (Finset.mem_insert_self _ _) hfresh
        rw [hinsert] at hresult
        refine ⟨0, _, hresult, .stored rfl hclear ?_ rfl, hwell, hranked,
          hlru.faults⟩
        refine (List.Perm.of_eq hafter).trans (List.perm_middle.trans ?_)
        exact List.Perm.cons _ (List.Perm.of_eq hbefore.symm)

/-! ## Moving an LRU record -/

section Update

variable (rb : Rbtree) (state : CacheState) (hlru : state.lru.LruSound)
  {old new : ScanCacheRecord} (hold : old.id ∈ state.scan.live)
  (lruAlloc : Bool)

include hlru hold

theorem findAndUpdateLruCacheRecord_of_missing
    (hmissing : ¬ state.lru.Stamped old.timeStamp) :
    findAndUpdateLruCacheRecord rb old new lruAlloc state = (-1, state) := by
  have hfound := (lruSearch_eq_none_iff hlru.ranked _).mpr hmissing
  unfold findAndUpdateLruCacheRecord
  rw [CacheState.readScan_eq_self hold]
  simp only [hfound]

/-- With the LRU record of the old scan record present, it is discarded and
the insertion for the new scan record decides. -/
theorem findAndUpdateLruCacheRecord_of_partner
    (hnew : new.id ∈ state.scan.live) {partner : LruCacheRecord}
    (hpartner : partner ∈ state.lru.records)
    (htime : partner.timeStamp = old.timeStamp) :
    ∃ between ret lru,
      findAndUpdateLruCacheRecord rb old new lruAlloc state =
        (ret, { state with lru := lru }) ∧
      Index.Discards partner state.lru between ∧
      LruInsertEffect ⟨state.lru.next, new.timeStamp, new.devId,
        new.inodeNumber, new.inodeGeneration⟩ lruAlloc between ret lru ∧
      lru.LruSound := by
  have hfound := (lruSearch_iff hlru.ranked _ partner).mpr ⟨hpartner, htime⟩
  have hdiscards := hlru.wellFormed.discards rb hpartner
  let removed := removeLruCacheRecord rb partner state
  have hread : removed.readScan new = removed :=
    CacheState.readScan_eq_self hnew
  obtain ⟨ret, lru, hstore, heffect, hsound⟩ :=
    insertLruCacheRecord_effect rb removed (hlru.discards hdiscards)
      new.timeStamp new.devId new.inodeNumber new.inodeGeneration lruAlloc
  rw [show removed.lru.next = state.lru.next from hdiscards.next] at heffect
  refine ⟨removed.lru, ret, lru, ?_, hdiscards, heffect, hsound⟩
  unfold findAndUpdateLruCacheRecord
  rw [CacheState.readScan_eq_self hold]
  simp only [hfound]
  change insertLruCacheRecord rb new.timeStamp new.devId new.inodeNumber
    new.inodeGeneration lruAlloc (removed.readScan new) = _
  rw [hread, hstore]
  rfl

end Update

/-! ## Insertion into the scan tree -/

def FileInfo.record (filp : FileInfo) (id : ℕ) (now : Timespec) :
    ScanCacheRecord :=
  ⟨id, filp.devId, filp.inodeNumber, filp.inodeGeneration, now⟩

def FileInfo.entry (filp : FileInfo) (id : ℕ) (now : Timespec) :
    LruCacheRecord :=
  ⟨id, now, filp.devId, filp.inodeNumber, filp.inodeGeneration⟩

/-- The record at which `RB_INSERT` and the later `RB_SEARCH` stop. -/
def scanLookup (filp : FileInfo) (state : CacheState) : Option ScanCacheRecord :=
  descendFind (keyCompare filp.devId filp.inodeNumber) state.scan.tree

theorem scanLookup_eq_some
    {filp : FileInfo} {state : CacheState} {record : ScanCacheRecord}
    (hlookup : scanLookup filp state = some record) :
    record ∈ state.scan.records ∧ record.devId = filp.devId ∧
      record.inodeNumber = filp.inodeNumber := by
  obtain ⟨hmem, hzero⟩ := descendFind_eq_some hlookup
  exact ⟨hmem, (keyCompare_eq_zero_iff _ _ _).mp hzero⟩

/-- How `insert_scan_cache_record` ends. -/
inductive InsertEffect
    (filp : FileInfo) (env : InsertEnv) (state : CacheState) :
    ℤ → CacheState → Prop
  | noMemory (halloc : env.scanAlloc = false) :
      InsertEffect filp env state (-ENOMEM) state
  | rejected {after : CacheState}
      (halloc : env.scanAlloc = true)
      (hlookup : scanLookup filp state = none)
      (hcause : env.lruAlloc = false ∨ state.lru.Stamped env.now)
      (hscan : after.scan.records = state.scan.records)
      (hscanLive : after.scan.live = state.scan.live)
      (hlru : after.lru.records = state.lru.records)
      (hlruLive : after.lru.live = state.lru.leftover env.lruAlloc) :
      InsertEffect filp env state (-1) after
  | stored {after : CacheState} {slot : RbPath ScanCacheRecord}
      (halloc : env.scanAlloc = true)
      (hlookup : scanLookup filp state = none)
      (hlruAlloc : env.lruAlloc = true)
      (hclear : ¬ state.lru.Stamped env.now)
      (hslot : descendSlot (keyCompare filp.devId filp.inodeNumber)
        state.scan.tree .root = .ok slot)
      (hbefore : state.scan.records = slot.before ++ slot.after)
      (hscan : after.scan.records = slot.before ++
        filp.record state.scan.next env.now :: slot.after)
      (hlru : after.lru.records.Perm
        (filp.entry state.lru.next env.now :: state.lru.records))
      (hlruLive : after.lru.live = insert state.lru.next state.lru.live) :
      InsertEffect filp env state 0 after
  | refreshed {after : CacheState} {old : ScanCacheRecord}
      {partner : LruCacheRecord}
      (halloc : env.scanAlloc = true)
      (hlookup : scanLookup filp state = some old)
      (hpartner : partner ∈ state.lru.records)
      (htime : partner.timeStamp = old.timeStamp)
      (hlruAlloc : env.lruAlloc = true)
      (hclear : ∀ entry ∈ state.lru.records, entry.timeStamp = env.now →
        entry = partner)
      (hscan : after.scan.records = state.scan.records.map fun other =>
        if other.id = old.id then filp.record state.scan.next env.now else other)
      (hlru : after.lru.records.Perm
        (filp.entry state.lru.next env.now ::
          state.lru.records.filter fun other => other.id ≠ partner.id))
      (hlruLive : after.lru.live =
        insert state.lru.next (state.lru.live.erase partner.id)) :
      InsertEffect filp env state 0 after
  | dropped {after : CacheState} {old : ScanCacheRecord}
      {partner : LruCacheRecord}
      (halloc : env.scanAlloc = true)
      (hlookup : scanLookup filp state = some old)
      (hpartner : partner ∈ state.lru.records)
      (htime : partner.timeStamp = old.timeStamp)
      (hcause : env.lruAlloc = false ∨ ∃ entry ∈ state.lru.records,
        entry.timeStamp = env.now ∧ entry ≠ partner)
      (hscan : after.scan.records =
        state.scan.records.filter fun other => other.id ≠ old.id)
      (hlru : after.lru.records =
        state.lru.records.filter fun other => other.id ≠ partner.id)
      (hlruLive : after.lru.live =
        if env.lruAlloc then insert state.lru.next (state.lru.live.erase partner.id)
        else state.lru.live.erase partner.id) :
      InsertEffect filp env state (-1) after
  | orphaned {after : CacheState} {old : ScanCacheRecord}
      (halloc : env.scanAlloc = true)
      (hlookup : scanLookup filp state = some old)
      (hmissing : ¬ state.lru.Stamped old.timeStamp)
      (hscan : after.scan.records =
        state.scan.records.filter fun other => other.id ≠ old.id)
      (hlru : after.lru = state.lru) :
      InsertEffect filp env state (-1) after

/-- The scan index after its slab has handed out the next record. -/
def Index.allocated {ρ : Type} (index : Index ρ) : Index ρ :=
  { index with
    live := insert index.next index.live
    next := index.next + 1 }

section ScanIndex

variable {scan : Index ScanCacheRecord} (hscan : scan.ScanSound)
  (filp : FileInfo) (now : Timespec)

include hscan

theorem Index.ScanSound.record_fresh :
    ∀ other ∈ scan.allocated.records,
      recordId other ≠ recordId (filp.record scan.next now) :=
  fun _ hother => hscan.wellFormed.id_ne_next hother

theorem Index.ScanSound.link
    {tree : RbTree ScanCacheRecord} {before after : List ScanCacheRecord}
    (hbefore : scan.records = before ++ after)
    (hafter : tree.inorder = before ++ filp.record scan.next now :: after) :
    ({ scan.allocated with tree := tree } : Index ScanCacheRecord).ScanSound where
  wellFormed := hscan.wellFormed.alloc.link hbefore hafter
    (Finset.mem_insert_self _ _) (hscan.record_fresh filp now)
  faults := hscan.faults
  owned := by
    intro id hid
    change ∃ record ∈ tree.inorder, record.id = id
    rw [hafter]
    rcases Finset.mem_insert.mp hid with heq | hmem
    · exact ⟨filp.record scan.next now, by simp, heq.symm⟩
    · obtain ⟨record, hrecord, heq⟩ := hscan.owned id hmem
      rw [hbefore, List.mem_append] at hrecord
      refine ⟨record, ?_, heq⟩
      rw [List.mem_append, List.mem_cons]
      rcases hrecord with h | h
      · exact .inl h
      · exact .inr (.inr h)

theorem Index.ScanSound.replaces
    {old : ScanCacheRecord} (hold : old ∈ scan.records) :
    Index.Replaces old (filp.record scan.next now) scan.allocated
      (scan.allocated.rbReplace old (filp.record scan.next now)) :=
  hscan.wellFormed.alloc.replaces hold (Finset.mem_insert_self _ _)
    (hscan.record_fresh filp now)

theorem Index.ScanSound.old_unlinked
    {old : ScanCacheRecord} (hold : old ∈ scan.records) :
    ∀ other ∈ (scan.allocated.rbReplace old (filp.record scan.next now)).records,
      recordId other ≠ recordId old := by
  intro other hother
  rw [(hscan.replaces filp now hold).records] at hother
  rcases (mem_map_replace hold).mp hother with heq | ⟨_, hne⟩
  · subst other
    exact (hscan.wellFormed.id_ne_next hold).symm
  · exact hne

/-- Replacing a record and freeing the old one. -/
theorem Index.ScanSound.refresh
    {old : ScanCacheRecord} (hold : old ∈ scan.records) :
    let after := (scan.allocated.rbReplace old
      (filp.record scan.next now)).kmemCacheFree old
    after.ScanSound ∧
      after.records = scan.records.map fun other =>
        if other.id = old.id then filp.record scan.next now else other := by
  have hreplaces := hscan.replaces filp now hold
  have hlive : recordId old ∈ (scan.allocated.rbReplace old
      (filp.record scan.next now)).live := by
    rw [hreplaces.live]
    exact Finset.mem_insert_of_mem (hscan.wellFormed.recordsLive old hold)
  have hrecords : ((scan.allocated.rbReplace old
      (filp.record scan.next now)).kmemCacheFree old).records =
        scan.records.map fun other =>
          if other.id = old.id then filp.record scan.next now else other := by
    rw [Index.records_kmemCacheFree]
    exact hreplaces.records
  refine ⟨⟨?_, ?_, ?_⟩, hrecords⟩
  · exact hreplaces.wellFormed.free (hscan.old_unlinked filp now hold)
  · rw [Index.faults_kmemCacheFree hlive, hreplaces.faults]
    exact hscan.faults
  · intro id hid
    rw [Index.live_kmemCacheFree, hreplaces.live, Finset.mem_erase] at hid
    rw [hrecords]
    rcases Finset.mem_insert.mp hid.2 with heq | hmem
    · exact ⟨filp.record scan.next now,
        (mem_map_replace (ρ := ScanCacheRecord) hold).mpr (.inl rfl), heq.symm⟩
    · obtain ⟨record, hrecord, heq⟩ := hscan.owned id hmem
      exact ⟨record, (mem_map_replace (ρ := ScanCacheRecord) hold).mpr
        (.inr ⟨hrecord, fun hsame => hid.1 (heq.symm.trans hsame)⟩), heq⟩

/-- Replacing a record, removing its replacement again and freeing both. -/
theorem Index.ScanSound.abandon
    (rb : Rbtree) {old : ScanCacheRecord} (hold : old ∈ scan.records) :
    let new := filp.record scan.next now
    let after := (((scan.allocated.rbReplace old new).rbRemove rb new).kmemCacheFree
      new).kmemCacheFree old
    after.ScanSound ∧
      after.records = scan.records.filter fun other => other.id ≠ old.id := by
  intro new after
  have hreplaces := hscan.replaces filp now hold
  have hnew : new ∈ (scan.allocated.rbReplace old new).records := by
    rw [hreplaces.records]
    exact (mem_map_replace hold).mpr (.inl rfl)
  have hdiscards := hreplaces.wellFormed.discards rb hnew
  have hne := hscan.wellFormed.id_ne_next hold
  have hrecords : after.records =
      scan.records.filter fun other => other.id ≠ old.id := by
    rw [Index.records_kmemCacheFree, hdiscards.records, hreplaces.records]
    exact filter_map_replace (hscan.record_fresh filp now)
  have hunlinked : ∀ other ∈ ((scan.allocated.rbReplace old new).rbRemove rb
      new |>.kmemCacheFree new).records, recordId other ≠ recordId old :=
    fun other hother => hscan.old_unlinked filp now hold other
      (hdiscards.mem_iff.mp hother).1
  have hlive : after.live = scan.live.erase old.id := by
    rw [Index.live_kmemCacheFree, hdiscards.live, hreplaces.live]
    change ((insert scan.next scan.live).erase scan.next).erase old.id = _
    rw [Finset.erase_insert hscan.wellFormed.next_notMem_live]
  refine ⟨⟨hdiscards.wellFormed.free hunlinked, ?_, ?_⟩, hrecords⟩
  · rw [Index.faults_kmemCacheFree, hdiscards.faults, hreplaces.faults]
    · exact hscan.faults
    · rw [hdiscards.live, hreplaces.live, Finset.mem_erase]
      exact ⟨hne, Finset.mem_insert_of_mem
        (hscan.wellFormed.recordsLive old hold)⟩
  · unfold Index.Owned
    rw [hlive, hrecords]
    exact owned_erase hscan.owned old

end ScanIndex

theorem Index.Discards.link_eq
    {scan after : Index ScanCacheRecord} {before rest : List ScanCacheRecord}
    {new : ScanCacheRecord}
    (hdiscards : Index.Discards new scan after)
    (hrecords : scan.records = before ++ new :: rest)
    (hfresh : ∀ other ∈ before ++ rest, recordId other ≠ recordId new) :
    after.records = before ++ rest := by
  rw [hdiscards.records, hrecords, List.filter_append, List.filter_cons]
  simp only [ne_eq, not_true_eq_false, decide_false, Bool.false_eq_true,
    if_false]
  rw [← List.filter_append]
  exact List.filter_eq_self.mpr (by simpa using hfresh)

theorem insertScanCacheRecord_of_alloc
    (rb : Rbtree) (state : CacheState) (filp : FileInfo) (env : InsertEnv)
    (halloc : env.scanAlloc = true) :
    insertScanCacheRecord rb filp env state =
      let new := filp.record state.scan.next env.now
      let inserted :=
        state.scan.allocated.rbInsert rb scanCacheInsertCompareTable new
      let state := ({ state with scan := inserted.2 } : CacheState).readScan new
      if inserted.1 ≠ 0 then
        findAndUpdateScanCacheRecord rb new env.lruAlloc state
      else
        let stored := insertLruCacheRecord rb new.timeStamp new.devId
          new.inodeNumber new.inodeGeneration env.lruAlloc state
        if stored.1 ≠ 0 then
          (stored.1, removeScanCacheRecord rb new stored.2)
        else stored := by
  unfold insertScanCacheRecord
  rw [halloc]
  rfl

/-- An insertion that finds no record with the key. -/
theorem insertScanCacheRecord_effect_of_absent
    (rb : Rbtree) {state : CacheState} (hsound : state.Sound)
    (filp : FileInfo) (env : InsertEnv) (halloc : env.scanAlloc = true)
    (hlookup : scanLookup filp state = none) :
    ∃ ret after, insertScanCacheRecord rb filp env state = (ret, after) ∧
      InsertEffect filp env state ret after ∧ after.Sound := by
  let new := filp.record state.scan.next env.now
  have hsearch : state.scan.allocated.rbSearch scanCacheInsertCompareTable
      new none = none := by
    rw [Index.rbSearch_none_eq]
    exact hlookup
  obtain ⟨slot, hslot, hbefore, hinsert, hafter⟩ :=
    Index.rbInsert_of_notFound rb hsearch
  let scan : Index ScanCacheRecord :=
    { state.scan.allocated with tree := rb.insertColor slot new }
  have hscan : scan.ScanSound :=
    hsound.scan.link filp env.now hbefore hafter
  have hread : ({ state with scan := scan } : CacheState).readScan new =
      { state with scan := scan } :=
    CacheState.readScan_eq_self (Finset.mem_insert_self _ _)
  obtain ⟨ret, lru, hstore, heffect, hlru⟩ :=
    insertLruCacheRecord_effect rb { state with scan := scan }
      hsound.lru new.timeStamp new.devId new.inodeNumber new.inodeGeneration
      env.lruAlloc
  have hresult : insertScanCacheRecord rb filp env state =
      if ret ≠ 0 then
        (ret, removeScanCacheRecord rb new { scan := scan, lru := lru })
      else (ret, { scan := scan, lru := lru }) := by
    rw [insertScanCacheRecord_of_alloc rb state filp env halloc]
    dsimp only
    rw [hinsert]
    dsimp only
    rw [if_neg (by decide), hread, hstore]
  rw [hresult]
  cases heffect with
  | failed hcause hrecords hlive =>
      have hnew : new ∈ scan.records := by
        rw [hafter]
        simp
      have hdiscards := hscan.wellFormed.discards rb hnew
      rw [if_pos (by decide)]
      refine ⟨_, _, rfl, .rejected halloc hlookup hcause ?_ ?_ hrecords hlive,
        hscan.discards hdiscards, hlru⟩
      · refine (hdiscards.link_eq hafter ?_).trans hbefore.symm
        intro other hother
        exact hsound.scan.record_fresh filp env.now other (hbefore ▸ hother)
      · refine hdiscards.live.trans ?_
        exact Finset.erase_insert hsound.scan.wellFormed.next_notMem_live
  | stored hlruAlloc hclear hrecords hlive =>
      rw [if_neg (by decide)]
      exact ⟨_, _, rfl, .stored halloc hlookup hlruAlloc hclear hslot hbefore
        hafter hrecords hlive, hscan, hlru⟩

/-- An insertion that finds an old record with the key. -/
theorem insertScanCacheRecord_effect_of_present
    (rb : Rbtree) {state : CacheState} (hsound : state.Sound)
    (filp : FileInfo) (env : InsertEnv) (halloc : env.scanAlloc = true)
    {old : ScanCacheRecord} (hlookup : scanLookup filp state = some old) :
    ∃ ret after, insertScanCacheRecord rb filp env state = (ret, after) ∧
      InsertEffect filp env state ret after ∧ after.Sound := by
  let new := filp.record state.scan.next env.now
  have hold := (scanLookup_eq_some hlookup).1
  have hsearch : state.scan.allocated.rbSearch scanCacheInsertCompareTable
      new none = some old := by
    rw [Index.rbSearch_none_eq]
    exact hlookup
  have hinsert := Index.rbInsert_of_found rb hsearch
  let scan := state.scan.allocated.rbReplace old new
  have hreplaces : Index.Replaces old new state.scan.allocated scan :=
    hsound.scan.replaces filp env.now hold
  have hnewLive : new.id ∈ scan.live := by
    rw [hreplaces.live]
    exact Finset.mem_insert_self _ _
  have holdLive : old.id ∈ scan.live := by
    rw [hreplaces.live]
    exact Finset.mem_insert_of_mem (hsound.scan.wellFormed.recordsLive old hold)
  have hrefresh := hsound.scan.refresh filp env.now hold
  have habandon := hsound.scan.abandon filp env.now rb hold
  let updating : CacheState := { state with scan := scan }
  have hresult : insertScanCacheRecord rb filp env state =
      let updated := findAndUpdateLruCacheRecord rb old new env.lruAlloc updating
      let state :=
        if updated.1 ≠ 0 then removeScanCacheRecord rb new updated.2
        else updated.2
      (updated.1, { state with scan := state.scan.kmemCacheFree old }) := by
    rw [insertScanCacheRecord_of_alloc rb state filp env halloc]
    dsimp only
    rw [hinsert]
    dsimp only
    rw [if_pos (by decide),
      CacheState.readScan_eq_self (Finset.mem_insert_self _ _)]
    unfold findAndUpdateScanCacheRecord
    dsimp only
    rw [hsearch]
  by_cases hpresent : state.lru.Stamped old.timeStamp
  · obtain ⟨partner, hpartner, htime⟩ := hpresent
    obtain ⟨between, ret, lru, hupdate, hdiscards, heffect, hlru⟩ :=
      findAndUpdateLruCacheRecord_of_partner rb updating hsound.lru
        holdLive env.lruAlloc hnewLive hpartner htime
    have hstamped :=
      hsound.lru.stamped_discards_iff hpartner hdiscards env.now
    rw [hupdate] at hresult
    cases heffect with
    | failed hcause hrecords hlive =>
        refine ⟨_, _, hresult, .dropped halloc hlookup hpartner htime
          (hcause.imp id hstamped.mp) habandon.2
          (hrecords.trans hdiscards.records) ?_, habandon.1, hlru⟩
        refine hlive.trans ?_
        unfold Index.leftover
        rw [hdiscards.live, hdiscards.next]
        rfl
    | stored hlruAlloc hclear hrecords hlive =>
        refine ⟨_, _, hresult, .refreshed halloc hlookup hpartner htime
          hlruAlloc ?_ hrefresh.2 ?_ ?_, hrefresh.1, hlru⟩
        · intro entry hmem hnow
          by_contra hne
          exact hclear (hstamped.mpr ⟨entry, hmem, hnow, hne⟩)
        · rw [hdiscards.records] at hrecords
          exact hrecords
        · refine hlive.trans ?_
          rw [hdiscards.live, hdiscards.next]
          rfl
  · rw [findAndUpdateLruCacheRecord_of_missing rb updating hsound.lru
      holdLive env.lruAlloc hpresent] at hresult
    exact ⟨_, _, hresult, .orphaned halloc hlookup hpresent habandon.2 rfl,
      habandon.1, hsound.lru⟩

theorem insertScanCacheRecord_effect
    (rb : Rbtree) {state : CacheState} (hsound : state.Sound)
    (filp : FileInfo) (env : InsertEnv) :
    ∃ ret after, insertScanCacheRecord rb filp env state = (ret, after) ∧
      InsertEffect filp env state ret after ∧ after.Sound := by
  cases halloc : env.scanAlloc with
  | false =>
      refine ⟨-ENOMEM, state, ?_, .noMemory halloc, hsound⟩
      unfold insertScanCacheRecord
      rw [halloc, Index.kmemCacheAlloc_false]
  | true =>
      cases hlookup : scanLookup filp state with
      | none =>
          exact insertScanCacheRecord_effect_of_absent rb hsound filp env halloc
            hlookup
      | some old =>
          exact insertScanCacheRecord_effect_of_present rb hsound filp env halloc
            hlookup

/-! ## Lookup and removal by key -/

theorem findScanCacheRecord_eq_some
    {key : ScanCacheRecordCompare} {state : CacheState} {record : ScanCacheRecord}
    (hfind : findScanCacheRecord key state = some record) :
    record ∈ state.scan.records ∧ record.devId = key.devId ∧
      record.inodeNumber = key.inodeNumber ∧
      record.inodeGeneration = key.inodeGeneration := by
  obtain ⟨hmem, hzero⟩ := Index.rbSearch_eq_some hfind
  exact ⟨hmem, (scanCacheFindCompareTable_eq_zero_iff _ _).mp hzero⟩

/-- How `find_remove_scan_cache_record` ends. -/
inductive FindRemoveEffect (filp : FileInfo) (state : CacheState) :
    Bool → CacheState → Prop
  | absent (hfind : findScanCacheRecord filp.key state = none) :
      FindRemoveEffect filp state false state
  | removed {after : CacheState} {record : ScanCacheRecord}
      {partner : LruCacheRecord}
      (hfind : findScanCacheRecord filp.key state = some record)
      (hpartner : partner ∈ state.lru.records)
      (htime : partner.timeStamp = record.timeStamp)
      (hscan : Index.Discards record state.scan after.scan)
      (hlru : Index.Discards partner state.lru after.lru) :
      FindRemoveEffect filp state true after
  | unpaired {after : CacheState} {record : ScanCacheRecord}
      (hfind : findScanCacheRecord filp.key state = some record)
      (hmissing : ¬ state.lru.Stamped record.timeStamp)
      (hscan : Index.Discards record state.scan after.scan)
      (hlru : after.lru = state.lru) :
      FindRemoveEffect filp state true after

theorem findRemoveScanCacheRecord_effect
    (rb : Rbtree) {state : CacheState} (hsound : state.Sound) (filp : FileInfo) :
    ∃ ret after, findRemoveScanCacheRecord rb filp state = (ret, after) ∧
      FindRemoveEffect filp state ret after ∧ after.Sound := by
  cases hfind : findScanCacheRecord filp.key state with
  | none =>
      refine ⟨false, state, ?_, .absent hfind, hsound⟩
      unfold findRemoveScanCacheRecord
      rw [hfind]
  | some record =>
      have hmem := (findScanCacheRecord_eq_some hfind).1
      have hread : state.readScan record = state :=
        CacheState.readScan_eq_self
          (hsound.scan.wellFormed.recordsLive record hmem)
      have hresult : findRemoveScanCacheRecord rb filp state =
          (true, removeScanCacheRecord rb record
            (findRemoveLruCacheRecord rb record.timeStamp state).2) := by
        unfold findRemoveScanCacheRecord
        rw [hfind]
        dsimp only
        rw [hread, hread]
      have hscan := hsound.scan.wellFormed.discards rb hmem
      cases hfound : findLruCacheRecord ⟨record.timeStamp⟩ state with
      | none =>
          have hmissing := (lruSearch_eq_none_iff hsound.lru.ranked _).mp hfound
          have hlru : findRemoveLruCacheRecord rb record.timeStamp state =
              (false, state) := by
            unfold findRemoveLruCacheRecord
            rw [hfound]
          rw [hlru] at hresult
          exact ⟨_, _, hresult, .unpaired hfind hmissing hscan rfl,
            hsound.scan.discards hscan, hsound.lru⟩
      | some partner =>
          obtain ⟨hpartner, htime⟩ := (lruSearch_iff hsound.lru.ranked _ _).mp hfound
          have hlru : findRemoveLruCacheRecord rb record.timeStamp state =
              (true, removeLruCacheRecord rb partner state) := by
            unfold findRemoveLruCacheRecord
            rw [hfound]
          have hdiscards := hsound.lru.wellFormed.discards rb hpartner
          rw [hlru] at hresult
          exact ⟨_, _, hresult, .removed hfind hpartner htime hscan hdiscards,
            hsound.scan.discards hscan, hsound.lru.discards hdiscards⟩

/-! ## Purging -/

theorem Index.rbFirst_eq {ρ : Type} (index : Index ρ) :
    index.rbFirst = index.records.head? := RbTree.first_value index.tree

theorem Index.Discards.records_tail
    {ρ : Type} [SlabRecord ρ] {index after : Index ρ} {record : ρ}
    {rest : List ρ} (hwell : index.WellFormed)
    (hdiscards : Index.Discards record index after)
    (hrecords : index.records = record :: rest) : after.records = rest := by
  have hnodup := hwell.idsNodup
  rw [hrecords, List.map_cons, List.nodup_cons] at hnodup
  rw [hdiscards.records, hrecords, List.filter_cons]
  simp only [ne_eq, not_true_eq_false, decide_false, Bool.false_eq_true,
    if_false]
  apply List.filter_eq_self.mpr
  intro other hother
  simp only [decide_eq_true_eq]
  intro heq
  exact hnodup.1 (heq ▸ List.mem_map_of_mem hother)

theorem purgeScanLoop_spec
    (rb : Rbtree) (fuel : ℕ) {state : CacheState} (hsound : state.Sound)
    (hfuel : state.scan.records.length ≤ fuel) :
    (purgeScanLoop rb fuel state).Sound ∧
      (purgeScanLoop rb fuel state).scan.records = [] ∧
      (purgeScanLoop rb fuel state).lru = state.lru := by
  induction fuel generalizing state with
  | zero =>
      exact ⟨hsound, List.length_eq_zero_iff.mp (Nat.le_zero.mp hfuel), rfl⟩
  | succ fuel ih =>
      unfold purgeScanLoop
      rw [Index.rbFirst_eq]
      cases hrecords : state.scan.records with
      | nil => exact ⟨hsound, hrecords, rfl⟩
      | cons record rest =>
          have hmem : record ∈ state.scan.records := by simp [hrecords]
          have hdiscards := hsound.scan.wellFormed.discards rb hmem
          have hrest := hdiscards.records_tail hsound.scan.wellFormed hrecords
          dsimp only [List.head?_cons]
          rw [CacheState.readScan_eq_self
            (hsound.scan.wellFormed.recordsLive record hmem)]
          have hafter : (removeScanCacheRecord rb record state).Sound :=
            ⟨hsound.scan.discards hdiscards, hsound.lru⟩
          apply ih hafter
          rw [hrecords, List.length_cons] at hfuel
          rw [show (removeScanCacheRecord rb record state).scan.records = rest
            from hrest]
          omega

theorem purgeLruLoop_spec
    (rb : Rbtree) (fuel : ℕ) {state : CacheState} (hsound : state.Sound)
    (hfuel : state.lru.records.length ≤ fuel) :
    (purgeLruLoop rb fuel state).Sound ∧
      (purgeLruLoop rb fuel state).lru.records = [] ∧
      (purgeLruLoop rb fuel state).scan = state.scan ∧
      ∀ id, id ∈ (purgeLruLoop rb fuel state).lru.live ↔
        id ∈ state.lru.live ∧ ∀ entry ∈ state.lru.records, entry.id ≠ id := by
  induction fuel generalizing state with
  | zero =>
      have hnil := List.length_eq_zero_iff.mp (Nat.le_zero.mp hfuel)
      exact ⟨hsound, hnil, rfl, by simp [purgeLruLoop, hnil]⟩
  | succ fuel ih =>
      unfold purgeLruLoop
      rw [Index.rbFirst_eq]
      cases hrecords : state.lru.records with
      | nil => exact ⟨hsound, hrecords, rfl, by simp⟩
      | cons entry rest =>
          have hmem : entry ∈ state.lru.records := by simp [hrecords]
          have hdiscards := hsound.lru.wellFormed.discards rb hmem
          have hrest : (removeLruCacheRecord rb entry state).lru.records = rest :=
            hdiscards.records_tail hsound.lru.wellFormed hrecords
          have hlive : (removeLruCacheRecord rb entry state).lru.live =
              state.lru.live.erase entry.id := hdiscards.live
          dsimp only [List.head?_cons]
          rw [CacheState.readLru_eq_self
            (hsound.lru.wellFormed.recordsLive entry hmem)]
          have hlength : (removeLruCacheRecord rb entry
              state).lru.records.length ≤ fuel := by
            rw [hrecords, List.length_cons] at hfuel
            rw [hrest]
            omega
          have hnext : (removeLruCacheRecord rb entry state).Sound :=
            ⟨hsound.scan, hsound.lru.discards hdiscards⟩
          obtain ⟨hafter, hempty, hscan, hids⟩ := ih hnext hlength
          refine ⟨hafter, hempty, hscan, ?_⟩
          intro id
          rw [hids id, hlive, hrest, Finset.mem_erase, List.forall_mem_cons]
          constructor
          · rintro ⟨⟨hne, hid⟩, hothers⟩
            exact ⟨hid, hne.symm, hothers⟩
          · rintro ⟨hid, hne, hothers⟩
            exact ⟨⟨hne.symm, hid⟩, hothers⟩

theorem purgeScanCache_spec
    (rb : Rbtree) {state : CacheState} (hsound : state.Sound) :
    (purgeScanCache rb state).Sound ∧
      (purgeScanCache rb state).scan.records = [] ∧
      (purgeScanCache rb state).lru = state.lru :=
  purgeScanLoop_spec rb _ hsound le_rfl

theorem purgeCache_spec
    (rb : Rbtree) {state : CacheState} (hsound : state.Sound) :
    (purgeCache rb state).Sound ∧
      (purgeCache rb state).scan.records = [] ∧
      (purgeCache rb state).lru.records = [] ∧
      ∀ id, id ∈ (purgeCache rb state).lru.live ↔
        id ∈ state.lru.live ∧ ∀ entry ∈ state.lru.records, entry.id ≠ id := by
  obtain ⟨hscanSound, hscanEmpty, hlru⟩ := purgeScanCache_spec rb hsound
  obtain ⟨hafter, hempty, hscan, hids⟩ :=
    purgeLruLoop_spec rb _ hscanSound le_rfl
  refine ⟨hafter, ?_, hempty, ?_⟩
  · exact (congrArg Index.records hscan).trans hscanEmpty
  · intro id
    refine (hids id).trans ?_
    rw [hlru]

/-! ## Eviction -/

/-- One round of the loop of `remove_cache_entry` that removes a pair. -/
structure Evicts (entry : LruCacheRecord) (record : ScanCacheRecord)
    (before after : CacheState) : Prop where
  oldest : before.lru.records.head? = some entry
  found : findScanCacheRecord entry.key before = some record
  scan : Index.Discards record before.scan after.scan
  lru : Index.Discards entry before.lru after.lru
  sound : after.Sound

/-- A round stops the loop or removes a pair and goes on. -/
theorem removeCacheLoop_round
    (rb : Rbtree) (missing : ℕ) {state : CacheState} (hsound : state.Sound) :
    (state.lru.records = [] ∧
        removeCacheLoop rb (missing + 1) state = state) ∨
      (∃ entry, state.lru.records.head? = some entry ∧
        findScanCacheRecord entry.key state = none ∧
        removeCacheLoop rb (missing + 1) state = state) ∨
      ∃ entry record after, Evicts entry record state after ∧
        removeCacheLoop rb (missing + 1) state =
          removeCacheLoop rb missing after := by
  have hfirst := Index.rbFirst_eq state.lru
  cases hrecords : state.lru.records with
  | nil =>
      left
      refine ⟨rfl, ?_⟩
      unfold removeCacheLoop
      rw [hfirst, hrecords]
      rfl
  | cons entry rest =>
      right
      have hmem : entry ∈ state.lru.records := by simp [hrecords]
      have hread : (CacheState.readLru entry)^[4] state = state :=
        Function.iterate_fixed (CacheState.readLru_eq_self
          (hsound.lru.wellFormed.recordsLive entry hmem)) 4
      cases hfind : findScanCacheRecord entry.key state with
      | none =>
          left
          refine ⟨entry, rfl, hfind, ?_⟩
          unfold removeCacheLoop
          rw [hfirst, hrecords]
          dsimp only [List.head?_cons]
          rw [hread, hfind]
      | some record =>
          right
          have hfound := (findScanCacheRecord_eq_some hfind).1
          have hlru := hsound.lru.wellFormed.discards rb hmem
          have hscan := hsound.scan.wellFormed.discards rb hfound
          refine ⟨entry, record, removeScanCacheRecord rb record
            (removeLruCacheRecord rb entry state), ?_, ?_⟩
          · exact {
              oldest := by rw [hrecords]; rfl
              found := hfind
              scan := hscan
              lru := hlru
              sound := ⟨hsound.scan.discards hscan, hsound.lru.discards hlru⟩ }
          · rw [removeCacheLoop, hfirst, hrecords]
            dsimp only [List.head?_cons]
            rw [hread, hfind]

/-- What every removed pair preserves is preserved by the whole loop. -/
theorem removeCacheLoop_invariant
    (rb : Rbtree) (inv : CacheState → Prop)
    (hevicts : ∀ {state after : CacheState} {entry : LruCacheRecord}
      {record : ScanCacheRecord}, state.Sound → inv state →
      Evicts entry record state after → inv after)
    (missing : ℕ) {state : CacheState} (hsound : state.Sound)
    (hinv : inv state) :
    (removeCacheLoop rb missing state).Sound ∧
      inv (removeCacheLoop rb missing state) := by
  induction missing generalizing state with
  | zero => exact ⟨hsound, hinv⟩
  | succ missing ih =>
      rcases removeCacheLoop_round rb missing hsound with
        ⟨_, hstop⟩ | ⟨_, _, _, hstop⟩ | ⟨entry, record, after, hround, hnext⟩
      · rw [hstop]
        exact ⟨hsound, hinv⟩
      · rw [hstop]
        exact ⟨hsound, hinv⟩
      · rw [hnext]
        exact ih hround.sound (hevicts hsound hinv hround)

theorem removeCacheEntry_invariant
    (rb : Rbtree) (inv : CacheState → Prop)
    (hevicts : ∀ {state after : CacheState} {entry : LruCacheRecord}
      {record : ScanCacheRecord}, state.Sound → inv state →
      Evicts entry record state after → inv after)
    (count : ℤ) {state : CacheState} (hsound : state.Sound)
    (hinv : inv state) :
    (removeCacheEntry rb count state).Sound ∧
      inv (removeCacheEntry rb count state) := by
  unfold removeCacheEntry
  split_ifs
  · exact ⟨hsound, hinv⟩
  · exact removeCacheLoop_invariant rb inv hevicts count.toNat hsound hinv

/-! ## Runs -/

theorem CacheState.Sound.step
    {state : CacheState} (hsound : state.Sound) (rb : Rbtree) (call : Call) :
    (step rb state call).Sound := by
  cases call with
  | insert filp env =>
      obtain ⟨ret, after, hresult, _, hafter⟩ :=
        insertScanCacheRecord_effect rb hsound filp env
      simpa [ScanCache.step, execute, hresult] using hafter
  | findRemove filp =>
      obtain ⟨ret, after, hresult, _, hafter⟩ :=
        findRemoveScanCacheRecord_effect rb hsound filp
      simpa [ScanCache.step, execute, hresult] using hafter
  | removeCacheEntry count =>
      exact (removeCacheEntry_invariant rb (fun _ => True)
        (fun _ _ _ => trivial) count hsound trivial).1
  | purgeScanCache => exact (purgeScanCache_spec rb hsound).1
  | purgeCache => exact (purgeCache_spec rb hsound).1

end LinuxKernelCode.ScanCache
