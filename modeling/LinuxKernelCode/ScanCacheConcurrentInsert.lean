import LinuxKernelCode.ScanCacheOwnership

/-!
# Two insertions of one file at once

Two calls of `insert_scan_cache_record` for one device and inode run at once.
A call publishes its scan record first and its LRU record some steps later.
In between the other call may replace the scan record and look for an LRU
record that is not there yet; it then takes the replacement out again, and the
file is left in one tree only.  Likewise both calls may look up the same old
record and both replace it.

The module proves that nothing else goes wrong.  The call that has published
and not yet stored its LRU record is the active one; the other is still to
publish, waits for the LRU record of the active call, or is through.
-/

namespace LinuxKernelCode.ScanCache

open RedBlack Runs Ownership

/-- Two insertions of one file, with any generations and distinct time
stamps. -/
structure SameFileInserts where
  devId : BitVec 32
  inodeNumber : BitVec 64
  generation : Bool → BitVec 32
  time : Bool → Timespec
  distinct : time true ≠ time false

def SameFileInserts.file (inserts : SameFileInserts) (call : Bool) : FileInfo :=
  ⟨inserts.devId, inserts.inodeNumber, inserts.generation call⟩

/-- Both allocations of both calls succeed. -/
def SameFileInserts.request (inserts : SameFileInserts) (call : Bool) : Request :=
  .insert (inserts.file call) ⟨true, inserts.time call, true⟩

def SameFileInserts.tuple (inserts : SameFileInserts) (call : Bool) :
    CacheTuple :=
  ⟨inserts.time call, inserts.devId, inserts.inodeNumber,
    inserts.generation call⟩

/-- The key of the file. -/
def SameFileInserts.Keyed (inserts : SameFileInserts) (tuple : CacheTuple) :
    Prop :=
  tuple.devId = inserts.devId ∧ tuple.inodeNumber = inserts.inodeNumber

instance (inserts : SameFileInserts) : DecidablePred inserts.Keyed :=
  fun tuple => inferInstanceAs (Decidable (tuple.devId = inserts.devId ∧ _))

/-- Each tree holds one record for the file, and both carry the fields of the
same call. -/
def SameFileInserts.Agree (inserts : SameFileInserts) (cache : CacheState) :
    Prop :=
  ∃ call, cache.scanTuples.filter inserts.Keyed = [inserts.tuple call] ∧
    cache.lruTuples.filter inserts.Keyed = [inserts.tuple call]

instance (inserts : SameFileInserts) (cache : CacheState) :
    Decidable (inserts.Agree cache) :=
  inferInstanceAs (Decidable (∃ _, _))

/-- The descent through the scan tree ends at the record of the file when
there is one. -/
def SameFileInserts.LookupExact
    (inserts : SameFileInserts) (cache : CacheState) : Prop :=
  ∀ record ∈ cache.scan.records, inserts.Keyed record.tuple →
    (scanLookup (inserts.file true) cache).isSome

instance (inserts : SameFileInserts) (cache : CacheState) :
    Decidable (inserts.LookupExact cache) :=
  inferInstanceAs (Decidable (∀ record ∈ cache.scan.records, _ → _))

/-- An ordered descent through an ordered tree does. -/
theorem SameFileInserts.lookupExact_of_ordered
    {inserts : SameFileInserts} {cache : CacheState}
    (hranked : Ranked ScanCacheRecord.rank cache.scan.records)
    (hdescent : DescentOrdered (inserts.file true) cache) :
    inserts.LookupExact cache := by
  intro record hrecord hkey
  rw [(scanLookup_iff hranked hdescent record).mpr
    ⟨hrecord, FileInfo.rank_eq_iff.mpr hkey⟩]
  rfl

/-- What the next step must find: the record of the file where it descends
through the scan tree, the old scan record still linked where it replaces it,
and the LRU record of the old scan record linked where it looks for that. -/
def SameFileInserts.OrderlyAt
    (inserts : SameFileInserts) (cache : CacheState) : Pc → Prop
  | .insertLink _ _ => inserts.LookupExact cache
  | .updateSearch _ _ => inserts.LookupExact cache
  | .updateReplace old _ _ => old ∈ cache.scan.records
  | .updateLruSearch old _ _ => cache.lru.Stamped old.timeStamp
  | _ => True

instance (inserts : SameFileInserts) (cache : CacheState) :
    DecidablePred (inserts.OrderlyAt cache) := fun pc => by
  cases pc <;> unfold SameFileInserts.OrderlyAt <;> infer_instance

def SameFileInserts.Orderly
    (inserts : SameFileInserts) (world : World Bool) (call : Bool) : Prop :=
  inserts.OrderlyAt world.cache (world.pcs call)

instance (inserts : SameFileInserts) (world : World Bool) (call : Bool) :
    Decidable (inserts.Orderly world call) :=
  inferInstanceAs (Decidable (inserts.OrderlyAt _ _))

/-! ## The records of the file in the two trees -/

variable {inserts : SameFileInserts}

/-- `current` is the record of the file in the scan tree. -/
def SameFileInserts.ScanHolds
    (inserts : SameFileInserts) (records : List ScanCacheRecord)
    (current : Option ScanCacheRecord) : Prop :=
  ∀ record, record ∈ records ∧ inserts.Keyed record.tuple ↔
    current = some record

/-- `current` is the record of the file in the LRU tree, and no record of
another file carries a time stamp of the two calls. -/
structure SameFileInserts.LruHolds
    (inserts : SameFileInserts) (entries : List LruCacheRecord)
    (current : Option LruCacheRecord) : Prop where
  ranked : Ranked LruCacheRecord.rank entries
  only : ∀ entry, entry ∈ entries ∧ inserts.Keyed entry.tuple ↔
    current = some entry
  clear : ∀ entry ∈ entries, ¬ inserts.Keyed entry.tuple →
    ∀ call, entry.timeStamp ≠ inserts.time call

theorem SameFileInserts.keyed_of_eq
    {call : Bool} {tuple : CacheTuple} (heq : tuple = inserts.tuple call) :
    inserts.Keyed tuple := by
  subst tuple
  exact ⟨rfl, rfl⟩

theorem SameFileInserts.ScanHolds.link
    {before after : List ScanCacheRecord} {new : ScanCacheRecord}
    (hscan : inserts.ScanHolds (before ++ after) none)
    (hnew : inserts.Keyed new.tuple) :
    inserts.ScanHolds (before ++ new :: after) (some new) := by
  intro record
  have hmem : record ∈ before ++ new :: after ↔
      record = new ∨ record ∈ before ++ after := by
    rw [List.perm_middle.mem_iff, List.mem_cons]
  rw [hmem, Option.some_inj]
  constructor
  · rintro ⟨heq | hold, hkey⟩
    · exact heq.symm
    · exact absurd ((hscan record).mp ⟨hold, hkey⟩) (by simp)
  · intro heq
    subst record
    exact ⟨.inl rfl, hnew⟩

theorem SameFileInserts.ScanHolds.replace
    {records : List ScanCacheRecord} {old new : ScanCacheRecord}
    (hscan : inserts.ScanHolds records (some old))
    (hnew : inserts.Keyed new.tuple) :
    inserts.ScanHolds (records.map fun other =>
      if recordId other = recordId old then new else other) (some new) := by
  intro record
  rw [mem_map_replace ((hscan old).mpr rfl).1, Option.some_inj]
  constructor
  · rintro ⟨heq | ⟨hold, hne⟩, hkey⟩
    · exact heq.symm
    · have heq := Option.some_inj.mp ((hscan record).mp ⟨hold, hkey⟩)
      exact absurd (congrArg recordId heq.symm) hne
  · intro heq
    subst record
    exact ⟨.inl rfl, hnew⟩

theorem SameFileInserts.LruHolds.not_stamped
    {lru : Index LruCacheRecord} (hlru : inserts.LruHolds lru.records none)
    (call : Bool) : ¬ lru.Stamped (inserts.time call) := by
  rintro ⟨entry, hentry, htime⟩
  by_cases hkey : inserts.Keyed entry.tuple
  · exact absurd ((hlru.only entry).mp ⟨hentry, hkey⟩) (by simp)
  · exact hlru.clear entry hentry hkey call htime

theorem SameFileInserts.LruHolds.link
    {before after : List LruCacheRecord} {new : LruCacheRecord}
    (hlru : inserts.LruHolds (before ++ after) none)
    (hranked : Ranked LruCacheRecord.rank (before ++ new :: after))
    (hnew : inserts.Keyed new.tuple) :
    inserts.LruHolds (before ++ new :: after) (some new) := by
  have hmem : ∀ entry, entry ∈ before ++ new :: after ↔
      entry = new ∨ entry ∈ before ++ after := by
    intro entry
    rw [List.perm_middle.mem_iff, List.mem_cons]
  refine ⟨hranked, ?_, ?_⟩
  · intro entry
    rw [hmem, Option.some_inj]
    constructor
    · rintro ⟨heq | hold, hkey⟩
      · exact heq.symm
      · exact absurd ((hlru.only entry).mp ⟨hold, hkey⟩) (by simp)
    · intro heq
      subst entry
      exact ⟨.inl rfl, hnew⟩
  · intro entry hentry hkey
    rcases (hmem entry).mp hentry with heq | hold
    · subst entry
      exact absurd hnew hkey
    · exact hlru.clear entry hold hkey

theorem SameFileInserts.LruHolds.remove
    {entries : List LruCacheRecord} {current : LruCacheRecord}
    (hlru : inserts.LruHolds entries (some current)) :
    inserts.LruHolds
      (entries.filter fun other => recordId other ≠ recordId current) none := by
  have hmem : ∀ entry, (entry ∈ entries.filter fun other =>
      recordId other ≠ recordId current) ↔
        entry ∈ entries ∧ recordId entry ≠ recordId current := by simp
  refine ⟨hlru.ranked.sublist List.filter_sublist, ?_, ?_⟩
  · intro entry
    rw [hmem]
    constructor
    · rintro ⟨⟨hold, hne⟩, hkey⟩
      have heq := Option.some_inj.mp ((hlru.only entry).mp ⟨hold, hkey⟩)
      exact absurd (congrArg recordId heq.symm) hne
    · intro hnone
      contradiction
  · intro entry hentry
    exact hlru.clear entry ((hmem entry).mp hentry).1

/-! ## Where a call may stand -/

/-- The call is still to put its scan record into the tree.  From
`Alredy present` on, the tree holds a record of the file. -/
def SameFileInserts.Unpublished
    (inserts : SameFileInserts) (call : Bool) (occupied : Prop) : Pc → Prop
  | .insertAlloc filp env =>
      filp = inserts.file call ∧ env = ⟨true, inserts.time call, true⟩
  | .insertFill filp env _ =>
      filp = inserts.file call ∧ env = ⟨true, inserts.time call, true⟩
  | .insertLink record lruAlloc =>
      record.tuple = inserts.tuple call ∧ lruAlloc = true
  | .insertPresent record lruAlloc =>
      record.tuple = inserts.tuple call ∧ lruAlloc = true ∧ occupied
  | .updateSearch new lruAlloc =>
      new.tuple = inserts.tuple call ∧ lruAlloc = true ∧ occupied
  | .updateReplace old new lruAlloc =>
      new.tuple = inserts.tuple call ∧ lruAlloc = true ∧
        inserts.Keyed old.tuple
  | _ => False

/-- The call has put its scan record into the tree and takes the LRU tree from
the record `current` of the file to its own. -/
def SameFileInserts.Active
    (inserts : SameFileInserts) (call : Bool)
    (current : Option LruCacheRecord) : Pc → Prop
  | .insertArguments record lruAlloc =>
      record.tuple = inserts.tuple call ∧ lruAlloc = true ∧ current = none
  | .lruCacheAlloc caller lruAlloc =>
      caller.linked.tuple = inserts.tuple call ∧ lruAlloc = true ∧
        current = none
  | .lruFill caller _ =>
      caller.linked.tuple = inserts.tuple call ∧ current = none
  | .lruLink _ entry => entry.tuple = inserts.tuple call ∧ current = none
  | .updateKey old new lruAlloc =>
      new.tuple = inserts.tuple call ∧ lruAlloc = true ∧
        ∃ entry, current = some entry ∧ entry.timeStamp = old.timeStamp ∧
          entry.timeStamp ≠ inserts.time call
  | .updateLruSearch old new lruAlloc =>
      new.tuple = inserts.tuple call ∧ lruAlloc = true ∧
        ∃ entry, current = some entry ∧ entry.timeStamp = old.timeStamp ∧
          entry.timeStamp ≠ inserts.time call
  | .updateLruRemove _ new entry lruAlloc =>
      new.tuple = inserts.tuple call ∧ lruAlloc = true ∧
        current = some entry ∧ entry.timeStamp ≠ inserts.time call
  | .updateLruFree _ new _ lruAlloc =>
      new.tuple = inserts.tuple call ∧ lruAlloc = true ∧ current = none
  | .updateArguments _ new lruAlloc =>
      new.tuple = inserts.tuple call ∧ lruAlloc = true ∧ current = none
  | .updateFreeOld _ ret =>
      ret = 0 ∧ ∃ entry, current = some entry ∧
        entry.tuple = inserts.tuple call
  | .returned reply =>
      reply = .code 0 ∧ ∃ entry, current = some entry ∧
        entry.tuple = inserts.tuple call
  | _ => False

/-- The call has replaced the scan record of the other call and is to look for
the LRU record of that. -/
def SameFileInserts.Waiting (inserts : SameFileInserts) (call : Bool) : Pc → Prop
  | .updateKey old new lruAlloc =>
      new.tuple = inserts.tuple call ∧ lruAlloc = true ∧
        old.timeStamp = inserts.time (!call)
  | .updateLruSearch old new lruAlloc =>
      new.tuple = inserts.tuple call ∧ lruAlloc = true ∧
        old.timeStamp = inserts.time (!call)
  | _ => False

def Pc.Finished : Pc → Prop
  | .updateFreeOld _ ret => ret = 0
  | .returned reply => reply = .code 0
  | _ => False

/-! ## Steps of the active call -/

/-- The action neither links nor unlinks a record. -/
def Action.Silent : Action → Prop
  | .rbInsertScan _ => False
  | .rbInsertLru _ => False
  | .rbReplaceScan _ _ => False
  | .rbRemoveScan _ => False
  | .rbRemoveLru _ => False
  | _ => True

theorem Action.silent_records
    (rb : Rbtree) (action : Action) (hsilent : action.Silent)
    (cache : CacheState) :
    (action.perform rb cache).2.scan.records = cache.scan.records ∧
      (action.perform rb cache).2.lru.records = cache.lru.records := by
  cases action with
  | kmemCacheAllocScan succeeds => cases succeeds <;> exact ⟨rfl, rfl⟩
  | kmemCacheAllocLru succeeds => cases succeeds <;> exact ⟨rfl, rfl⟩
  | kmemCacheFreeScan record =>
      exact ⟨cache.scan.records_kmemCacheFree record, rfl⟩
  | kmemCacheFreeLru entry =>
      exact ⟨rfl, cache.lru.records_kmemCacheFree entry⟩
  | readScan record =>
      exact ⟨congrArg RbTree.inorder (cache.scan.tree_read record), rfl⟩
  | readLru entry =>
      exact ⟨rfl, congrArg RbTree.inorder (cache.lru.tree_read entry)⟩
  | rbInsertScan record => exact absurd hsilent id
  | rbInsertLru entry => exact absurd hsilent id
  | rbReplaceScan old new => exact absurd hsilent id
  | rbRemoveScan record => exact absurd hsilent id
  | rbRemoveLru entry => exact absurd hsilent id
  | _ => exact ⟨rfl, rfl⟩

section Advance

variable {rb : Rbtree} {call : Bool} {pc : Pc} {cache : CacheState}

/-- The active call moves the LRU tree on and leaves the scan tree. -/
structure SameFileInserts.MovesOn
    (inserts : SameFileInserts) (call : Bool) (cache : CacheState)
    (point : Pc × CacheState) : Prop where
  scan : point.2.scan.records = cache.scan.records
  active : ∃ current, inserts.Active call current point.1 ∧
    inserts.LruHolds point.2.lru.records current

theorem SameFileInserts.movesOn_of_silent
    {current : Option LruCacheRecord} (hsilent : pc.action.Silent)
    (hlru : inserts.LruHolds cache.lru.records current)
    (hnext : inserts.Active call current (pc.advance rb cache).1) :
    inserts.MovesOn call cache (pc.advance rb cache) := by
  obtain ⟨hscanSame, hlruSame⟩ := Action.silent_records rb pc.action hsilent cache
  refine ⟨hscanSame, current, hnext, ?_⟩
  change inserts.LruHolds (pc.action.perform rb cache).2.lru.records current
  rw [hlruSame]
  exact hlru

theorem SameFileInserts.movesOn_lruLink
    {caller : Caller} {entry : LruCacheRecord}
    (hlru : inserts.LruHolds cache.lru.records none)
    (hentry : entry.tuple = inserts.tuple call) :
    inserts.MovesOn call cache ((Pc.lruLink caller entry).advance rb cache) := by
  have htime : entry.timeStamp = inserts.time call :=
    congrArg CacheTuple.timeStamp hentry
  rcases lruInsert_cases rb hlru.ranked entry with
    ⟨hstamped, _⟩ | ⟨_, tree, before, after, hinsert, hbefore, hafter, hranked⟩
  · rw [htime] at hstamped
    exact absurd hstamped (hlru.not_stamped call)
  · have hadvance : (Pc.lruLink caller entry).advance rb cache =
        (caller.finish 0, { cache with lru := { cache.lru with tree := tree } }) := by
      unfold Pc.advance
      dsimp only [Action.perform, Pc.next]
      rw [hinsert]
      rfl
    rw [hadvance]
    refine ⟨rfl, some entry, ?_, ?_⟩
    · cases caller with
      | fresh record => exact ⟨rfl, entry, rfl, hentry⟩
      | refresh old new => exact ⟨rfl, entry, rfl, hentry⟩
    · change inserts.LruHolds tree.inorder (some entry)
      rw [hbefore] at hlru
      rw [hafter] at hranked ⊢
      exact hlru.link hranked (SameFileInserts.keyed_of_eq hentry)

theorem SameFileInserts.movesOn_updateLruSearch
    {old new : ScanCacheRecord} {entry : LruCacheRecord}
    (hlru : inserts.LruHolds cache.lru.records (some entry))
    (hnew : new.tuple = inserts.tuple call)
    (htime : entry.timeStamp = old.timeStamp)
    (hother : entry.timeStamp ≠ inserts.time call) :
    inserts.MovesOn call cache
      ((Pc.updateLruSearch old new true).advance rb cache) := by
  have hmem := ((hlru.only entry).mpr rfl).1
  have hfound : findLruCacheRecord ⟨old.timeStamp⟩ cache = some entry :=
    (lruSearch_iff hlru.ranked old.timeStamp entry).mpr ⟨hmem, htime⟩
  have hsilent : (Pc.updateLruSearch old new true).action.Silent := trivial
  apply SameFileInserts.movesOn_of_silent hsilent hlru
  rw [Pc.advance_of_outcome rb (.updateLruSearch old new true) cache hfound]
  exact ⟨hnew, rfl, rfl, hother⟩

theorem SameFileInserts.movesOn_updateLruRemove
    {old new : ScanCacheRecord} {entry : LruCacheRecord}
    (hlru : inserts.LruHolds cache.lru.records (some entry))
    (hnodup : cache.lru.ids.Nodup) (hnew : new.tuple = inserts.tuple call) :
    inserts.MovesOn call cache
      ((Pc.updateLruRemove old new entry true).advance rb cache) := by
  refine ⟨rfl, none, ⟨hnew, rfl, rfl⟩, ?_⟩
  change inserts.LruHolds (cache.lru.rbRemove rb entry).records none
  rw [Index.records_rbRemove rb entry hnodup]
  exact hlru.remove

theorem SameFileInserts.Active.movesOn
    {current : Option LruCacheRecord}
    (hactive : inserts.Active call current pc)
    (hlru : inserts.LruHolds cache.lru.records current)
    (hnodup : cache.lru.ids.Nodup) :
    inserts.MovesOn call cache (pc.advance rb cache) := by
  cases pc with
  | insertArguments record lruAlloc =>
      exact SameFileInserts.movesOn_of_silent trivial hlru hactive
  | lruCacheAlloc caller lruAlloc =>
      obtain ⟨hrecord, halloc, hcurrent⟩ := hactive
      subst halloc
      exact SameFileInserts.movesOn_of_silent trivial hlru ⟨hrecord, hcurrent⟩
  | lruFill caller id =>
      exact SameFileInserts.movesOn_of_silent trivial hlru hactive
  | lruLink caller entry =>
      obtain ⟨hentry, hcurrent⟩ := hactive
      subst hcurrent
      exact SameFileInserts.movesOn_lruLink hlru hentry
  | updateKey old new lruAlloc =>
      exact SameFileInserts.movesOn_of_silent trivial hlru hactive
  | updateLruSearch old new lruAlloc =>
      obtain ⟨hnew, halloc, entry, hcurrent, htime, hother⟩ := hactive
      subst halloc hcurrent
      exact SameFileInserts.movesOn_updateLruSearch hlru hnew htime hother
  | updateLruRemove old new entry lruAlloc =>
      obtain ⟨hnew, halloc, hcurrent, _⟩ := hactive
      subst halloc hcurrent
      exact SameFileInserts.movesOn_updateLruRemove hlru hnodup hnew
  | updateLruFree old new entry lruAlloc =>
      exact SameFileInserts.movesOn_of_silent trivial hlru hactive
  | updateArguments old new lruAlloc =>
      exact SameFileInserts.movesOn_of_silent trivial hlru hactive
  | updateFreeOld old ret =>
      obtain ⟨hret, hstored⟩ := hactive
      subst hret
      exact SameFileInserts.movesOn_of_silent trivial hlru ⟨rfl, hstored⟩
  | returned reply =>
      exact SameFileInserts.movesOn_of_silent trivial hlru hactive
  | _ => exact absurd hactive id

/-! ## Steps of a call that is still to publish -/

/-- How a step of such a call ends. -/
inductive SameFileInserts.Publishes
    (inserts : SameFileInserts) (call : Bool) (cache : CacheState)
    (current : Option ScanCacheRecord) : Pc × CacheState → Prop
  | remains {next : Pc} {after : CacheState}
      (hnext : inserts.Unpublished call (current ≠ none) next)
      (hscan : after.scan.records = cache.scan.records)
      (hlru : after.lru.records = cache.lru.records) :
      Publishes inserts call cache current (next, after)
  | fresh {record : ScanCacheRecord} {after : CacheState}
      (hrecord : record.tuple = inserts.tuple call)
      (habsent : current = none)
      (hscan : inserts.ScanHolds after.scan.records (some record))
      (hlru : after.lru.records = cache.lru.records) :
      Publishes inserts call cache current (.insertArguments record true, after)
  | replaced {old new : ScanCacheRecord} {after : CacheState}
      (hnew : new.tuple = inserts.tuple call)
      (hold : current = some old)
      (hscan : inserts.ScanHolds after.scan.records (some new))
      (hlru : after.lru.records = cache.lru.records) :
      Publishes inserts call cache current (.updateKey old new true, after)

/-- `RB_INSERT` and `RB_SEARCH` with a record of the file stop where the
lookup of the file does. -/
theorem SameFileInserts.rbSearch_eq_lookup
    {record : ScanCacheRecord} (hrecord : record.tuple = inserts.tuple call)
    (cache : CacheState) :
    cache.scan.rbSearch scanCacheInsertCompareTable record none =
      scanLookup (inserts.file true) cache := by
  have hdev : record.devId = inserts.devId :=
    congrArg CacheTuple.devId hrecord
  have hino : record.inodeNumber = inserts.inodeNumber :=
    congrArg CacheTuple.inodeNumber hrecord
  rw [Index.rbSearch_none_eq]
  unfold scanLookup SameFileInserts.file
  dsimp only
  rw [← hdev, ← hino]
  rfl

variable {current : Option ScanCacheRecord}
  (hscan : inserts.ScanHolds cache.scan.records current)

theorem SameFileInserts.publishes_of_silent
    (hsilent : pc.action.Silent)
    (hnext : inserts.Unpublished call (current ≠ none) (pc.advance rb cache).1) :
    inserts.Publishes call cache current (pc.advance rb cache) := by
  obtain ⟨hscanSame, hlruSame⟩ := Action.silent_records rb pc.action hsilent cache
  exact .remains hnext hscanSame hlruSame

include hscan

theorem SameFileInserts.ScanHolds.lookup_mem
    {record : ScanCacheRecord}
    (hlookup : scanLookup (inserts.file true) cache = some record) :
    current = some record := by
  obtain ⟨hmem, hkey⟩ := scanLookup_eq_some hlookup
  exact (hscan record).mp ⟨hmem, hkey⟩

theorem SameFileInserts.ScanHolds.lookup_of_exact
    (hexact : inserts.LookupExact cache)
    (hlookup : scanLookup (inserts.file true) cache = none) :
    current = none := by
  cases current with
  | none => rfl
  | some record =>
      obtain ⟨hmem, hkey⟩ := (hscan record).mpr rfl
      have hfound := hexact record hmem hkey
      rw [hlookup] at hfound
      contradiction

theorem SameFileInserts.publishes_insertLink
    (hexact : inserts.LookupExact cache) {record : ScanCacheRecord}
    (hrecord : record.tuple = inserts.tuple call) :
    inserts.Publishes call cache current
      ((Pc.insertLink record true).advance rb cache) := by
  have hsearch := SameFileInserts.rbSearch_eq_lookup hrecord cache
  cases hlookup : scanLookup (inserts.file true) cache with
  | some old =>
      have hinsert := Index.rbInsert_of_found rb (hsearch.trans hlookup)
      have hadvance : (Pc.insertLink record true).advance rb cache =
          (.insertPresent record true, cache) := by
        unfold Pc.advance
        dsimp only [Action.perform, Pc.next]
        rw [hinsert]
        rfl
      have hcurrent := hscan.lookup_mem hlookup
      rw [hadvance]
      exact .remains ⟨hrecord, rfl, by simp [hcurrent]⟩ rfl rfl
  | none =>
      obtain ⟨slot, _, hbefore, hinsert, hafter⟩ :=
        Index.rbInsert_of_notFound rb (hsearch.trans hlookup)
      have hadvance : (Pc.insertLink record true).advance rb cache =
          (.insertArguments record true, { cache with scan :=
            { cache.scan with tree := rb.insertColor slot record } }) := by
        unfold Pc.advance
        dsimp only [Action.perform, Pc.next]
        rw [hinsert]
        rfl
      have habsent := hscan.lookup_of_exact hexact hlookup
      subst habsent
      rw [hadvance]
      refine .fresh hrecord rfl ?_ rfl
      rw [hbefore] at hscan
      rw [hafter]
      exact hscan.link (SameFileInserts.keyed_of_eq hrecord)

theorem SameFileInserts.publishes_updateSearch
    (hexact : inserts.LookupExact cache) (hoccupied : current ≠ none)
    {new : ScanCacheRecord} (hnew : new.tuple = inserts.tuple call) :
    inserts.Publishes call cache current
      ((Pc.updateSearch new true).advance rb cache) := by
  have hsearch := SameFileInserts.rbSearch_eq_lookup hnew cache
  cases hlookup : scanLookup (inserts.file true) cache with
  | none => exact absurd (hscan.lookup_of_exact hexact hlookup) hoccupied
  | some old =>
      have hadvance : (Pc.updateSearch new true).advance rb cache =
          (.updateReplace old new true, cache) :=
        Pc.advance_of_outcome rb (.updateSearch new true) cache
          (hsearch.trans hlookup)
      rw [hadvance]
      exact .remains ⟨hnew, rfl, (scanLookup_eq_some hlookup).2⟩ rfl rfl

theorem SameFileInserts.publishes_updateReplace
    (hnodup : cache.scan.ids.Nodup) {old new : ScanCacheRecord}
    (hlinked : old ∈ cache.scan.records) (hold : inserts.Keyed old.tuple)
    (hnew : new.tuple = inserts.tuple call) :
    inserts.Publishes call cache current
      ((Pc.updateReplace old new true).advance rb cache) := by
  have hcurrent := (hscan old).mp ⟨hlinked, hold⟩
  subst hcurrent
  refine .replaced hnew rfl ?_ rfl
  change inserts.ScanHolds (cache.scan.rbReplace old new).records (some new)
  rw [Index.records_rbReplace old new hnodup]
  exact hscan.replace (SameFileInserts.keyed_of_eq hnew)

theorem SameFileInserts.Unpublished.publishes
    (hpc : inserts.Unpublished call (current ≠ none) pc)
    (hnodup : cache.scan.ids.Nodup) (horderly : inserts.OrderlyAt cache pc) :
    inserts.Publishes call cache current (pc.advance rb cache) := by
  cases pc with
  | insertAlloc filp env =>
      obtain ⟨hfile, henv⟩ := hpc
      subst hfile henv
      exact SameFileInserts.publishes_of_silent trivial ⟨rfl, rfl⟩
  | insertFill filp env id =>
      obtain ⟨hfile, henv⟩ := hpc
      subst hfile henv
      exact SameFileInserts.publishes_of_silent trivial ⟨rfl, rfl⟩
  | insertLink record lruAlloc =>
      obtain ⟨hrecord, halloc⟩ := hpc
      subst halloc
      exact SameFileInserts.publishes_insertLink hscan horderly hrecord
  | insertPresent record lruAlloc =>
      exact SameFileInserts.publishes_of_silent trivial hpc
  | updateSearch new lruAlloc =>
      obtain ⟨hnew, halloc, hoccupied⟩ := hpc
      subst halloc
      exact SameFileInserts.publishes_updateSearch hscan horderly hoccupied hnew
  | updateReplace old new lruAlloc =>
      obtain ⟨hnew, halloc, hold⟩ := hpc
      subst halloc
      exact SameFileInserts.publishes_updateReplace hscan hnodup horderly hold
        hnew
  | _ => exact absurd hpc id

end Advance

/-! ## The invariant -/

/-- How far the two calls are.  Nobody has published; one has, and the other
is still to; the other has replaced the record of the active call and waits;
or the other is through and the active call is the last to publish. -/
inductive SameFileInserts.Stage
    (inserts : SameFileInserts) (world : World Bool) : Prop
  | unpublished {record : Option ScanCacheRecord} {entry : Option LruCacheRecord}
      (hcalls : ∀ call,
        inserts.Unpublished call (record ≠ none) (world.pcs call))
      (hscan : inserts.ScanHolds world.cache.scan.records record)
      (hlru : inserts.LruHolds world.cache.lru.records entry)
      (hpair : record.map ScanCacheRecord.timeStamp =
        entry.map LruCacheRecord.timeStamp)
      (htimes : ∀ old, record = some old →
        ∀ call, old.timeStamp ≠ inserts.time call)
  | published (active : Bool) {record : ScanCacheRecord}
      {entry : Option LruCacheRecord}
      (hactive : inserts.Active active entry (world.pcs active))
      (hother : inserts.Unpublished (!active) (some record ≠ none)
        (world.pcs !active))
      (hrecord : record.tuple = inserts.tuple active)
      (hscan : inserts.ScanHolds world.cache.scan.records (some record))
      (hlru : inserts.LruHolds world.cache.lru.records entry)
  | overtaken (active : Bool) {record : ScanCacheRecord}
      {entry : Option LruCacheRecord}
      (hactive : inserts.Active active entry (world.pcs active))
      (hother : inserts.Waiting (!active) (world.pcs !active))
      (hrecord : record.tuple = inserts.tuple !active)
      (hscan : inserts.ScanHolds world.cache.scan.records (some record))
      (hlru : inserts.LruHolds world.cache.lru.records entry)
  | settled (active : Bool) {record : ScanCacheRecord}
      {entry : Option LruCacheRecord}
      (hactive : inserts.Active active entry (world.pcs active))
      (hother : (world.pcs !active).Finished)
      (hrecord : record.tuple = inserts.tuple active)
      (hscan : inserts.ScanHolds world.cache.scan.records (some record))
      (hlru : inserts.LruHolds world.cache.lru.records entry)

structure SameFileInserts.Invariant
    (inserts : SameFileInserts) (world : World Bool) : Prop where
  stage : inserts.Stage world
  reserved : world.Reserved

section Step

variable {rb : Rbtree} {world : World Bool}

theorem World.step_pcs_self (call : Bool) :
    (world.step rb call).pcs call =
      ((world.pcs call).advance rb world.cache).1 :=
  Function.update_self ..

theorem World.step_pcs_not (call : Bool) :
    (world.step rb call).pcs (!call) = world.pcs !call :=
  Function.update_of_ne (Bool.not_ne_self call) ..

theorem World.step_not_pcs (call : Bool) :
    (world.step rb (!call)).pcs call = world.pcs call :=
  Function.update_of_ne (Bool.self_ne_not call) ..

theorem World.step_cache (call : Bool) :
    (world.step rb call).cache = ((world.pcs call).advance rb world.cache).2 :=
  rfl

theorem SameFileInserts.Unpublished.mono
    {call : Bool} {pc : Pc} {occupied later : Prop} (himp : occupied → later)
    (hpc : inserts.Unpublished call occupied pc) :
    inserts.Unpublished call later pc := by
  cases pc with
  | insertPresent record lruAlloc =>
      exact ⟨hpc.1, hpc.2.1, himp hpc.2.2⟩
  | updateSearch new lruAlloc =>
      exact ⟨hpc.1, hpc.2.1, himp hpc.2.2⟩
  | _ => exact hpc

theorem SameFileInserts.Stage.of_unpublished
    {record : Option ScanCacheRecord} {entry : Option LruCacheRecord}
    (hcalls : ∀ call, inserts.Unpublished call (record ≠ none) (world.pcs call))
    (hscan : inserts.ScanHolds world.cache.scan.records record)
    (hlru : inserts.LruHolds world.cache.lru.records entry)
    (hpair : record.map ScanCacheRecord.timeStamp =
      entry.map LruCacheRecord.timeStamp)
    (htimes : ∀ old, record = some old →
      ∀ call, old.timeStamp ≠ inserts.time call)
    (hnodup : world.cache.scan.ids.Nodup) {call : Bool}
    (horderly : inserts.Orderly world call) :
    inserts.Stage (world.step rb call) := by
  have hpublishes : inserts.Publishes call world.cache record
      ((world.pcs call).advance rb world.cache) :=
    (hcalls call).publishes hscan hnodup horderly
  have hself : (world.step rb call).pcs call = _ := World.step_pcs_self call
  have hnot : (world.step rb call).pcs (!call) = _ := World.step_pcs_not call
  have hcache : (world.step rb call).cache = _ := World.step_cache call
  have hother := hcalls !call
  generalize (world.pcs call).advance rb world.cache = point at *
  cases hpublishes with
  | remains hnext hscanSame hlruSame =>
      dsimp only at hself hcache
      rw [← hscanSame] at hscan
      rw [← hlruSame] at hlru
      refine .unpublished ?_ (hcache ▸ hscan) (hcache ▸ hlru) hpair htimes
      intro other
      by_cases heq : other = call
      · subst other
        rw [hself]
        exact hnext
      · rw [Bool.eq_not.mpr heq, hnot]
        exact hother
  | @fresh new _ hrecord habsent hscanNext hlruSame =>
      subst habsent
      have hentry : entry = none := by
        cases entry with
        | none => rfl
        | some _ => contradiction
      subst hentry
      dsimp only at hself hcache
      rw [← hlruSame] at hlru
      refine .published call ?_ ?_ hrecord (hcache ▸ hscanNext) (hcache ▸ hlru)
      · rw [hself]
        exact ⟨hrecord, rfl, rfl⟩
      · rw [hnot]
        exact hother.mono fun _ => Option.some_ne_none _
  | @replaced old new _ hnew hold hscanNext hlruSame =>
      subst hold
      obtain ⟨partner, hpartner, htime⟩ := Option.map_eq_some_iff.mp hpair.symm
      subst hpartner
      dsimp only at hself hcache
      rw [← hlruSame] at hlru
      refine .published call ?_ ?_ hnew (hcache ▸ hscanNext) (hcache ▸ hlru)
      · rw [hself]
        exact ⟨hnew, rfl, partner, rfl, htime, htime ▸ htimes old rfl call⟩
      · rw [hnot]
        exact hother.mono fun _ => Option.some_ne_none _

/-- The active call moves, and the other call and the scan tree stay. -/
theorem SameFileInserts.Active.step
    {active : Bool} {entry : Option LruCacheRecord}
    (hactive : inserts.Active active entry (world.pcs active))
    (hlru : inserts.LruHolds world.cache.lru.records entry)
    (hnodup : world.cache.lru.ids.Nodup) :
    (∃ current, inserts.Active active current ((world.step rb active).pcs active) ∧
      inserts.LruHolds (world.step rb active).cache.lru.records current) ∧
    (world.step rb active).cache.scan.records = world.cache.scan.records := by
  have hmoves : inserts.MovesOn active world.cache
      ((world.pcs active).advance rb world.cache) := hactive.movesOn hlru hnodup
  rw [World.step_pcs_self, World.step_cache]
  exact ⟨hmoves.active, hmoves.scan⟩

theorem SameFileInserts.Stage.of_published
    {active : Bool} {record : ScanCacheRecord} {entry : Option LruCacheRecord}
    (hactive : inserts.Active active entry (world.pcs active))
    (hother : inserts.Unpublished (!active) (some record ≠ none)
      (world.pcs !active))
    (hrecord : record.tuple = inserts.tuple active)
    (hscan : inserts.ScanHolds world.cache.scan.records (some record))
    (hlru : inserts.LruHolds world.cache.lru.records entry)
    (hnodup : world.cache.scan.ids.Nodup)
    (horderly : inserts.Orderly world !active) :
    inserts.Stage (world.step rb !active) := by
  have hpublishes : inserts.Publishes (!active) world.cache (some record)
      ((world.pcs !active).advance rb world.cache) :=
    hother.publishes hscan hnodup horderly
  have hself : (world.step rb !active).pcs (!active) = _ :=
    World.step_pcs_self !active
  have hcache : (world.step rb !active).cache = _ := World.step_cache !active
  have hsame : (world.step rb !active).pcs active = _ :=
    World.step_not_pcs active
  rw [← hsame] at hactive
  generalize (world.pcs !active).advance rb world.cache = point at *
  cases hpublishes with
  | remains hnext hscanSame hlruSame =>
      dsimp only at hself hcache
      rw [← hscanSame] at hscan
      rw [← hlruSame] at hlru
      exact .published active hactive (hself ▸ hnext) hrecord (hcache ▸ hscan)
        (hcache ▸ hlru)
  | fresh _ habsent => contradiction
  | @replaced old new _ hnew hold hscanNext hlruSame =>
      dsimp only at hself hcache
      rw [← hlruSame] at hlru
      refine .overtaken active hactive ?_ hnew (hcache ▸ hscanNext)
        (hcache ▸ hlru)
      have htime : old.timeStamp = inserts.time active := by
        rw [← Option.some_inj.mp hold]
        exact congrArg CacheTuple.timeStamp hrecord
      rw [hself]
      exact ⟨hnew, rfl, by rw [htime, Bool.not_not]⟩

/-- The active call has stored its LRU record once there is a record with its
time stamp. -/
theorem SameFileInserts.Active.finished_of_time
    {active : Bool} {entry : LruCacheRecord} {pc : Pc}
    (hactive : inserts.Active active (some entry) pc)
    (htime : entry.timeStamp = inserts.time active) : pc.Finished := by
  cases pc with
  | updateKey old new lruAlloc =>
      obtain ⟨_, _, other, heq, _, hne⟩ := hactive
      cases heq
      exact absurd htime hne
  | updateLruSearch old new lruAlloc =>
      obtain ⟨_, _, other, heq, _, hne⟩ := hactive
      cases heq
      exact absurd htime hne
  | updateLruRemove old new other lruAlloc =>
      obtain ⟨_, _, heq, hne⟩ := hactive
      cases heq
      exact absurd htime hne
  | updateFreeOld old ret => exact hactive.1
  | returned reply => exact hactive.1
  | _ => simp [SameFileInserts.Active] at hactive

theorem SameFileInserts.Stage.of_overtaken
    {active : Bool} {record : ScanCacheRecord} {entry : Option LruCacheRecord}
    (hactive : inserts.Active active entry (world.pcs active))
    (hother : inserts.Waiting (!active) (world.pcs !active))
    (hrecord : record.tuple = inserts.tuple !active)
    (hscan : inserts.ScanHolds world.cache.scan.records (some record))
    (hlru : inserts.LruHolds world.cache.lru.records entry)
    (horderly : inserts.Orderly world !active) :
    inserts.Stage (world.step rb !active) := by
  have hself : (world.step rb !active).pcs (!active) = _ :=
    World.step_pcs_self !active
  have hcache : (world.step rb !active).cache = _ := World.step_cache !active
  have hsame : (world.step rb !active).pcs active = _ :=
    World.step_not_pcs active
  unfold SameFileInserts.Orderly at horderly
  cases hpc : world.pcs !active with
  | updateKey old new lruAlloc =>
      rw [hpc] at hother hself hcache
      obtain ⟨hscanSame, hlruSame⟩ :=
        Action.silent_records rb (.readScan old) trivial world.cache
      rw [← hscanSame] at hscan
      rw [← hlruSame] at hlru
      refine .overtaken active ?_ ?_ hrecord (hcache ▸ hscan) (hcache ▸ hlru)
      · rw [hsame]
        exact hactive
      · rw [hself]
        exact hother
  | updateLruSearch old new lruAlloc =>
      rw [hpc] at hother hself hcache horderly
      obtain ⟨hnew, halloc, htime⟩ := hother
      obtain ⟨found, hfound, hfoundTime⟩ := horderly
      rw [Bool.not_not] at htime
      have hkey : inserts.Keyed found.tuple := by
        by_contra hkey
        exact hlru.clear found hfound hkey active (hfoundTime.trans htime)
      have hentry := (hlru.only found).mp ⟨hfound, hkey⟩
      subst hentry halloc
      have hsearch : findLruCacheRecord ⟨old.timeStamp⟩ world.cache = some found :=
        (lruSearch_iff hlru.ranked old.timeStamp found).mpr ⟨hfound, hfoundTime⟩
      have hdistinct : inserts.time active ≠ inserts.time !active := by
        cases active with
        | true => exact inserts.distinct
        | false => exact inserts.distinct.symm
      have hnext : inserts.Active (!active) (some found)
          ((world.step rb !active).pcs !active) := by
        rw [hself, Pc.advance_of_outcome rb (.updateLruSearch old new true)
          world.cache hsearch]
        exact ⟨hnew, rfl, rfl, by rw [hfoundTime, htime]; exact hdistinct⟩
      refine .settled (!active) hnext ?_ hrecord (hcache ▸ hscan) (hcache ▸ hlru)
      rw [Bool.not_not, hsame]
      exact hactive.finished_of_time (hfoundTime.trans htime)
  | _ =>
      rw [hpc] at hother
      exact absurd hother id

theorem Pc.Finished.silent {pc : Pc} (hpc : pc.Finished) :
    pc.action.Silent ∧ ∀ outcome, (pc.next outcome).Finished := by
  cases pc with
  | updateFreeOld old ret =>
      exact ⟨trivial, fun _ => congrArg Reply.code hpc⟩
  | returned reply => exact ⟨trivial, fun _ => hpc⟩
  | _ => exact absurd hpc id

theorem SameFileInserts.Stage.of_settled
    {active : Bool} {record : ScanCacheRecord} {entry : Option LruCacheRecord}
    (hactive : inserts.Active active entry (world.pcs active))
    (hother : (world.pcs !active).Finished)
    (hrecord : record.tuple = inserts.tuple active)
    (hscan : inserts.ScanHolds world.cache.scan.records (some record))
    (hlru : inserts.LruHolds world.cache.lru.records entry) :
    inserts.Stage (world.step rb !active) := by
  obtain ⟨hsilent, hfinished⟩ := hother.silent
  obtain ⟨hscanSame, hlruSame⟩ :=
    Action.silent_records rb (world.pcs !active).action hsilent world.cache
  rw [← hscanSame] at hscan
  rw [← hlruSame] at hlru
  refine .settled active ?_ ?_ hrecord hscan hlru
  · rw [World.step_not_pcs]
    exact hactive
  · rw [World.step_pcs_self]
    exact hfinished _

theorem SameFileInserts.Stage.step
    (hstage : inserts.Stage world) (hreserved : world.Reserved) {call : Bool}
    (horderly : inserts.Orderly world call) :
    inserts.Stage (world.step rb call) := by
  have hscanIds : world.cache.scan.ids.Nodup := hreserved.scan.linkedNodup
  have hlruIds : world.cache.lru.ids.Nodup := hreserved.lru.linkedNodup
  cases hstage with
  | unpublished hcalls hscan hlru hpair htimes =>
      exact .of_unpublished hcalls hscan hlru hpair htimes hscanIds horderly
  | published active hactive hother hrecord hscan hlru =>
      by_cases hcall : call = active
      · subst call
        obtain ⟨⟨current, hnext, hlruNext⟩, hscanSame⟩ :=
          hactive.step hlru hlruIds
        rw [← World.step_pcs_not] at hother
        exact .published active hnext hother hrecord (hscanSame ▸ hscan) hlruNext
      · rw [Bool.eq_not.mpr hcall] at horderly ⊢
        exact .of_published hactive hother hrecord hscan hlru hscanIds horderly
  | overtaken active hactive hother hrecord hscan hlru =>
      by_cases hcall : call = active
      · subst call
        obtain ⟨⟨current, hnext, hlruNext⟩, hscanSame⟩ :=
          hactive.step hlru hlruIds
        rw [← World.step_pcs_not] at hother
        exact .overtaken active hnext hother hrecord (hscanSame ▸ hscan) hlruNext
      · rw [Bool.eq_not.mpr hcall] at horderly ⊢
        exact .of_overtaken hactive hother hrecord hscan hlru horderly
  | settled active hactive hother hrecord hscan hlru =>
      by_cases hcall : call = active
      · subst call
        obtain ⟨⟨current, hnext, hlruNext⟩, hscanSame⟩ :=
          hactive.step hlru hlruIds
        rw [← World.step_pcs_not] at hother
        exact .settled active hnext hother hrecord (hscanSame ▸ hscan) hlruNext
      · rw [Bool.eq_not.mpr hcall]
        exact .of_settled hactive hother hrecord hscan hlru

end Step

/-! ## Start and end -/

theorem SameFileInserts.exists_current
    (inserts : SameFileInserts) {ρ : Type} {values : List ρ} {tuple : ρ → CacheTuple}
    (hkeys : NoSharedKey (values.map tuple)) :
    ∃ current : Option ρ, ∀ value,
      value ∈ values ∧ inserts.Keyed (tuple value) ↔ current = some value := by
  by_cases hpresent : ∃ value ∈ values, inserts.Keyed (tuple value)
  · obtain ⟨current, hcurrent, hkey⟩ := hpresent
    refine ⟨some current, fun value => ?_⟩
    rw [Option.some_inj]
    constructor
    · rintro ⟨hvalue, hvalueKey⟩
      unfold NoSharedKey at hkeys
      rw [List.map_map] at hkeys
      apply List.inj_on_of_nodup_map hkeys hcurrent hvalue
      exact Prod.ext (hkey.1.trans hvalueKey.1.symm)
        (hkey.2.trans hvalueKey.2.symm)
    · intro heq
      subst value
      exact ⟨hcurrent, hkey⟩
  · refine ⟨none, fun value => ?_⟩
    constructor
    · intro hvalue
      exact absurd ⟨value, hvalue⟩ hpresent
    · intro hnone
      contradiction

theorem SameFileInserts.start_stage
    {cache : CacheState} (hsound : cache.Sound)
    (hcoherent : TwoIndexCoherent cache)
    (hclock : ∀ call, ¬ cache.lru.Stamped (inserts.time call)) :
    inserts.Stage (.start cache inserts.request) := by
  obtain ⟨hsame, ⟨hscanKeys, _⟩, hlruKeys, _⟩ := hcoherent
  obtain ⟨record, hscan⟩ := inserts.exists_current hscanKeys
  obtain ⟨entry, honly⟩ := inserts.exists_current hlruKeys
  have hmirror : ∀ tuple, tuple ∈ cache.scanTuples ↔ tuple ∈ cache.lruTuples := by
    intro tuple
    rw [← List.mem_toFinset, hsame, List.mem_toFinset]
  have hpartner : ∀ old, record = some old → ∃ partner, entry = some partner ∧
      partner.timeStamp = old.timeStamp := by
    intro old hold
    obtain ⟨hmem, hkey⟩ := (hscan old).mpr hold
    obtain ⟨partner, hpartner, htuple⟩ := List.mem_map.mp
      ((hmirror old.tuple).mp (List.mem_map_of_mem hmem))
    exact ⟨partner, (honly partner).mp ⟨hpartner, htuple ▸ hkey⟩,
      congrArg CacheTuple.timeStamp htuple⟩
  have hpair : record.map ScanCacheRecord.timeStamp =
      entry.map LruCacheRecord.timeStamp := by
    cases hrecord : record with
    | some old =>
        obtain ⟨partner, hentry, htime⟩ := hpartner old hrecord
        rw [hentry, Option.map_some, Option.map_some, htime]
    | none =>
        cases hentry : entry with
        | none => rfl
        | some partner =>
            obtain ⟨hmem, hkey⟩ := (honly partner).mpr hentry
            obtain ⟨old, hold, htuple⟩ := List.mem_map.mp
              ((hmirror partner.tuple).mpr (List.mem_map_of_mem hmem))
            have hsome := (hscan old).mp ⟨hold, htuple ▸ hkey⟩
            rw [hrecord] at hsome
            contradiction
  refine .unpublished (fun call => ⟨rfl, rfl⟩) hscan
    ⟨hsound.lru.ranked, honly, ?_⟩ hpair ?_
  · intro other hother _ call htime
    exact hclock call ⟨other, hother, htime⟩
  · intro old hold call htime
    obtain ⟨partner, hentry, hpartnerTime⟩ := hpartner old hold
    exact hclock call ⟨partner, ((honly partner).mpr hentry).1,
      hpartnerTime.trans htime⟩

theorem filter_map_eq_singleton
    {ρ : Type} {values : List ρ} (hnodup : values.Nodup) {tuple : ρ → CacheTuple}
    {current : ρ} (honly : ∀ value,
      value ∈ values ∧ inserts.Keyed (tuple value) ↔ some current = some value) :
    (values.map tuple).filter inserts.Keyed = [tuple current] := by
  have hperm : (values.filter fun value => inserts.Keyed (tuple value)).Perm
      [current] := by
    apply (List.perm_ext_iff_of_nodup (hnodup.filter _)
      (List.nodup_singleton current)).mpr
    intro value
    rw [List.mem_filter, List.mem_singleton, decide_eq_true_iff, honly value,
      Option.some_inj]
    exact eq_comm
  rw [List.filter_map]
  exact congrArg (List.map tuple) (List.perm_singleton.mp hperm)

theorem SameFileInserts.Stage.agree
    {world : World Bool} (hstage : inserts.Stage world)
    (hreserved : world.Reserved)
    (hreturned : ∀ call, ∃ reply, world.pcs call = .returned reply) :
    inserts.Agree world.cache := by
  cases hstage with
  | unpublished hcalls =>
      obtain ⟨reply, hpc⟩ := hreturned true
      have hcall := hcalls true
      rw [hpc] at hcall
      exact absurd hcall id
  | published active _ hother =>
      obtain ⟨reply, hpc⟩ := hreturned !active
      rw [hpc] at hother
      exact absurd hother id
  | overtaken active _ hother =>
      obtain ⟨reply, hpc⟩ := hreturned !active
      rw [hpc] at hother
      exact absurd hother id
  | settled active hactive _ hrecord hscan hlru =>
      obtain ⟨reply, hpc⟩ := hreturned active
      rw [hpc] at hactive
      obtain ⟨_, entry, hcurrent, hentry⟩ := hactive
      subst hcurrent
      refine ⟨active, ?_, ?_⟩
      · rw [← hrecord]
        exact filter_map_eq_singleton hreserved.scan.linkedNodup.of_map hscan
      · rw [← hentry]
        exact filter_map_eq_singleton hreserved.lru.linkedNodup.of_map hlru.only

/-- From every coherent state, in every interleaving of two insertions of one
file whose steps find what they rely on, each tree ends up with one record for
the file, and both carry the fields of the same call. -/
theorem insertScanCacheRecord_agree
    (rb : Rbtree) (inserts : SameFileInserts) (cache : CacheState)
    (hsound : cache.Sound) (hcoherent : TwoIndexCoherent cache)
    (hclock : ∀ call, ¬ cache.lru.Stamped (inserts.time call))
    (schedule : List Bool)
    (horderly : Guarded (World.step rb) inserts.Orderly
      (.start cache inserts.request) schedule) :
    let world := schedule.foldl (World.step rb) (.start cache inserts.request)
    (∀ call, ∃ reply, world.pcs call = .returned reply) →
      inserts.Agree world.cache := by
  intro world hreturned
  have hinvariant : inserts.Invariant world := by
    apply horderly.invariant
    · intro world call hinvariant hstep
      exact ⟨hinvariant.stage.step hinvariant.reserved hstep,
        hinvariant.reserved.step⟩
    · exact ⟨SameFileInserts.start_stage hsound hcoherent hclock,
        World.start_reserved hsound.scan.wellFormed hsound.lru.wellFormed _⟩
  exact hinvariant.stage.agree hinvariant.reserved hreturned

/-- A cached file is refreshed by two calls at once.  The second call replaces
the scan record of the first, and looks for its LRU record only when that is
there. -/
theorem insertScanCacheRecord_agree_refresh :
    let cache := [Call.insert ⟨1, 4, 7⟩ ⟨true, .atSecond 5, true⟩,
      .insert ⟨1, 6, 7⟩ ⟨true, .atSecond 6, true⟩].foldl (step linuxRbtree) .empty
    let inserts : SameFileInserts :=
      ⟨1, 4, fun call => if call then 8 else 9,
        fun call => if call then .atSecond 7 else .atSecond 8, by decide⟩
    let schedule := [true, false, true, false, true, false, true, false,
      true, true, false, false, false] ++ List.replicate 9 true ++
        List.replicate 8 false
    inserts.Agree (schedule.foldl (World.step linuxRbtree)
      (.start cache inserts.request)).cache := by
  intro cache inserts schedule
  have hregular : cache.Regular 1 := regular_run linuxRbtree 1 (by decide)
  apply insertScanCacheRecord_agree linuxRbtree inserts cache hregular.1.sound
    hregular.1.coherent (by decide) schedule (by decide)
  intro call
  refine ⟨.code 0, ?_⟩
  revert call
  decide

/-- The first call publishes its scan record; the second replaces it, finds no
LRU record yet and takes the replacement out; then the first stores its LRU
record. -/
theorem insertScanCacheRecord_disagree :
    let inserts : SameFileInserts :=
      ⟨1, 4, fun call => if call then 8 else 9,
        fun call => if call then .atSecond 7 else .atSecond 8, by decide⟩
    let schedule := List.replicate 5 true ++ List.replicate 11 false ++
      List.replicate 2 true
    let world := schedule.foldl (World.step linuxRbtree)
      (.start .empty inserts.request)
    TwoIndexCoherent .empty ∧
      world.pcs true = .returned (.code 0) ∧
      world.pcs false = .returned (.code (-1)) ∧
      world.cache.scanTuples = [] ∧
      world.cache.lruTuples = [inserts.tuple true] ∧
      ¬ inserts.Agree world.cache := by
  refine ⟨CacheState.empty_paired.coherent, ?_⟩
  decide

end LinuxKernelCode.ScanCache
