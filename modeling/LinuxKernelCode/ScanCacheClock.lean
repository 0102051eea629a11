import LinuxKernelCode.ScanCacheCoherence

/-!
# Runs with an increasing clock

A strictly increasing clock is always ahead of the time stamps in the LRU
tree.  With it and with successful allocations no insertion fails, so a
successful insertion has one effect: the record of the file's key is replaced
or added in the scan tree, and the file moves to the end of the LRU tree.
-/

namespace LinuxKernelCode.ScanCache

open RedBlack Runs

def Call.time? : Call → Option Timespec
  | .insert _ env => some env.now
  | _ => none

def IncreasingClock (calls : List Call) : Prop :=
  (calls.filterMap Call.time?).Pairwise fun earlier later =>
    earlier.ticks < later.ticks

instance (calls : List Call) : Decidable (IncreasingClock calls) :=
  inferInstanceAs (Decidable (List.Pairwise _ _))

def Call.Allocates : Call → Prop
  | .insert _ env => env.scanAlloc = true ∧ env.lruAlloc = true
  | _ => True

instance : DecidablePred Call.Allocates
  | .insert _ _ => inferInstanceAs (Decidable (_ ∧ _))
  | .findRemove _ => .isTrue trivial
  | .removeCacheEntry _ => .isTrue trivial
  | .purgeScanCache => .isTrue trivial
  | .purgeCache => .isTrue trivial

/-- The clock of the call is past every time stamp in the LRU tree. -/
def ClockAhead (state : CacheState) (call : Call) : Prop :=
  ∀ time ∈ call.time?, ∀ entry ∈ state.lru.records,
    entry.timeStamp.ticks < time.ticks

/-! ## The clock stays ahead -/

theorem InsertEffect.lru_mem
    {filp : FileInfo} {env : InsertEnv} {state after : CacheState} {ret : ℤ}
    (heffect : InsertEffect filp env state ret after)
    {entry : LruCacheRecord} (hentry : entry ∈ after.lru.records) :
    entry ∈ state.lru.records ∨ entry.timeStamp = env.now := by
  cases heffect with
  | noMemory => exact .inl hentry
  | rejected _ _ _ _ _ hlru => exact .inl (hlru ▸ hentry)
  | stored _ _ _ _ _ _ _ hlru =>
      rcases List.mem_cons.mp (hlru.mem_iff.mp hentry) with heq | hmem
      · exact .inr (heq ▸ rfl)
      · exact .inl hmem
  | refreshed _ _ _ _ _ _ _ hlru =>
      rcases List.mem_cons.mp (hlru.mem_iff.mp hentry) with heq | hmem
      · exact .inr (heq ▸ rfl)
      · exact .inl (List.mem_filter.mp hmem).1
  | dropped _ _ _ _ _ _ hlru =>
      rw [hlru] at hentry
      exact .inl (List.mem_filter.mp hentry).1
  | orphaned _ _ _ _ hlru => exact .inl (hlru ▸ hentry)

theorem FindRemoveEffect.lru_mem
    {filp : FileInfo} {state after : CacheState} {ret : Bool}
    (heffect : FindRemoveEffect filp state ret after)
    {entry : LruCacheRecord} (hentry : entry ∈ after.lru.records) :
    entry ∈ state.lru.records := by
  cases heffect with
  | absent => exact hentry
  | removed _ _ _ _ hlru => exact (hlru.mem_iff.mp hentry).1
  | unpaired _ _ _ hlru => exact hlru ▸ hentry

/-- A call adds no time stamp but its own. -/
theorem step_lru_mem
    (rb : Rbtree) {state : CacheState} (hsound : state.Sound) (call : Call)
    {entry : LruCacheRecord} (hentry : entry ∈ (step rb state call).lru.records) :
    entry ∈ state.lru.records ∨ call.time? = some entry.timeStamp := by
  cases call with
  | insert filp env =>
      obtain ⟨ret, after, hresult, heffect, _⟩ :=
        insertScanCacheRecord_effect rb hsound filp env
      have hmem : entry ∈ after.lru.records := by
        simpa [step, execute, hresult] using hentry
      rcases heffect.lru_mem hmem with hold | htime
      · exact .inl hold
      · exact .inr (congrArg some htime.symm)
  | findRemove filp =>
      obtain ⟨ret, after, hresult, heffect, _⟩ :=
        findRemoveScanCacheRecord_effect rb hsound filp
      have hmem : entry ∈ after.lru.records := by
        simpa [step, execute, hresult] using hentry
      exact .inl (heffect.lru_mem hmem)
  | removeCacheEntry count =>
      have hkept := (removeCacheEntry_invariant rb
        (fun after => ∀ entry ∈ after.lru.records, entry ∈ state.lru.records)
        (fun _ hinv hevicts other hother =>
          hinv other (hevicts.lru.mem_iff.mp hother).1)
        count hsound (fun _ hmem => hmem)).2
      exact .inl (hkept entry hentry)
  | purgeScanCache =>
      obtain ⟨_, _, hlru⟩ := purgeScanCache_spec rb hsound
      left
      simpa [step, execute, hlru] using hentry
  | purgeCache =>
      obtain ⟨_, _, hlru, _⟩ := purgeCache_spec rb hsound
      simp [step, execute, hlru] at hentry

theorem clockAhead_of_increasing
    (rb : Rbtree) {state : CacheState} (hsound : state.Sound) {calls : List Call}
    (hclock : IncreasingClock calls)
    (hahead : ∀ time ∈ calls.filterMap Call.time?, ∀ entry ∈ state.lru.records,
      entry.timeStamp.ticks < time.ticks) :
    Guarded (step rb) ClockAhead state calls := by
  induction calls generalizing state with
  | nil => trivial
  | cons call rest ih =>
      unfold IncreasingClock at hclock
      rw [List.filterMap_cons] at hclock
      constructor
      · intro time htime
        apply hahead time
        rw [List.mem_filterMap]
        exact ⟨call, by simp, htime⟩
      · apply ih (hsound.step rb call)
        · cases htime : call.time? with
          | none =>
              rw [htime] at hclock
              exact hclock
          | some time =>
              rw [htime] at hclock
              exact (List.pairwise_cons.mp hclock).2
        · intro time htime entry hentry
          rcases step_lru_mem rb hsound call hentry with hold | hown
          · apply hahead time _ entry hold
            obtain ⟨later, hlater, heq⟩ := List.mem_filterMap.mp htime
            exact List.mem_filterMap.mpr ⟨later, by simp [hlater], heq⟩
          · rw [hown] at hclock
            exact (List.pairwise_cons.mp hclock).1 time htime

theorem increasing_run
    (rb : Rbtree) {calls : List Call} (hclock : IncreasingClock calls) :
    Guarded (step rb) ClockAhead .empty calls := by
  apply clockAhead_of_increasing rb CacheState.empty_sound hclock
  intro time _ entry hentry
  simp [CacheState.empty, Index.empty, Index.records] at hentry

theorem ClockAhead.clear
    {state : CacheState} {filp : FileInfo} {env : InsertEnv}
    (hahead : ClockAhead state (.insert filp env)) :
    ¬ state.lru.Stamped env.now := by
  rintro ⟨entry, hentry, htime⟩
  have hlt := hahead env.now rfl entry hentry
  rw [htime] at hlt
  exact lt_irrefl _ hlt

/-! ## Successful insertions -/

theorem InsertEffect.returns_zero
    {filp : FileInfo} {env : InsertEnv} {state after : CacheState} {ret : ℤ}
    (heffect : InsertEffect filp env state ret after) (hcovered : state.Covered)
    (hallocates : (Call.insert filp env).Allocates)
    (hclear : ¬ state.lru.Stamped env.now) : ret = 0 := by
  obtain ⟨hscanAlloc, hlruAlloc⟩ := hallocates
  cases heffect with
  | noMemory halloc =>
      rw [hscanAlloc] at halloc
      contradiction
  | rejected _ _ hcause =>
      rcases hcause with hfailed | hstamped
      · rw [hlruAlloc] at hfailed
        contradiction
      · exact absurd hstamped hclear
  | stored => rfl
  | refreshed => rfl
  | dropped _ _ _ _ hcause =>
      rcases hcause with hfailed | ⟨entry, hentry, hnow, _⟩
      · rw [hlruAlloc] at hfailed
        contradiction
      · exact absurd ⟨entry, hentry, hnow⟩ hclear
  | orphaned _ hlookup hmissing =>
      exact absurd (hcovered.stamped (scanLookup_eq_some hlookup).1) hmissing

/-- A successful insertion binds the key to the new record and leaves the
other keys alone. -/
theorem InsertEffect.scan_mem_iff
    {filp : FileInfo} {env : InsertEnv} {state after : CacheState} {ret : ℤ}
    (heffect : InsertEffect filp env state ret after) (hret : ret = 0)
    (hcovered : state.Covered) (hdescent : DescentOrdered filp state)
    {record : ScanCacheRecord} :
    record ∈ after.scan.records ↔
      record = filp.record state.scan.next env.now ∨
        record ∈ state.scan.records ∧ ¬ record.tuple.Keyed filp := by
  have hexact := scanLookup_iff hcovered.ranked hdescent
  cases heffect with
  | noMemory => exact absurd hret (by decide)
  | rejected => exact absurd hret (by decide)
  | stored _ hlookup _ _ _ hbefore hscan =>
      have hfresh : ∀ other ∈ state.scan.records, ¬ other.tuple.Keyed filp := by
        intro other hother hkey
        have hfound := (hexact other).mpr
          ⟨hother, FileInfo.rank_eq_iff.mpr hkey⟩
        rw [hlookup] at hfound
        contradiction
      have hsplit : record ∈ after.scan.records ↔
          record = filp.record state.scan.next env.now ∨
            record ∈ state.scan.records := by
        rw [hscan, hbefore, List.mem_append, List.mem_cons, List.mem_append]
        tauto
      rw [hsplit]
      constructor
      · rintro (heq | hmem)
        · exact .inl heq
        · exact .inr ⟨hmem, hfresh record hmem⟩
      · rintro (heq | ⟨hmem, _⟩)
        · exact .inl heq
        · exact .inr hmem
  | @refreshed _ old _ _ hlookup _ _ _ _ hscan =>
      obtain ⟨hold, hkey⟩ := scanLookup_eq_some hlookup
      rw [hscan, show (record ∈ state.scan.records.map fun other =>
          if other.id = old.id then filp.record state.scan.next env.now
          else other) ↔ _ from mem_map_replace (ρ := ScanCacheRecord) hold]
      apply or_congr Iff.rfl
      apply and_congr_right
      intro hmem
      apply not_congr
      constructor
      · intro hid
        have heq := hcovered.sound.scan.wellFormed.eq_of_id_eq hmem hold hid
        exact heq ▸ hkey
      · intro hrecordKey
        have heq := hcovered.ranked.eq_of_rank_eq hmem hold
          (keyRank_inj.mpr ⟨hrecordKey.1.trans hkey.1.symm,
            hrecordKey.2.trans hkey.2.symm⟩)
        exact congrArg ScanCacheRecord.id heq
  | dropped => exact absurd hret (by decide)
  | orphaned => exact absurd hret (by decide)

/-- A successful insertion with the clock ahead moves the file to the end of
the LRU tree. -/
theorem InsertEffect.lru_records
    {filp : FileInfo} {env : InsertEnv} {state after : CacheState} {ret : ℤ}
    (heffect : InsertEffect filp env state ret after) (hret : ret = 0)
    (hpaired : state.Paired) (hdescent : DescentOrdered filp state)
    (hafter : after.Sound) (hahead : ClockAhead state (.insert filp env)) :
    after.lru.records =
      (state.lru.records.filter fun entry => ¬ entry.tuple.Keyed filp) ++
        [filp.entry state.lru.next env.now] := by
  have hranked : Ranked LruCacheRecord.rank
      ((state.lru.records.filter fun entry => ¬ entry.tuple.Keyed filp) ++
        [filp.entry state.lru.next env.now]) := by
    unfold Ranked
    rw [List.pairwise_append]
    refine ⟨hpaired.sound.lru.ranked.sublist List.filter_sublist,
      List.pairwise_singleton _ _, ?_⟩
    intro entry hentry new hnew
    rw [List.mem_singleton] at hnew
    subst new
    exact hahead env.now rfl entry (List.mem_filter.mp hentry).1
  apply hafter.lru.ranked.ext hranked
  intro entry
  rw [List.mem_append, List.mem_singleton]
  cases heffect with
  | noMemory => exact absurd hret (by decide)
  | rejected => exact absurd hret (by decide)
  | stored _ hlookup _ _ _ _ _ hlru =>
      rw [hlru.mem_iff, List.mem_cons, or_comm]
      apply or_congr _ Iff.rfl
      rw [List.mem_filter]
      constructor
      · intro hmem
        refine ⟨hmem, decide_eq_true ?_⟩
        intro hkey
        obtain ⟨record, hrecord, htuple⟩ := hpaired.mirrored entry hmem
        have hrecordKey : record.tuple.Keyed filp := htuple ▸ hkey
        have hfound := (scanLookup_iff hpaired.ranked hdescent record).mpr
          ⟨hrecord, FileInfo.rank_eq_iff.mpr hrecordKey⟩
        rw [hlookup] at hfound
        contradiction
      · exact And.left
  | @refreshed _ old partner _ hlookup hpartner htime _ _ _ hlru =>
      obtain ⟨hold, hkey⟩ := scanLookup_eq_some hlookup
      rw [hlru.mem_iff, List.mem_cons, or_comm]
      apply or_congr _ Iff.rfl
      rw [List.mem_filter, List.mem_filter]
      apply and_congr_right
      intro hmem
      rw [decide_eq_true_iff, decide_eq_true_iff,
        hpaired.keyed_iff_partner hold hkey hpartner htime hmem]
      apply not_congr
      constructor
      · intro hid
        exact hpaired.sound.lru.wellFormed.eq_of_id_eq hmem hpartner hid
      · exact congrArg LruCacheRecord.id
  | dropped => exact absurd hret (by decide)
  | orphaned => exact absurd hret (by decide)

end LinuxKernelCode.ScanCache
