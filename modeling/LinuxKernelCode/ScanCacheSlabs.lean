import LinuxKernelCode.StepRuns
import LinuxKernelCode.RedBlackRebalance
import LinuxKernelCode.ScanCacheCoherence

/-!
# Slab accounting

The scan slab is exact in every run.  The LRU slab is not: when
`insert_lru_cache_record` meets a record with the same time stamp it returns
without freeing the entry it has allocated.  This module says exactly which
runs keep both slabs exact, for arbitrary files, clocks and allocations.
-/

namespace LinuxKernelCode.ScanCache

open RedBlack Runs

/-- Both slabs hold the records of their trees and nothing else, no record was
freed or used when it was not live, and unloading the module empties both. -/
structure SlabsExact (rb : Rbtree) (state : CacheState) : Prop where
  scanLive : state.scan.live = (state.scan.records.map recordId).toFinset
  lruLive : state.lru.live = (state.lru.records.map recordId).toFinset
  scanFaults : state.scan.faults = []
  lruFaults : state.lru.faults = []
  scanDestroyed : (exitScanCache rb state).scan.live = ∅
  lruDestroyed : (exitScanCache rb state).lru.live = ∅
  exitScanFaults : (exitScanCache rb state).scan.faults = []
  exitLruFaults : (exitScanCache rb state).lru.faults = []

/-- The time stamp is free for the LRU record of an insertion.  A scan record
that is being replaced gives up its own time stamp first, and without an LRU
record of its own no new one is allocated. -/
def TimeFree (now : Timespec) (lru : Index LruCacheRecord) :
    Option ScanCacheRecord → Prop
  | none => ¬ lru.Stamped now
  | some old => lru.Stamped old.timeStamp → lru.Stamped now →
      old.timeStamp = now

instance (now : Timespec) (lru : Index LruCacheRecord) :
    DecidablePred (TimeFree now lru)
  | none => inferInstanceAs (Decidable (¬ _))
  | some _ => inferInstanceAs (Decidable (_ → _ → _))

/-- The call does not allocate an LRU record for a time stamp that is taken. -/
def FreesEntry (state : CacheState) : Call → Prop
  | .insert filp env =>
      env.scanAlloc = true → env.lruAlloc = true →
        TimeFree env.now state.lru (scanLookup filp state)
  | _ => True

instance (state : CacheState) : DecidablePred (FreesEntry state)
  | .insert _ _ => inferInstanceAs (Decidable (_ → _ → _))
  | .findRemove _ => .isTrue trivial
  | .removeCacheEntry _ => .isTrue trivial
  | .purgeScanCache => .isTrue trivial
  | .purgeCache => .isTrue trivial

/-! ## What one call does to the LRU slab -/

/-- An entry that stays allocated without being linked is not owned. -/
theorem not_owned_of_leftover
    {lru after : Index LruCacheRecord} (hwell : lru.WellFormed)
    (hrecords : ∀ entry ∈ after.records, entry ∈ lru.records)
    (hlive : lru.next ∈ after.live) : ¬ after.Owned := by
  intro howned
  obtain ⟨entry, hentry, heq⟩ := howned lru.next hlive
  exact hwell.id_ne_next (hrecords entry hentry) heq

/-- In a sound state the entry stamped `now` is not the partner of the
replaced record exactly when the two time stamps differ. -/
theorem stamped_other_iff
    {lru : Index LruCacheRecord} (hlru : lru.LruSound) {partner : LruCacheRecord}
    (hpartner : partner ∈ lru.records) {now : Timespec} :
    (∃ entry ∈ lru.records, entry.timeStamp = now ∧ entry ≠ partner) ↔
      lru.Stamped now ∧ partner.timeStamp ≠ now := by
  constructor
  · rintro ⟨entry, hentry, hnow, hne⟩
    refine ⟨⟨entry, hentry, hnow⟩, ?_⟩
    intro hsame
    exact hne (hlru.eq_of_timeStamp_eq hentry hpartner (hnow.trans hsame.symm))
  · rintro ⟨⟨entry, hentry, hnow⟩, hne⟩
    refine ⟨entry, hentry, hnow, ?_⟩
    intro heq
    subst entry
    exact hne hnow

theorem InsertEffect.owned_iff
    {filp : FileInfo} {env : InsertEnv} {state after : CacheState} {ret : ℤ}
    (heffect : InsertEffect filp env state ret after) (hsound : state.Sound)
    (howned : state.lru.Owned) :
    after.lru.Owned ↔ FreesEntry state (.insert filp env) := by
  change after.lru.Owned ↔ (env.scanAlloc = true → env.lruAlloc = true →
    TimeFree env.now state.lru (scanLookup filp state))
  cases heffect with
  | noMemory halloc => simp [halloc, howned]
  | rejected halloc hlookup hcause _ _ hlru hlruLive =>
      rw [hlookup]
      cases hlruAlloc : env.lruAlloc with
      | false =>
          simp only [Index.leftover, hlruAlloc, Bool.false_eq_true, if_false]
            at hlruLive
          simp only [Bool.false_eq_true, false_implies, implies_true, iff_true]
          intro id hid
          rw [hlru]
          exact howned id (hlruLive ▸ hid)
      | true =>
          simp only [Index.leftover, hlruAlloc, if_true] at hlruLive
          have hstamped : state.lru.Stamped env.now := by
            simpa [hlruAlloc] using hcause
          have hleak : ¬ after.lru.Owned := by
            apply not_owned_of_leftover hsound.lru.wellFormed
            · intro entry hentry
              exact hlru ▸ hentry
            · rw [hlruLive]
              exact Finset.mem_insert_self _ _
          simp [TimeFree, hleak, halloc, hstamped]
  | stored _ hlookup _ hclear _ _ _ hlru hlruLive =>
      rw [hlookup]
      have hnext : after.lru.Owned := by
        unfold Index.Owned
        rw [hlruLive]
        exact owned_insert howned hlru
      simp [TimeFree, hnext, hclear]
  | @refreshed _ old partner _ hlookup hpartner htime _ hclear _ hlru hlruLive =>
      rw [hlookup]
      have hnext : after.lru.Owned := by
        unfold Index.Owned
        rw [hlruLive]
        exact owned_insert (owned_erase howned partner) hlru
      have hcondition : state.lru.Stamped env.now → old.timeStamp = env.now := by
        rintro ⟨entry, hentry, hnow⟩
        rw [← htime, ← hclear entry hentry hnow]
        exact hnow
      simp only [hnext, true_iff]
      intro _ _ _
      exact hcondition
  | @dropped _ old partner halloc hlookup hpartner htime hcause _ hlru hlruLive =>
      rw [hlookup]
      cases hlruAlloc : env.lruAlloc with
      | false =>
          rw [hlruAlloc] at hlruLive
          simp only [Bool.false_eq_true, if_false] at hlruLive
          simp only [Bool.false_eq_true, false_implies, implies_true, iff_true]
          unfold Index.Owned
          rw [hlruLive, hlru]
          exact owned_erase howned partner
      | true =>
          rw [hlruAlloc] at hlruLive
          simp only [if_true] at hlruLive
          have hother : ∃ entry ∈ state.lru.records,
              entry.timeStamp = env.now ∧ entry ≠ partner := by
            simpa [hlruAlloc] using hcause
          obtain ⟨hstamped, hne⟩ :=
            (stamped_other_iff hsound.lru hpartner).mp hother
          have hleak : ¬ after.lru.Owned := by
            apply not_owned_of_leftover hsound.lru.wellFormed
            · intro entry hentry
              rw [hlru] at hentry
              exact (List.mem_filter.mp hentry).1
            · rw [hlruLive]
              exact Finset.mem_insert_self _ _
          have hpresent : state.lru.Stamped old.timeStamp :=
            ⟨partner, hpartner, htime⟩
          constructor
          · intro hkept
            exact absurd hkept hleak
          · intro hcondition
            exact absurd (htime.trans
              (hcondition halloc rfl hpresent hstamped)) hne
  | orphaned _ hlookup hmissing _ hlru =>
      rw [hlookup, hlru]
      simp [TimeFree, howned, hmissing]

theorem owned_of_purged
    {before after : Index LruCacheRecord} (howned : before.Owned)
    (hlive : ∀ id, id ∈ after.live ↔
      id ∈ before.live ∧ ∀ entry ∈ before.records, entry.id ≠ id) :
    after.live = ∅ := by
  apply Finset.eq_empty_of_forall_notMem
  intro id hid
  obtain ⟨hmem, hnone⟩ := (hlive id).mp hid
  obtain ⟨entry, hentry, heq⟩ := howned id hmem
  exact hnone entry hentry heq

theorem owned_step_iff
    (rb : Rbtree) {state : CacheState} (hsound : state.Sound)
    (howned : state.lru.Owned) (call : Call) :
    (step rb state call).lru.Owned ↔ FreesEntry state call := by
  cases call with
  | insert filp env =>
      obtain ⟨ret, after, hresult, heffect, _⟩ :=
        insertScanCacheRecord_effect rb hsound filp env
      simp only [step, execute, hresult]
      exact heffect.owned_iff hsound howned
  | findRemove filp =>
      obtain ⟨ret, after, hresult, heffect, _⟩ :=
        findRemoveScanCacheRecord_effect rb hsound filp
      simp only [step, execute, hresult, FreesEntry, iff_true]
      cases heffect with
      | absent => exact howned
      | removed _ _ _ _ hlru => exact howned.discards hlru
      | unpaired _ _ _ hlru => exact hlru ▸ howned
  | removeCacheEntry count =>
      simp only [step, execute, FreesEntry, iff_true]
      exact (removeCacheEntry_invariant rb (fun after => after.lru.Owned)
        (fun _ hinv hevicts => hinv.discards hevicts.lru) count hsound howned).2
  | purgeScanCache =>
      obtain ⟨_, _, hlru⟩ := purgeScanCache_spec rb hsound
      simp only [step, execute, FreesEntry, iff_true]
      exact hlru ▸ howned
  | purgeCache =>
      obtain ⟨_, _, _, hlive⟩ := purgeCache_spec rb hsound
      have hempty : (purgeCache rb state).lru.live = ∅ :=
        owned_of_purged howned hlive
      simp only [step, execute, FreesEntry, iff_true]
      intro id hid
      rw [hempty] at hid
      contradiction

/-! ## Unloading -/

theorem slabsExact_iff
    (rb : Rbtree) {state : CacheState} (hsound : state.Sound) :
    SlabsExact rb state ↔ state.lru.Owned := by
  constructor
  · intro hexact id hid
    rw [hexact.lruLive, List.mem_toFinset] at hid
    exact List.mem_map.mp hid
  · intro howned
    obtain ⟨hevicted, hevictedOwned⟩ := removeCacheEntry_invariant rb
      (fun after => after.lru.Owned)
      (fun _ hinv hevicts => hinv.discards hevicts.lru) 2 hsound howned
    obtain ⟨hpurged, hscanEmpty, _, hlive⟩ := purgeCache_spec rb hevicted
    have hscanLive : (exitScanCache rb state).scan.live = ∅ := by
      apply Finset.eq_empty_of_forall_notMem
      intro id hid
      obtain ⟨record, hrecord, _⟩ := hpurged.scan.owned id hid
      rw [hscanEmpty] at hrecord
      contradiction
    exact {
      scanLive := hsound.scan.owned.live_eq hsound.scan.wellFormed
      lruLive := howned.live_eq hsound.lru.wellFormed
      scanFaults := hsound.scan.faults
      lruFaults := hsound.lru.faults
      scanDestroyed := hscanLive
      lruDestroyed := owned_of_purged hevictedOwned hlive
      exitScanFaults := hpurged.scan.faults
      exitLruFaults := hpurged.lru.faults }

/-- Both slabs are exact all along a run, and emptied by unloading after each
call, exactly when no insertion of the run allocates an LRU record for a time
stamp that is taken. -/
theorem slabsExact_always_iff (rb : Rbtree) (calls : List Call) :
    Always (step rb) (SlabsExact rb) .empty calls ↔
      Guarded (step rb) FreesEntry .empty calls := by
  have hguarded : Guarded (step rb) (fun _ _ => True) .empty calls :=
    guarded_of_forall fun _ _ => trivial
  have hempty : CacheState.empty.lru.Owned := by
    intro id hid
    simp [CacheState.empty, Index.empty] at hid
  apply always_iff_guarded hguarded
    (fun state => state.Sound ∧ state.lru.Owned)
  · rintro state call ⟨hsound, _⟩ _ hexact
    exact ⟨hsound.step rb call,
      (slabsExact_iff rb (hsound.step rb call)).mp hexact⟩
  · rintro state call ⟨hsound, howned⟩ _
    rw [slabsExact_iff rb (hsound.step rb call)]
    exact owned_step_iff rb hsound howned call
  · exact ⟨CacheState.empty_sound, hempty⟩
  · exact (slabsExact_iff rb CacheState.empty_sound).mpr hempty

/-- The LRU record of the second file is allocated, refused by the tree and
never freed. -/
theorem slabs_leak_at_shared_time :
    ¬ Always (step linuxRbtree) (SlabsExact linuxRbtree) .empty
      [.insert ⟨1, 4, 1⟩ ⟨true, .atSecond 5, true⟩,
        .insert ⟨1, 6, 1⟩ ⟨true, .atSecond 5, true⟩] := by
  rintro ⟨_, _, hexact⟩
  exact absurd hexact.lruDestroyed (by decide)

end LinuxKernelCode.ScanCache
