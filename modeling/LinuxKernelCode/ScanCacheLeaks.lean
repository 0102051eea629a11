import LinuxKernelCode.ScanCacheSlabs

/-!
# What the LRU slab loses

An insertion that allocates an LRU record for a time stamp that is taken loses
the record.  Here the lost records are counted: whatever the files, the clock
and the allocations, the LRU slab holds the records of its tree and one more
for every such insertion, nothing else ever frees them, and they are what is
left when `exit_scan_cache` comes to destroy the slab.
-/

namespace LinuxKernelCode.ScanCache

open RedBlack Runs

/-- The live records that are in no tree. -/
def Index.spare {ρ : Type} [SlabRecord ρ] (index : Index ρ) : Finset ℕ :=
  index.live \ (index.records.map recordId).toFinset

section Spare

variable {ρ : Type} [SlabRecord ρ]

theorem Index.mem_spare_iff (index : Index ρ) (id : ℕ) :
    id ∈ index.spare ↔
      id ∈ index.live ∧ ∀ record ∈ index.records, recordId record ≠ id := by
  simp [Index.spare]

theorem Index.WellFormed.card_live
    {index : Index ρ} (hwell : index.WellFormed) :
    index.live.card = index.records.length + index.spare.card := by
  have hsubset : (index.records.map recordId).toFinset ⊆ index.live := by
    intro id hid
    obtain ⟨record, hrecord, rfl⟩ := List.mem_map.mp (List.mem_toFinset.mp hid)
    exact hwell.recordsLive record hrecord
  have hcard := Finset.card_sdiff_add_card_eq_card hsubset
  rw [List.toFinset_card_of_nodup hwell.idsNodup, List.length_map] at hcard
  rw [Index.spare]
  omega

theorem Index.WellFormed.next_notMem_spare
    {index : Index ρ} (hwell : index.WellFormed) :
    index.next ∉ index.spare := by
  intro hmem
  exact hwell.next_notMem_live ((Index.mem_spare_iff _ _).mp hmem).1

/-- A record that is unlinked and freed is not lost. -/
theorem erase_sdiff_filter
    {live : Finset ℕ} {records : List ρ} {record : ρ}
    (hmem : record ∈ records) :
    live.erase (recordId record) \ ((records.filter fun other =>
        recordId other ≠ recordId record).map recordId).toFinset =
      live \ (records.map recordId).toFinset := by
  ext id
  simp only [Finset.mem_sdiff, Finset.mem_erase, List.mem_toFinset,
    List.mem_map, List.mem_filter, decide_eq_true_eq, not_exists, not_and]
  constructor
  · rintro ⟨⟨hne, hid⟩, hothers⟩
    refine ⟨hid, ?_⟩
    intro other hother heq
    exact hothers other ⟨hother, heq ▸ hne⟩ heq
  · rintro ⟨hid, hothers⟩
    exact ⟨⟨fun heq => hothers record hmem heq.symm, hid⟩,
      fun other hother => hothers other hother.1⟩

theorem Index.Discards.spare_eq
    {record : ρ} {index after : Index ρ}
    (hdiscards : Index.Discards record index after)
    (hmem : record ∈ index.records) : after.spare = index.spare := by
  rw [Index.spare, hdiscards.live, hdiscards.records]
  exact erase_sdiff_filter hmem

/-- A record that is allocated and linked is not lost either. -/
theorem spare_of_linked
    {after : Index ρ} {entry : ρ} {kept : List ρ} {left : Finset ℕ}
    (hrecords : after.records.Perm (entry :: kept))
    (hlive : after.live = insert (recordId entry) left)
    (hnext : recordId entry ∉ left) :
    after.spare = left \ (kept.map recordId).toFinset := by
  ext id
  rw [Index.mem_spare_iff, hlive]
  simp only [hrecords.mem_iff, List.mem_cons, Finset.mem_insert,
    Finset.mem_sdiff, List.mem_toFinset, List.mem_map, not_exists, not_and]
  constructor
  · rintro ⟨hlive, hothers⟩
    have hne : id ≠ recordId entry := fun heq =>
      hothers entry (Or.inl rfl) heq.symm
    exact ⟨hlive.resolve_left hne,
      fun record hrecord => hothers record (Or.inr hrecord)⟩
  · rintro ⟨hleft, hothers⟩
    refine ⟨Or.inr hleft, ?_⟩
    rintro record (rfl | hrecord) heq
    · exact hnext (heq ▸ hleft)
    · exact hothers record hrecord heq

/-- A record that is allocated and not linked is. -/
theorem spare_of_leftover
    {after : Index ρ} {next : ℕ} {left : Finset ℕ}
    (hlive : after.live = insert next left)
    (hnext : ∀ record ∈ after.records, recordId record ≠ next) :
    after.spare =
      insert next (left \ (after.records.map recordId).toFinset) := by
  rw [Index.spare, hlive]
  apply Finset.insert_sdiff_of_notMem
  rw [List.mem_toFinset, List.mem_map]
  rintro ⟨record, hrecord, heq⟩
  exact hnext record hrecord heq

end Spare

/-! ## One call -/

/-- An insertion loses its LRU record exactly if it allocates it for a time
stamp that is taken. -/
theorem InsertEffect.spare_eq
    {filp : FileInfo} {env : InsertEnv} {state after : CacheState} {ret : ℤ}
    (heffect : InsertEffect filp env state ret after) (hsound : state.Sound) :
    after.lru.spare =
      if FreesEntry state (.insert filp env) then state.lru.spare
      else insert state.lru.next state.lru.spare := by
  have hwell := hsound.lru.wellFormed
  have hfrees : FreesEntry state (.insert filp env) ↔
      (env.scanAlloc = true → env.lruAlloc = true →
        TimeFree env.now state.lru (scanLookup filp state)) := Iff.rfl
  cases heffect with
  | noMemory halloc => rw [if_pos (hfrees.mpr (by simp [halloc]))]
  | rejected halloc hlookup hcause _ _ hlru hlruLive =>
      cases hlruAlloc : env.lruAlloc with
      | false =>
          rw [if_pos (hfrees.mpr (by simp [hlruAlloc]))]
          rw [Index.leftover, hlruAlloc] at hlruLive
          rw [Index.spare, hlruLive, hlru]
          rfl
      | true =>
          have hstamped : state.lru.Stamped env.now := by
            simpa [hlruAlloc] using hcause
          rw [if_neg (by simp [hfrees, halloc, hlruAlloc, hlookup, TimeFree,
            hstamped])]
          rw [Index.leftover, hlruAlloc] at hlruLive
          rw [spare_of_leftover hlruLive, hlru]
          · rfl
          · intro entry hentry
            exact hwell.id_ne_next (hlru ▸ hentry)
  | stored _ hlookup _ hclear _ _ _ hlru hlruLive =>
      rw [if_pos (hfrees.mpr (by simp [hlookup, TimeFree, hclear]))]
      exact spare_of_linked hlru hlruLive hwell.next_notMem_live
  | @refreshed _ old partner _ hlookup hpartner htime _ hclear _ hlru
      hlruLive =>
      have hcondition : state.lru.Stamped env.now →
          old.timeStamp = env.now := by
        rintro ⟨entry, hentry, hnow⟩
        rw [← htime, ← hclear entry hentry hnow]
        exact hnow
      rw [if_pos (hfrees.mpr (by
        rw [hlookup]
        exact fun _ _ _ => hcondition))]
      rw [spare_of_linked hlru hlruLive]
      · exact erase_sdiff_filter hpartner
      · intro hmem
        exact hwell.next_notMem_live (Finset.mem_of_mem_erase hmem)
  | @dropped _ old partner halloc hlookup hpartner htime hcause _ hlru
      hlruLive =>
      have hkept : state.lru.live.erase partner.id \
          (after.lru.records.map recordId).toFinset = state.lru.spare := by
        rw [hlru]
        exact erase_sdiff_filter hpartner
      cases hlruAlloc : env.lruAlloc with
      | false =>
          rw [if_pos (hfrees.mpr (by simp [hlruAlloc]))]
          rw [hlruAlloc] at hlruLive
          rw [Index.spare, hlruLive]
          exact hkept
      | true =>
          have hother : ∃ entry ∈ state.lru.records,
              entry.timeStamp = env.now ∧ entry ≠ partner := by
            simpa [hlruAlloc] using hcause
          obtain ⟨hstamped, hne⟩ :=
            (stamped_other_iff hsound.lru hpartner).mp hother
          have hlost : ¬ FreesEntry state (.insert filp env) := by
            rw [hfrees, hlookup]
            intro hfree
            exact hne (htime.trans
              (hfree halloc hlruAlloc ⟨partner, hpartner, htime⟩ hstamped))
          rw [if_neg hlost]
          rw [hlruAlloc] at hlruLive
          rw [spare_of_leftover hlruLive, hkept]
          intro entry hentry
          rw [hlru] at hentry
          exact hwell.id_ne_next (List.mem_filter.mp hentry).1
  | orphaned _ hlookup hmissing _ hlru =>
      rw [if_pos (hfrees.mpr (by simp [hlookup, TimeFree, hmissing])), hlru]

theorem spare_of_purged
    {before after : Index LruCacheRecord} (hrecords : after.records = [])
    (hlive : ∀ id, id ∈ after.live ↔
      id ∈ before.live ∧ ∀ entry ∈ before.records, entry.id ≠ id) :
    after.spare = before.spare := by
  ext id
  rw [Index.mem_spare_iff, Index.mem_spare_iff, hlive id, hrecords]
  simp only [List.not_mem_nil, false_implies, implies_true, and_true]
  rfl

theorem Evicts.spare_eq
    {entry : LruCacheRecord} {record : ScanCacheRecord}
    {before after : CacheState} (hevicts : Evicts entry record before after) :
    after.lru.spare = before.lru.spare :=
  hevicts.lru.spare_eq (List.mem_of_mem_head? hevicts.oldest)

theorem removeCacheEntry_spare
    (rb : Rbtree) (count : ℤ) {state : CacheState} (hsound : state.Sound) :
    (removeCacheEntry rb count state).Sound ∧
      (removeCacheEntry rb count state).lru.spare = state.lru.spare :=
  removeCacheEntry_invariant rb
    (fun after => after.lru.spare = state.lru.spare)
    (fun _ hinv hevicts => hevicts.spare_eq.trans hinv) count hsound rfl

/-- Only an insertion loses records, and never more than one. -/
theorem step_spare
    (rb : Rbtree) {state : CacheState} (hsound : state.Sound) (call : Call) :
    (step rb state call).lru.spare =
      if FreesEntry state call then state.lru.spare
      else insert state.lru.next state.lru.spare := by
  cases call with
  | insert filp env =>
      obtain ⟨ret, after, hresult, heffect, _⟩ :=
        insertScanCacheRecord_effect rb hsound filp env
      simp only [step, execute, hresult]
      exact heffect.spare_eq hsound
  | findRemove filp =>
      obtain ⟨ret, after, hresult, heffect, _⟩ :=
        findRemoveScanCacheRecord_effect rb hsound filp
      rw [if_pos (show FreesEntry state (.findRemove filp) from trivial)]
      simp only [step, execute, hresult]
      cases heffect with
      | absent => rfl
      | removed _ hpartner _ _ hlru => exact hlru.spare_eq hpartner
      | unpaired _ _ _ hlru => rw [hlru]
  | removeCacheEntry count =>
      rw [if_pos (show FreesEntry state (.removeCacheEntry count) from trivial)]
      exact (removeCacheEntry_spare rb count hsound).2
  | purgeScanCache =>
      obtain ⟨_, _, hlru⟩ := purgeScanCache_spec rb hsound
      rw [if_pos (show FreesEntry state .purgeScanCache from trivial)]
      simp only [step, execute, hlru]
  | purgeCache =>
      obtain ⟨_, _, hempty, hlive⟩ := purgeCache_spec rb hsound
      rw [if_pos (show FreesEntry state .purgeCache from trivial)]
      exact spare_of_purged hempty hlive

theorem step_spare_card
    (rb : Rbtree) {state : CacheState} (hsound : state.Sound) (call : Call) :
    (step rb state call).lru.spare.card =
      state.lru.spare.card + if FreesEntry state call then 0 else 1 := by
  rw [step_spare rb hsound]
  split
  · rfl
  · exact Finset.card_insert_of_notMem
      hsound.lru.wellFormed.next_notMem_spare

/-! ## Runs -/

/-- Whatever is called, with whatever clock and whatever allocations: the LRU
slab holds the records of its tree and one more for each insertion that was
given a time stamp that was taken; unloading empties both trees and the scan
slab, frees nothing twice, and leaves just these records in the LRU slab. -/
theorem lost_records (rb : Rbtree) (calls : List Call) :
    let state := calls.foldl (step rb) .empty
    let lost := violations (step rb) FreesEntry .empty calls
    state.lru.live.card = state.lru.records.length + lost ∧
    (exitScanCache rb state).scan.records = [] ∧
    (exitScanCache rb state).lru.records = [] ∧
    (exitScanCache rb state).scan.live = ∅ ∧
    (exitScanCache rb state).lru.live.card = lost ∧
    (exitScanCache rb state).scan.faults = [] ∧
    (exitScanCache rb state).lru.faults = [] := by
  intro state lost
  have hguarded : Guarded (step rb) (fun _ _ => True) .empty calls :=
    guarded_of_forall fun _ _ => trivial
  have hsound : state.Sound := hguarded.invariant
    (fun before call hbefore _ => hbefore.step rb call) CacheState.empty_sound
  have hrun : state.lru.spare.card =
      CacheState.empty.lru.spare.card + lost :=
    measure_run (fun state : CacheState => state.lru.spare.card)
      (fun before call hbefore => CacheState.Sound.step hbefore rb call)
      (fun before call hbefore => step_spare_card rb hbefore call)
      CacheState.empty_sound
  have hlost : state.lru.spare.card = lost := by
    rw [hrun]
    exact Nat.zero_add lost
  obtain ⟨hevicted, hkept⟩ := removeCacheEntry_spare rb 2 hsound
  obtain ⟨hpurged, hscanEmpty, hlruEmpty, hlive⟩ :=
    purgeCache_spec rb hevicted
  have hspare : (exitScanCache rb state).lru.spare = state.lru.spare :=
    (spare_of_purged hlruEmpty hlive).trans hkept
  refine ⟨?_, hscanEmpty, hlruEmpty, ?_, ?_, hpurged.scan.faults,
    hpurged.lru.faults⟩
  · rw [hsound.lru.wellFormed.card_live, hlost]
  · apply Finset.eq_empty_of_forall_notMem
    intro id hid
    obtain ⟨record, hrecord, _⟩ := hpurged.scan.owned id hid
    rw [hscanEmpty] at hrecord
    exact List.not_mem_nil hrecord
  · have hcard := hpurged.lru.wellFormed.card_live
    rw [hlruEmpty, List.length_nil, Nat.zero_add] at hcard
    exact hcard.trans ((congrArg Finset.card hspare).trans hlost)

end LinuxKernelCode.ScanCache
