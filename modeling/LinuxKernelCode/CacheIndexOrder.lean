import LinuxKernelCode.CacheIndex
import LinuxKernelCode.RedBlackOrder
import LinuxKernelCode.RedBlackRebalance

/-!
# The tree macros of `cache.h` over any comparison

`RB_INSERT` and `RB_SEARCH` are written for every record type and every
comparison function.  Without any assumption on the comparison the two macros
stop at the same node.  Over a lawful order on an increasing tree, the first is
sorted insertion without duplicates and the second is lookup.
-/

namespace LinuxKernelCode.ScanCache

open RedBlack

variable {ρ κ : Type}

theorem Index.rbSearch_eq_or
    (cmp : κ → ρ → ℤ) (searchingKey : κ) (searchRecord : Option ρ)
    (index : Index ρ) :
    index.rbSearch cmp searchingKey searchRecord =
      (descendFind (cmp searchingKey) index.tree).or searchRecord := by
  unfold Index.rbSearch
  cases descendFind (cmp searchingKey) index.tree <;> rfl

theorem Index.rbInsert_eq_neg_one_iff
    (rb : Rbtree) (cmp : ρ → ρ → ℤ) (new : ρ) (index : Index ρ) :
    (index.rbInsert rb cmp new).1 = -1 ↔
      ∃ old, descendFind (cmp new) index.tree = some old := by
  unfold Index.rbInsert
  cases hslot : descendSlot (cmp new) index.tree .root with
  | error old =>
      have hfind := (descendSlot_eq_error_iff _ _ _ _).mp hslot
      simp [hfind]
  | ok slot =>
      constructor
      · intro hret
        simp at hret
      · rintro ⟨old, hfind⟩
        rw [descendSlot_of_find_some hfind] at hslot
        contradiction

theorem Index.rbInsert_of_ne_zero
    {rb : Rbtree} {cmp : ρ → ρ → ℤ} {new : ρ} {index : Index ρ}
    (hret : (index.rbInsert rb cmp new).1 ≠ 0) :
    index.rbInsert rb cmp new = (-1, index) := by
  unfold Index.rbInsert at hret ⊢
  cases hslot : descendSlot (cmp new) index.tree .root with
  | error old => rfl
  | ok slot =>
      rw [hslot] at hret
      contradiction

/-- A duplicate reported by `RB_INSERT` is the node at which `RB_SEARCH`
stops. -/
theorem Index.rbInsert_stops
    {rb : Rbtree} {cmp : ρ → ρ → ℤ} {new : ρ} {index : Index ρ}
    (hdup : (index.rbInsert rb cmp new).1 = -1) :
    ∃ position : Position ρ,
      position.tree = index.tree ∧
      insertLoop (cmp new) index.tree .root = .error position ∧
      searchLoop (cmp new) index.tree .root = some position ∧
      cmp new position.value = 0 ∧
      ∀ searchRecord,
        index.rbSearch cmp new searchRecord = some position.value := by
  obtain ⟨position, hinsert⟩ : ∃ position,
      insertLoop (cmp new) index.tree .root = .error position := by
    unfold Index.rbInsert at hdup
    rw [descendSlot_eq_insertLoop] at hdup
    cases hloop : insertLoop (cmp new) index.tree .root with
    | error position => exact ⟨position, rfl⟩
    | ok slot =>
        rw [hloop] at hdup
        simp [Except.mapError] at hdup
  have hsearch := (insertLoop_eq_error_iff _ _ _ _).mp hinsert
  have hfind := descendFind_of_searchLoop hsearch
  refine ⟨position, searchLoop_tree hsearch, hinsert, hsearch,
    (descendFind_eq_some hfind).2, ?_⟩
  intro searchRecord
  rw [Index.rbSearch_eq_or, hfind]
  rfl

/-! ## Lawful orders -/

section Lawful

variable {cmp : ρ → ρ → ℤ} {index : Index ρ}

theorem Index.rbSearch_of_threeWay
    (hcmp : ThreeWay cmp) (hincreasing : Increasing cmp index.records)
    {key record : ρ} (hrecord : record ∈ index.records)
    (hzero : cmp key record = 0) (searchRecord : Option ρ) :
    index.rbSearch cmp key searchRecord = some record := by
  have hfind := (descendFind_iff_of_sided (hincreasing.sided hcmp key) record).mpr
    ⟨hrecord, hzero⟩
  rw [Index.rbSearch_eq_or, hfind]
  rfl

theorem Index.descendFind_eq_none
    {key : ρ} (hfresh : ∀ record ∈ index.records, cmp key record ≠ 0) :
    descendFind (cmp key) index.tree = none := by
  rw [Option.eq_none_iff_forall_ne_some]
  intro record hfind
  obtain ⟨hmem, hzero⟩ := descendFind_eq_some hfind
  exact hfresh record hmem hzero

theorem Index.rbInsert_fresh_of_threeWay
    (rb : Rbtree) (hcmp : ThreeWay cmp)
    (hincreasing : Increasing cmp index.records) {new : ρ}
    (hfresh : ∀ record ∈ index.records, cmp new record ≠ 0) :
    (index.rbInsert rb cmp new).1 = 0 ∧
      (index.rbInsert rb cmp new).2.records =
        index.records.orderedInsert
          (fun first second => cmp first second ≤ 0) new ∧
      Increasing cmp (index.rbInsert rb cmp new).2.records := by
  have hnone := Index.descendFind_eq_none hfresh
  rw [← Index.rbSearch_none_eq] at hnone
  obtain ⟨slot, hslot, hsplit, hinsert, hrecords⟩ :=
    Index.rbInsert_of_notFound rb hnone
  obtain ⟨hbefore, hafter⟩ := descendSlot_bounds_of_sided hslot
    (hincreasing.sided hcmp new) (by simp) (by simp)
  rw [hinsert]
  refine ⟨rfl, ?_, ?_⟩
  · rw [hrecords, hsplit, orderedInsert_of_bounds hbefore hafter]
  · rw [hrecords]
    rw [hsplit] at hincreasing
    apply pairwise_insert hincreasing _ hafter
    intro other hother
    exact (hcmp.swap other new).mpr (hbefore other hother)

/-- `RB_INSERT` refuses exactly the duplicates and otherwise performs sorted
insertion; `RB_SEARCH` is lookup. -/
theorem Index.treeMacros_of_threeWay
    (rb : Rbtree) (hcmp : ThreeWay cmp)
    (hincreasing : Increasing cmp index.records) (x : ρ) :
    (index.rbInsert rb cmp x = (-1, index) ↔
        ∃ record ∈ index.records, cmp x record = 0) ∧
      ((∀ record ∈ index.records, cmp x record ≠ 0) →
        (index.rbInsert rb cmp x).1 = 0 ∧
          (index.rbInsert rb cmp x).2.records =
            index.records.orderedInsert
              (fun first second => cmp first second ≤ 0) x ∧
          Increasing cmp (index.rbInsert rb cmp x).2.records ∧
          index.records.Sublist (index.rbInsert rb cmp x).2.records) ∧
      ∀ searchRecord : Option ρ,
        (∀ record ∈ index.records, cmp x record = 0 →
          index.rbSearch cmp x searchRecord = some record ∧
            ∀ other ∈ index.records, cmp x other = 0 → other = record) ∧
        ((∀ record ∈ index.records, cmp x record ≠ 0) →
          index.rbSearch cmp x searchRecord = searchRecord) := by
  have hsided : Sided (cmp x) index.records := hincreasing.sided hcmp x
  refine ⟨⟨?_, ?_⟩, ?_, ?_⟩
  · intro hinsert
    obtain ⟨old, hfind⟩ :=
      (Index.rbInsert_eq_neg_one_iff rb cmp x index).mp (by rw [hinsert])
    exact ⟨old, descendFind_eq_some hfind⟩
  · rintro ⟨record, hrecord, hzero⟩
    exact Index.rbInsert_of_found rb
      (Index.rbSearch_of_threeWay hcmp hincreasing hrecord hzero none)
  · intro hfresh
    obtain ⟨hret, hrecords, hnew⟩ :=
      Index.rbInsert_fresh_of_threeWay rb hcmp hincreasing hfresh
    refine ⟨hret, hrecords, hnew, ?_⟩
    rw [hrecords]
    exact List.sublist_orderedInsert x index.records
  · intro searchRecord
    constructor
    · intro record hrecord hzero
      refine ⟨Index.rbSearch_of_threeWay hcmp hincreasing hrecord hzero _, ?_⟩
      intro other hother hzeroOther
      exact hsided.eq_of_zero hother hrecord hzeroOther hzero
    · intro hfresh
      rw [Index.rbSearch_eq_or, Index.descendFind_eq_none hfresh]
      rfl

theorem Index.treeMacros_of_threeWay_odd_numbers :
    let index : Index ℤ :=
      ⟨.node .black (.node .red .nil 1 .nil) 3 (.node .red .nil 5 .nil), ∅, 0, []⟩
    (index.rbInsert linuxRbtree (fun first second => first - second) 4).2.records =
        [1, 3, 4, 5] ∧
      index.rbInsert linuxRbtree (fun first second => first - second) 5 =
        (-1, index) ∧
      index.rbSearch (fun first second : ℤ => first - second) 1 none = some 1 := by
  intro index
  have hcmp : ThreeWay fun first second : ℤ => first - second :=
    ⟨fun _ _ => by omega, fun _ _ _ _ _ => by omega⟩
  have hincreasing :
      Increasing (fun first second : ℤ => first - second) index.records := by
    simp [index, Increasing, Index.records]
  have hmacros := Index.treeMacros_of_threeWay linuxRbtree hcmp hincreasing
  refine ⟨?_, ?_, ?_⟩
  · rw [((hmacros 4).2.1 (by simp [index, Index.records])).2.1]
    rfl
  · exact (hmacros 5).1.mpr ⟨5, by simp [index, Index.records], rfl⟩
  · exact (((hmacros 1).2.2 none).1 1 (by simp [index, Index.records]) rfl).1

end Lawful

end LinuxKernelCode.ScanCache
