import LinuxKernelCode.ScanCacheOrder
import LinuxKernelCode.SignedDifference

/-!
# The inode order within one device

On one device the tables of the scan tree compare inode numbers by the sign of
their 64-bit difference.  This module settles for which sets of records that
is a total order: the inode numbers have to keep to `2 ^ 63` consecutive
values of the circle of 64-bit numbers.  Below `2 ^ 63` they always do, but
file systems that hash their inode numbers use the whole circle.
-/

namespace LinuxKernelCode.ScanCache

open SignedDifference

theorem compareLevels_singleton (difference : ℤ) :
    compareLevels [difference] = difference.sign := by
  unfold compareLevels compareLevels
  split_ifs with hpos hneg
  · exact (Int.sign_eq_one_of_pos hpos).symm
  · exact (Int.sign_eq_neg_one_of_neg hneg).symm
  · have hzero : difference = 0 := by omega
    simp [hzero]

theorem keyCompare_eq_sign
    {devId : BitVec 32} {record : ScanCacheRecord} (hdev : devId = record.devId)
    (inodeNumber : BitVec 64) :
    keyCompare devId inodeNumber record =
      (inodeNumber - record.inodeNumber).toInt.sign := by
  have hzero := (difference32_eq_zero_iff devId record.devId).mpr hdev
  unfold keyCompare
  rw [hzero, compareLevels_of_zero, compareLevels_singleton]
  rfl

/-- Where the inode numbers differ, the generation is not looked at. -/
theorem scanCacheFindCompareTable_eq_sign
    {key : ScanCacheRecordCompare} {record : ScanCacheRecord}
    (hdev : key.devId = record.devId)
    (hne : key.inodeNumber ≠ record.inodeNumber) :
    scanCacheFindCompareTable key record =
      (key.inodeNumber - record.inodeNumber).toInt.sign := by
  have hnonzero : keyCompare key.devId key.inodeNumber record ≠ 0 := by
    rw [Ne, keyCompare_eq_zero_iff]
    exact fun hsame => hne hsame.2.symm
  rw [scanCacheFindCompareTable_eq_keyCompare key record hnonzero]
  exact keyCompare_eq_sign hdev key.inodeNumber

/-- The insertion table is a total order on the inode numbers of the given
records, and the search table takes the same sides. -/
structure OrdersInodes (records : List ScanCacheRecord) : Prop where
  zero_iff : ∀ first ∈ records, ∀ second ∈ records,
    scanCacheInsertCompareTable first second = 0 ↔
      first.inodeNumber = second.inodeNumber
  antisymm : ∀ first ∈ records, ∀ second ∈ records,
    scanCacheInsertCompareTable first second =
      -scanCacheInsertCompareTable second first
  trans : ∀ first ∈ records, ∀ second ∈ records, ∀ third ∈ records,
    scanCacheInsertCompareTable first second < 0 →
      scanCacheInsertCompareTable second third < 0 →
        scanCacheInsertCompareTable first third < 0
  find_sign : ∀ first ∈ records, ∀ second ∈ records,
    first.inodeNumber ≠ second.inodeNumber → ∀ generation,
      (scanCacheFindCompareTable
          ⟨first.devId, first.inodeNumber, generation⟩ second).sign =
        (scanCacheInsertCompareTable first second).sign

section OneDevice

variable {devId : BitVec 32} {records : List ScanCacheRecord}

theorem scanCacheInsertCompareTable_of_mem
    (hdev : ∀ record ∈ records, record.devId = devId)
    {first second : ScanCacheRecord} (hfirst : first ∈ records)
    (hsecond : second ∈ records) :
    scanCacheInsertCompareTable first second =
      (first.inodeNumber - second.inodeNumber).toInt.sign := by
  apply keyCompare_eq_sign
  rw [hdev first hfirst, hdev second hsecond]

theorem OrdersInodes.signOrder
    (horders : OrdersInodes records)
    (hdev : ∀ record ∈ records, record.devId = devId) :
    SignOrder (records.map ScanCacheRecord.inodeNumber) := by
  constructor
  · simp only [List.forall_mem_map]
    intro first hfirst second hsecond hlt
    have hswap := horders.antisymm second hsecond first hfirst
    rw [scanCacheInsertCompareTable_of_mem hdev hfirst hsecond,
      scanCacheInsertCompareTable_of_mem hdev hsecond hfirst,
      Int.sign_eq_neg_one_of_neg hlt] at hswap
    exact Int.sign_eq_one_iff_pos.mp hswap
  · simp only [List.forall_mem_map]
    intro first hfirst second hsecond third hthird hlt hlt'
    have htrans := horders.trans first hfirst second hsecond third hthird
    rw [scanCacheInsertCompareTable_of_mem hdev hfirst hsecond,
      scanCacheInsertCompareTable_of_mem hdev hsecond hthird,
      scanCacheInsertCompareTable_of_mem hdev hfirst hthird] at htrans
    simp only [Int.sign_neg_iff] at htrans
    exact htrans hlt hlt'

theorem ordersInodes_of_signOrder
    (hdev : ∀ record ∈ records, record.devId = devId)
    (horder : SignOrder (records.map ScanCacheRecord.inodeNumber)) :
    OrdersInodes records := by
  have hinode : ∀ record ∈ records,
      record.inodeNumber ∈ records.map ScanCacheRecord.inodeNumber :=
    fun record hrecord => List.mem_map_of_mem hrecord
  constructor
  · intro first hfirst second hsecond
    rw [scanCacheInsertCompareTable_of_mem hdev hfirst hsecond,
      Int.sign_eq_zero_iff_zero, toInt_sub_eq_zero_iff]
  · intro first hfirst second hsecond
    rw [scanCacheInsertCompareTable_of_mem hdev hfirst hsecond,
      scanCacheInsertCompareTable_of_mem hdev hsecond hfirst]
    exact horder.sign_sub (hinode first hfirst) (hinode second hsecond)
  · intro first hfirst second hsecond third hthird
    rw [scanCacheInsertCompareTable_of_mem hdev hfirst hsecond,
      scanCacheInsertCompareTable_of_mem hdev hsecond hthird,
      scanCacheInsertCompareTable_of_mem hdev hfirst hthird]
    simp only [Int.sign_neg_iff]
    exact horder.trans _ (hinode first hfirst) _ (hinode second hsecond)
      _ (hinode third hthird)
  · intro first hfirst second hsecond hne generation
    have hdevices : first.devId = second.devId := by
      rw [hdev first hfirst, hdev second hsecond]
    rw [scanCacheInsertCompareTable_of_mem hdev hfirst hsecond]
    exact congrArg Int.sign (scanCacheFindCompareTable_eq_sign hdevices hne)

/-- On one device the tables order the records if and only if the inode
numbers lie within `2 ^ 63` consecutive values, counted modulo `2 ^ 64`. -/
theorem ordersInodes_iff
    (hdev : ∀ record ∈ records, record.devId = devId) :
    OrdersInodes records ↔
      ∃ base : BitVec 64, ∀ record ∈ records,
        (record.inodeNumber - base).toNat < 2 ^ 63 := by
  have hhalf : ∀ base : BitVec 64,
      HalfCircle base (records.map ScanCacheRecord.inodeNumber) ↔
        ∀ record ∈ records, (record.inodeNumber - base).toNat < 2 ^ 63 := by
    intro base
    unfold HalfCircle
    rw [List.forall_mem_map]
    apply forall₂_congr
    intro record hrecord
    omega
  constructor
  · intro horders
    obtain ⟨base, hbase⟩ := (signOrder_iff _).mp (horders.signOrder hdev)
    exact ⟨base, (hhalf base).mp hbase⟩
  · rintro ⟨base, hbase⟩
    apply ordersInodes_of_signOrder hdev
    exact (signOrder_iff _).mpr ⟨base, (hhalf base).mpr hbase⟩

end OneDevice

def inodeRecord (inodeNumber : BitVec 64) : ScanCacheRecord :=
  ⟨0, 1, inodeNumber, 0, ⟨7, 1, by decide, by decide⟩⟩

/-- Inode numbers on both sides of zero that stay close together. -/
theorem ordersInodes_around_zero :
    OrdersInodes [inodeRecord 0xfffffffffffffffb, inodeRecord 3, inodeRecord 77] := by
  have hdev : ∀ record ∈ [inodeRecord 0xfffffffffffffffb, inodeRecord 3,
      inodeRecord 77], record.devId = 1 := by
    simp [inodeRecord]
  exact (ordersInodes_iff hdev).mpr ⟨0xfffffffffffffffb, by decide⟩

/-- Opposite numbers each come before the other, and of three numbers spread
over the circle the first comes before the second, the second before the third
and the third before the first. -/
theorem not_ordersInodes_opposite :
    ¬ OrdersInodes [inodeRecord 0, inodeRecord 0x8000000000000000] ∧
      ¬ OrdersInodes [inodeRecord 0, inodeRecord 0x4000000000000000,
        inodeRecord 0xbfffffffffffffff] := by
  constructor
  · intro horders
    have hswap := horders.antisymm (inodeRecord 0) (by simp)
      (inodeRecord 0x8000000000000000) (by simp)
    revert hswap
    decide
  · intro horders
    have htrans := horders.trans (inodeRecord 0) (by simp)
      (inodeRecord 0x4000000000000000) (by simp)
      (inodeRecord 0xbfffffffffffffff) (by simp) (by decide) (by decide)
    revert htrans
    decide

end LinuxKernelCode.ScanCache
