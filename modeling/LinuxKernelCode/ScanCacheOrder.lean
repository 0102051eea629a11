import LinuxKernelCode.ScanCacheModel

/-!
# What the comparison tables order

The two tables of the LRU tree order records by the instant of their time
stamp.  The tables of the scan tree answer zero exactly on equal fields, but a
difference of `dev_t` never comes out negative and a difference of inode
numbers is only right below `2 ^ 63`.  A record's `rank` is the position that
the pair of device and inode number would have in the intended lexicographic
order.
-/

namespace LinuxKernelCode.ScanCache

open RedBlack

/-! ## Differences -/

theorem difference32_eq_zero_iff (first second : BitVec 32) :
    difference32 first second = 0 ↔ first = second := by
  unfold difference32
  rw [BitVec.toInt_eq_toNat_cond]
  have hlt := (first - second).isLt
  simp only [BitVec.toNat_setWidth]
  split_ifs <;> bv_omega

theorem difference64_eq_zero_iff (first second : BitVec 64) :
    difference64 first second = 0 ↔ first = second := by
  unfold difference64
  rw [BitVec.toInt_eq_toNat_cond]
  split_ifs <;> bv_omega

/-- Below `2 ^ 63` the signed reading of a difference is the difference. -/
theorem difference64_eq_sub
    {first second : BitVec 64}
    (hfirst : first.toNat < 2 ^ 63) (hsecond : second.toNat < 2 ^ 63) :
    difference64 first second = (first.toNat : ℤ) - second.toNat := by
  unfold difference64
  rw [BitVec.toInt_eq_toNat_cond]
  split_ifs <;> bv_omega

/-! ## Levels -/

theorem compareLevels_eq_zero_iff (levels : List ℤ) :
    compareLevels levels = 0 ↔ ∀ difference ∈ levels, difference = 0 := by
  induction levels with
  | nil => simp [compareLevels]
  | cons difference levels ih =>
      unfold compareLevels
      split_ifs with hpos hneg
      · simp [hpos.ne']
      · simp [hneg.ne]
      · have hzero : difference = 0 := by omega
        simp [ih, hzero]

theorem compareLevels_of_zero (levels : List ℤ) :
    compareLevels (0 :: levels) = compareLevels levels := by
  simp [compareLevels]

/-! ## Time stamps -/

/-- Nanoseconds since the epoch. -/
def Timespec.ticks (time : Timespec) : ℕ :=
  time.tvSec.toNat * 10 ^ 9 + time.tvNsec.toNat

theorem Timespec.ticks_inj {first second : Timespec} :
    first.ticks = second.ticks ↔ first = second := by
  refine ⟨?_, fun heq => heq ▸ rfl⟩
  intro heq
  have hfirst := first.nsecLt
  have hsecond := second.nsecLt
  unfold Timespec.ticks at heq
  have hsec : first.tvSec = second.tvSec := by
    apply BitVec.eq_of_toNat_eq
    omega
  have hnsec : first.tvNsec = second.tvNsec := by
    apply BitVec.eq_of_toNat_eq
    omega
  cases first
  cases second
  simp_all

def timeCompare (first second : Timespec) : ℤ :=
  compareLevels
    [difference64 first.tvSec second.tvSec,
      difference64 first.tvNsec second.tvNsec]

theorem timeCompare_spec (first second : Timespec) :
    (first.ticks < second.ticks → timeCompare first second < 0) ∧
      (second.ticks < first.ticks → 0 < timeCompare first second) := by
  have hsec := difference64_eq_sub first.secLt second.secLt
  have hnsec : difference64 first.tvNsec second.tvNsec =
      (first.tvNsec.toNat : ℤ) - second.tvNsec.toNat :=
    difference64_eq_sub (first.nsecLt.trans (by norm_num))
      (second.nsecLt.trans (by norm_num))
  have hfirst := first.nsecLt
  have hsecond := second.nsecLt
  unfold Timespec.ticks timeCompare compareLevels compareLevels compareLevels
  rw [hsec, hnsec]
  constructor
  · intro hlt
    split_ifs <;> omega
  · intro hlt
    split_ifs <;> omega

theorem timeCompare_eq_zero_iff (first second : Timespec) :
    timeCompare first second = 0 ↔ first = second := by
  unfold timeCompare
  rw [compareLevels_eq_zero_iff]
  cases first
  cases second
  simp [difference64_eq_zero_iff]

def LruCacheRecord.rank (record : LruCacheRecord) : ℕ := record.timeStamp.ticks

theorem timeCompare_descentAgrees (time : Timespec) (tree : RbTree LruCacheRecord) :
    DescentAgrees (fun record => timeCompare time record.timeStamp)
      LruCacheRecord.rank time.ticks tree :=
  descentAgrees_of_forall fun record _ => timeCompare_spec time record.timeStamp

/-! ## Keys of the scan tree -/

/-- The lexicographic position of a device and an inode number. -/
def keyRank (devId : BitVec 32) (inodeNumber : BitVec 64) : ℕ :=
  devId.toNat * 2 ^ 64 + inodeNumber.toNat

def FileInfo.rank (filp : FileInfo) : ℕ := keyRank filp.devId filp.inodeNumber

def ScanCacheRecord.rank (record : ScanCacheRecord) : ℕ :=
  keyRank record.devId record.inodeNumber

/-- `scan_cache_insert_compare_table` reads only these two fields of its first
argument. -/
def keyCompare (devId : BitVec 32) (inodeNumber : BitVec 64)
    (record : ScanCacheRecord) : ℤ :=
  compareLevels
    [difference32 devId record.devId,
      difference64 inodeNumber record.inodeNumber]

theorem keyRank_inj
    {devId otherDev : BitVec 32} {inodeNumber otherInode : BitVec 64} :
    keyRank devId inodeNumber = keyRank otherDev otherInode ↔
      devId = otherDev ∧ inodeNumber = otherInode := by
  unfold keyRank
  constructor
  · intro heq
    have hfirst := inodeNumber.isLt
    have hsecond := otherInode.isLt
    constructor
    · apply BitVec.eq_of_toNat_eq
      omega
    · apply BitVec.eq_of_toNat_eq
      omega
  · rintro ⟨rfl, rfl⟩
    rfl

theorem keyCompare_eq_zero_iff
    (devId : BitVec 32) (inodeNumber : BitVec 64) (record : ScanCacheRecord) :
    keyCompare devId inodeNumber record = 0 ↔
      record.devId = devId ∧ record.inodeNumber = inodeNumber := by
  unfold keyCompare
  rw [compareLevels_eq_zero_iff]
  simp only [List.mem_cons, List.not_mem_nil, or_false, forall_eq_or_imp,
    forall_eq, difference32_eq_zero_iff, difference64_eq_zero_iff]
  exact and_congr eq_comm eq_comm

theorem scanCacheFindCompareTable_eq_zero_iff
    (key : ScanCacheRecordCompare) (record : ScanCacheRecord) :
    scanCacheFindCompareTable key record = 0 ↔
      record.devId = key.devId ∧ record.inodeNumber = key.inodeNumber ∧
        record.inodeGeneration = key.inodeGeneration := by
  unfold scanCacheFindCompareTable
  rw [compareLevels_eq_zero_iff]
  simp only [List.mem_cons, List.not_mem_nil, or_false, forall_eq_or_imp,
    forall_eq, difference32_eq_zero_iff, difference64_eq_zero_iff]
  exact and_congr eq_comm (and_congr eq_comm eq_comm)

/-- Away from the key itself the two tables of the scan tree take the same
side. -/
theorem scanCacheFindCompareTable_eq_keyCompare
    (key : ScanCacheRecordCompare) (record : ScanCacheRecord)
    (hne : keyCompare key.devId key.inodeNumber record ≠ 0) :
    scanCacheFindCompareTable key record =
      keyCompare key.devId key.inodeNumber record := by
  unfold keyCompare scanCacheFindCompareTable at *
  unfold compareLevels compareLevels at *
  split_ifs with hdev hdevNeg hino hinoNeg
  · rfl
  · rfl
  · rfl
  · rfl
  · exact absurd (by simp [hdev, hdevNeg, hino, hinoNeg, compareLevels]) hne

/-- The two tables agree with the rank along the same descents. -/
theorem find_descentAgrees
    (key : ScanCacheRecordCompare) {tree : RbTree ScanCacheRecord}
    (hagree : DescentAgrees (keyCompare key.devId key.inodeNumber)
      ScanCacheRecord.rank (keyRank key.devId key.inodeNumber) tree) :
    DescentAgrees (scanCacheFindCompareTable key)
      ScanCacheRecord.rank (keyRank key.devId key.inodeNumber) tree := by
  induction tree with
  | nil => trivial
  | node color left record right ihleft ihright =>
      constructor
      · intro hlt
        obtain ⟨hneg, hdeeper⟩ := hagree.1 hlt
        exact ⟨by rwa [scanCacheFindCompareTable_eq_keyCompare _ _ hneg.ne],
          ihleft hdeeper⟩
      · intro hlt
        obtain ⟨hpos, hdeeper⟩ := hagree.2 hlt
        exact ⟨by rwa [scanCacheFindCompareTable_eq_keyCompare _ _ hpos.ne'],
          ihright hdeeper⟩

/-! ## The domain on which the scan tree is ordered -/

/-- Files of one device with inode numbers below `2 ^ 63`. -/
def InDomain (domain devId : BitVec 32) (inodeNumber : BitVec 64) : Prop :=
  devId = domain ∧ inodeNumber.toNat < 2 ^ 63

instance (domain devId : BitVec 32) (inodeNumber : BitVec 64) :
    Decidable (InDomain domain devId inodeNumber) :=
  inferInstanceAs (Decidable (_ ∧ _))

theorem keyCompare_spec_of_inDomain
    {domain devId : BitVec 32} {inodeNumber : BitVec 64}
    {record : ScanCacheRecord}
    (hkey : InDomain domain devId inodeNumber)
    (hrecord : InDomain domain record.devId record.inodeNumber) :
    (keyRank devId inodeNumber < record.rank →
        keyCompare devId inodeNumber record < 0) ∧
      (record.rank < keyRank devId inodeNumber →
        0 < keyCompare devId inodeNumber record) := by
  have hdev : difference32 devId record.devId = 0 := by
    rw [difference32_eq_zero_iff, hkey.1, hrecord.1]
  have hino := difference64_eq_sub hkey.2 hrecord.2
  unfold ScanCacheRecord.rank keyRank keyCompare
  rw [hdev, compareLevels_of_zero, hkey.1, hrecord.1]
  unfold compareLevels compareLevels
  rw [hino]
  constructor
  · intro hlt
    split_ifs <;> omega
  · intro hlt
    split_ifs <;> omega

theorem keyCompare_descentAgrees
    {domain devId : BitVec 32} {inodeNumber : BitVec 64}
    {tree : RbTree ScanCacheRecord}
    (hkey : InDomain domain devId inodeNumber)
    (htree : ∀ record ∈ tree.inorder,
      InDomain domain record.devId record.inodeNumber) :
    DescentAgrees (keyCompare devId inodeNumber) ScanCacheRecord.rank
      (keyRank devId inodeNumber) tree :=
  descentAgrees_of_forall fun record hrecord =>
    keyCompare_spec_of_inDomain hkey (htree record hrecord)

end LinuxKernelCode.ScanCache
