import Mathlib.Data.List.Basic
import Mathlib.Data.BitVec
import Mathlib.Tactic

/-!
# Comparing machine words by a signed difference

Words of a fixed width are often compared by the sign of their difference,
computed modulo `2 ^ w` and reread as signed.  The words then sit on a circle,
and this is an order only as long as they keep to one half of it.  For a list
of words the two are shown to be equivalent: the signs of the differences obey
the laws of an order exactly when some half circle contains every word.
-/

namespace LinuxKernelCode.SignedDifference

variable {w : ℕ}

/-- The laws of an order, for the words of a list. -/
structure SignOrder (words : List (BitVec w)) : Prop where
  swap : ∀ first ∈ words, ∀ second ∈ words,
    (first - second).toInt < 0 → 0 < (second - first).toInt
  trans : ∀ first ∈ words, ∀ second ∈ words, ∀ third ∈ words,
    (first - second).toInt < 0 → (second - third).toInt < 0 →
      (first - third).toInt < 0

/-- Every word lies on the half circle that starts at `base`. -/
def HalfCircle (base : BitVec w) (words : List (BitVec w)) : Prop :=
  ∀ word ∈ words, 2 * (word - base).toNat < 2 ^ w

theorem toInt_sub_eq_zero_iff (first second : BitVec w) :
    (first - second).toInt = 0 ↔ first = second := by
  have hinj := BitVec.toInt_inj (x := first - second) (y := 0#w)
  rw [BitVec.toInt_zero] at hinj
  rw [hinj]
  exact sub_eq_zero

theorem toInt_sub_neg_of_pos
    {first second : BitVec w} (hpos : 0 < (first - second).toInt) :
    (second - first).toInt < 0 := by
  have hneg : second - first = -(first - second) := (neg_sub first second).symm
  have hlt := BitVec.two_mul_toInt_lt (x := first - second)
  rw [hneg, BitVec.toInt_neg, Int.bmod_eq_of_le_mul_two]
  · omega
  · push_cast
    omega
  · push_cast
    omega

theorem toInt_nonneg_iff (word : BitVec w) :
    0 ≤ word.toInt ↔ 2 * word.toNat < 2 ^ w := by
  have hlt := word.isLt
  rw [BitVec.toInt_eq_toNat_cond]
  split_ifs with hhalf
  · simp [hhalf]
  · simp only [hhalf, iff_false, not_le, sub_neg]
    exact_mod_cast hlt

/-- Within one half circle the signed difference is the difference of the
distances from its start. -/
theorem HalfCircle.toInt_sub
    {base : BitVec w} {words : List (BitVec w)} (hhalf : HalfCircle base words)
    {first second : BitVec w} (hfirst : first ∈ words) (hsecond : second ∈ words) :
    (first - second).toInt =
      ((first - base).toNat : ℤ) - ((second - base).toNat : ℤ) := by
  have hfirstLt := hhalf first hfirst
  have hsecondLt := hhalf second hsecond
  have hshift : first - second = (first - base) - (second - base) :=
    (sub_sub_sub_cancel_right first second base).symm
  rw [hshift, BitVec.toInt_sub, BitVec.toInt_eq_toNat_of_lt hfirstLt,
    BitVec.toInt_eq_toNat_of_lt hsecondLt]
  zify at hfirstLt hsecondLt
  apply Int.bmod_eq_of_le_mul_two
  · push_cast
    omega
  · push_cast
    omega

theorem HalfCircle.signOrder
    {base : BitVec w} {words : List (BitVec w)} (hhalf : HalfCircle base words) :
    SignOrder words := by
  constructor
  · intro first hfirst second hsecond hlt
    rw [hhalf.toInt_sub hfirst hsecond] at hlt
    rw [hhalf.toInt_sub hsecond hfirst]
    omega
  · intro first hfirst second hsecond third hthird hlt hlt'
    rw [hhalf.toInt_sub hfirst hsecond] at hlt
    rw [hhalf.toInt_sub hsecond hthird] at hlt'
    rw [hhalf.toInt_sub hfirst hthird]
    omega

theorem SignOrder.tail
    {word : BitVec w} {words : List (BitVec w)}
    (horder : SignOrder (word :: words)) : SignOrder words := by
  constructor
  · intro first hfirst second hsecond
    exact horder.swap first (by simp [hfirst]) second (by simp [hsecond])
  · intro first hfirst second hsecond third hthird
    exact horder.trans first (by simp [hfirst]) second (by simp [hsecond])
      third (by simp [hthird])

theorem SignOrder.le_trans
    {words : List (BitVec w)} (horder : SignOrder words)
    {first second third : BitVec w} (hfirst : first ∈ words)
    (hsecond : second ∈ words) (hthird : third ∈ words)
    (hle : (first - second).toInt ≤ 0) (hle' : (second - third).toInt ≤ 0) :
    (first - third).toInt ≤ 0 := by
  rcases hle.eq_or_lt with heq | hlt
  · rw [(toInt_sub_eq_zero_iff first second).mp heq]
    exact hle'
  · rcases hle'.eq_or_lt with heq | hlt'
    · rw [← (toInt_sub_eq_zero_iff second third).mp heq]
      exact hle
    · exact (horder.trans first hfirst second hsecond third hthird hlt hlt').le

theorem SignOrder.sign_sub
    {words : List (BitVec w)} (horder : SignOrder words)
    {first second : BitVec w} (hfirst : first ∈ words) (hsecond : second ∈ words) :
    (first - second).toInt.sign = -(second - first).toInt.sign := by
  rcases lt_trichotomy (first - second).toInt 0 with hneg | hzero | hpos
  · have hback := horder.swap first hfirst second hsecond hneg
    rw [Int.sign_eq_neg_one_of_neg hneg, Int.sign_eq_one_of_pos hback]
  · rw [(toInt_sub_eq_zero_iff first second).mp hzero]
    simp
  · have hback := toInt_sub_neg_of_pos hpos
    rw [Int.sign_eq_one_of_pos hpos, Int.sign_eq_neg_one_of_neg hback]
    rfl

theorem SignOrder.exists_least
    {words : List (BitVec w)} (horder : SignOrder words) (hne : words ≠ []) :
    ∃ least ∈ words, ∀ word ∈ words, (least - word).toInt ≤ 0 := by
  induction words with
  | nil => contradiction
  | cons head words ih =>
      have hself : (head - head).toInt ≤ 0 :=
        ((toInt_sub_eq_zero_iff head head).mpr rfl).le
      by_cases hempty : words = []
      · subst words
        exact ⟨head, by simp, by simp⟩
      · obtain ⟨least, hleast, hbelow⟩ := ih horder.tail hempty
        by_cases hle : (head - least).toInt ≤ 0
        · refine ⟨head, by simp, ?_⟩
          intro word hword
          rcases List.mem_cons.mp hword with heq | hmem
          · rw [heq]
            exact hself
          · exact horder.le_trans (by simp) (by simp [hleast]) (by simp [hmem])
              hle (hbelow word hmem)
        · refine ⟨least, by simp [hleast], ?_⟩
          intro word hword
          rcases List.mem_cons.mp hword with heq | hmem
          · rw [heq]
            exact (toInt_sub_neg_of_pos (not_le.mp hle)).le
          · exact hbelow word hmem

/-- The half circle starts at the least word. -/
theorem SignOrder.exists_halfCircle
    {words : List (BitVec w)} (horder : SignOrder words) :
    ∃ base, HalfCircle base words := by
  by_cases hempty : words = []
  · subst words
    exact ⟨0, by simp [HalfCircle]⟩
  · obtain ⟨least, hleast, hbelow⟩ := horder.exists_least hempty
    refine ⟨least, ?_⟩
    intro word hword
    rw [← toInt_nonneg_iff]
    rcases (hbelow word hword).eq_or_lt with heq | hlt
    · have hsame := (toInt_sub_eq_zero_iff least word).mp heq
      rw [hsame]
      exact ((toInt_sub_eq_zero_iff word word).mpr rfl).ge
    · exact (horder.swap least hleast word hword hlt).le

theorem signOrder_iff (words : List (BitVec w)) :
    SignOrder words ↔ ∃ base, HalfCircle base words := by
  constructor
  · exact SignOrder.exists_halfCircle
  · rintro ⟨base, hhalf⟩
    exact hhalf.signOrder

end LinuxKernelCode.SignedDifference
