import LinuxKernelCode.ProcfsLong

/-!
# Writing a long and reading it back

The older pair of functions carries every `long` through its decimal text.
The newer pair does so only for the texts that pass its length check: the size
it checks against is that of the pointer to its buffer and not that of the
buffer, which leaves seven characters.
-/

namespace LinuxKernelCode.Procfs

open DecimalText

inductive KernelVersion where
  | since310
  | before310
  deriving DecidableEq, Repr

/-- `MAX_RW_COUNT`, the largest count that the kernel passes to a read. -/
def maxRwCount : ℕ := 2147479552

/-- The decimal text of the number is written, and then read from the start of
the file.  The text stands at the front of the user's buffer, and, for a count
that a read can be called with, at the front of what the read returned. -/
def Since310.RoundTrip (value : BitVec 64) : Prop :=
  ∀ (old : BitVec 64) (userbuf : ℕ → Char),
    bytes userbuf (decimal value.toInt).length = decimal value.toInt →
    let count := BitVec.ofNat 64 (decimal value.toInt).length
    let written := procfsWriteLong old userbuf count .succeeding
    written.ret = count ∧ written.longVal = value ∧
      ∀ (target : ℕ → Char) (asked : BitVec 64), 32 ≤ asked.toNat →
        let outcome :=
          procfsReadLong ⟨written.longVal, 0, 0⟩ target asked .succeeding
        text value <+: bytes outcome.userbuf asked.toNat ∧
          (asked.toNat ≤ maxRwCount →
            outcome.ret = asked ∧ text value <+: outcome.returned)

def Before310.RoundTrip (value : BitVec 64) : Prop :=
  ∀ (old : BitVec 64) (buffer : ℕ → Char),
    bytes buffer (decimal value.toInt).length = decimal value.toInt →
    let count := BitVec.ofNat 64 (decimal value.toInt).length
    let written := procfsWriteLong old buffer count 0
    written.ret = count ∧ written.longVal = value ∧
      ∀ (page : List Char) (asked : BitVec 32) (eof : Bool),
        32 ≤ asked.toInt →
        text value <+:
          (procfsReadLong page 0 asked eof written.longVal).delivered

def RoundTrip : KernelVersion → BitVec 64 → Prop
  | .since310 => Since310.RoundTrip
  | .before310 => Before310.RoundTrip

/-! ## Words and buffers -/

/-- A word in the range of an `int` survives the passage through one. -/
theorem ofInt_eq_self
    {word : BitVec 64} (hlower : -2147483648 ≤ word.toInt)
    (hupper : word.toInt < 2147483648) : ofInt word = word := by
  apply BitVec.eq_of_toInt_eq
  rw [ofInt, BitVec.truncate_eq_setWidth,
    BitVec.toInt_signExtend_of_le (by decide), BitVec.toInt_setWidth]
  have hword := BitVec.toInt_eq_toNat_bmod word
  have hsmall : word.toInt.bmod (2 ^ 32) = (word.toNat : ℤ).bmod (2 ^ 32) := by
    rw [hword]
    exact Int.bmod_bmod_of_dvd (by decide)
  rw [← hsmall]
  exact Int.bmod_eq_of_le (by norm_num; omega) (by norm_num; omega)

theorem ofInt_ofNat {count : ℕ} (hcount : count < 2147483648) :
    ofInt (BitVec.ofNat 64 count) = BitVec.ofNat 64 count := by
  have hvalue : (BitVec.ofNat 64 count).toInt = count := by
    rw [BitVec.toInt_eq_toNat_of_lt] <;> simp <;> omega
  apply ofInt_eq_self <;> rw [hvalue] <;> omega

theorem bytes_getD (data : List Char) :
    bytes (fun index => data.getD index nul) data.length = data := by
  apply List.ext_getElem
  · simp [bytes]
  · intro index _ hindex
    simp [bytes, hindex]

theorem prefix_bytes
    {data : List Char} {userbuf : ℕ → Char} {count : ℕ}
    (hlength : data.length ≤ count)
    (hsame : ∀ index (hindex : index < data.length),
      userbuf index = data.get ⟨index, hindex⟩) :
    data <+: bytes userbuf count := by
  rw [List.prefix_iff_getElem]
  refine ⟨by simpa [bytes] using hlength, ?_⟩
  intro index hindex
  simp [bytes, hsame index hindex]

theorem length_text (value : BitVec 64) :
    (text value).length = (decimal value.toInt).length + 1 := by
  simp [text]

/-! ## The newer pair -/

namespace Since310

/-- The buffer holds the whole text unless the text has 21 characters. -/
theorem printed_get
    {value : BitVec 64} (hlength : (decimal value.toInt).length ≤ 19)
    {index : ℕ} (hindex : index < (text value).length) :
    (printed value).getD index nul = (text value).get ⟨index, hindex⟩ := by
  have hshort : (text value).length ≤ longBufLen - 1 := by
    rw [length_text, longBufLen]
    omega
  simp [printed, snprintf, List.take_of_length_le hshort,
    List.getElem?_append_left hindex, List.getElem?_eq_getElem hindex]

theorem procfsReadLong_userbuf
    {value asked : BitVec 64} (target : ℕ → Char)
    (hlength : (decimal value.toInt).length ≤ 19)
    (hasked : 32 ≤ asked.toNat) :
    text value <+:
      bytes (copyToUser target (printed value) 0) asked.toNat := by
  have htext := length_text value
  apply prefix_bytes
  · omega
  · intro index hindex
    have hinside : index < (printed value).length := by
      rw [length_printed, longBufLen]
      omega
    simp only [copyToUser, Nat.sub_zero, hinside, if_true]
    exact printed_get hlength hindex

theorem procfsReadLong_returned
    {value asked : BitVec 64} (target : ℕ → Char)
    (hlength : (decimal value.toInt).length ≤ 19)
    (hasked : 32 ≤ asked.toNat) :
    let outcome := procfsReadLong ⟨value, 0, 0⟩ target asked .succeeding
    text value <+: bytes outcome.userbuf asked.toNat ∧
      (asked.toNat ≤ maxRwCount →
        outcome.ret = asked ∧ text value <+: outcome.returned) := by
  have hposition : ¬ asked ≤ (⟨value, 0, 0⟩ : OpenFile).ppos := by
    rw [BitVec.le_def]
    simp
    omega
  have huserbuf := procfsReadLong_userbuf target hlength hasked
  rw [procfsReadLong_succeeding hposition]
  refine ⟨huserbuf, ?_⟩
  intro hcount
  unfold maxRwCount at hcount
  have hint : asked.toInt = asked.toNat :=
    BitVec.toInt_eq_toNat_of_lt (by omega)
  have hret : ofInt asked = asked := by
    apply ofInt_eq_self <;> omega
  refine ⟨hret, ?_⟩
  simp only [ReadOutcome.returned, hret, hint, Int.toNat_natCast]
  exact huserbuf

theorem roundTrip_of_length
    {value : BitVec 64} (hlength : (decimal value.toInt).length ≤ 7) :
    RoundTrip value := by
  intro old userbuf hbuffer count written
  have hrange := (length_decimal_le_iff (by decide)).mp hlength
  norm_num at hrange
  have hcount : count.toNat = (decimal value.toInt).length := by
    simp only [count, BitVec.toNat_ofNat]
    omega
  have hwritten : written = ⟨count, value⟩ := by
    have hfits : ¬ sizeofPointer - 1 < count.toNat := by
      rw [hcount, sizeofPointer]
      omega
    have hret : ofInt count = count := ofInt_ofNat (by omega)
    have hparsed : ((simpleStrtol
        (bytes userbuf count.toNat ++ [nul])).truncate 32).signExtend 64 =
          value := by
      rw [hcount, hbuffer, simpleStrtol_decimal]
      exact ofInt_eq_self (by omega) (by omega)
    simp only [written, procfsWriteLong, Answers.succeeding, if_true, hfits,
      if_false, ne_eq, not_true_eq_false, hret, hparsed]
  rw [hwritten]
  refine ⟨rfl, rfl, ?_⟩
  intro target asked hasked
  exact procfsReadLong_returned target (Nat.le_trans hlength (by omega)) hasked

theorem not_roundTrip_of_length
    {value : BitVec 64} (hlength : 7 < (decimal value.toInt).length) :
    ¬ RoundTrip value := by
  intro hround
  obtain ⟨hret, _⟩ := hround 0 _ (bytes_getD (decimal value.toInt))
  have hbound := length_decimal_word value
  have hcount : (BitVec.ofNat 64 (decimal value.toInt).length).toNat =
      (decimal value.toInt).length := by
    simp only [BitVec.toNat_ofNat]
    omega
  have hrefused : sizeofPointer - 1 <
      (BitVec.ofNat 64 (decimal value.toInt).length).toNat := by
    rw [hcount, sizeofPointer]
    omega
  simp only [procfsWriteLong, Answers.succeeding, if_true, hrefused] at hret
  have := congrArg BitVec.toNat hret
  rw [hcount] at this
  simp [einval] at this
  omega

end Since310

/-! ## The older pair -/

namespace Before310

theorem procfsReadLong_delivered
    (value : BitVec 64) (page : List Char) (asked : BitVec 32) (eof : Bool) :
    (procfsReadLong page 0 asked eof value).delivered = text value := by
  have hlength := length_decimal_word value
  have htext := length_text value
  have hret : (procfsReadLong page 0 asked eof value).ret =
      BitVec.ofNat 32 (text value).length := by
    have hmsb : (BitVec.ofNat 32 (text value).length).msb = false := by
      rw [BitVec.msb_eq_decide]
      simp
      omega
    have hremaining :
        ((BitVec.ofNat 32 (text value).length).signExtend 64 - 0).truncate 32 =
          BitVec.ofNat 32 (text value).length := by
      rw [BitVec.signExtend_eq_setWidth_of_msb_false hmsb]
      simp
    simp only [procfsReadLong, snprintf, hremaining]
    rw [if_neg]
    simp [BitVec.slt_zero_eq_msb, hmsb]
  have hcount : (BitVec.ofNat 32 (text value).length).toNat =
      (text value).length := by
    simp only [BitVec.toNat_ofNat]
    omega
  rw [ReadOutcome.delivered, hret, hcount]
  have hwhole : (text value).take (pageSize - 1) = text value :=
    List.take_of_length_le (by rw [pageSize]; omega)
  simp [procfsReadLong, snprintf, hwhole]

theorem roundTrip (value : BitVec 64) : RoundTrip value := by
  intro old buffer hbuffer count written
  have hlength := length_decimal_word value
  have hcount : count.toNat = (decimal value.toInt).length := by
    simp only [count, BitVec.toNat_ofNat]
    omega
  have hwritten : written = ⟨count, value⟩ := by
    have hfits : ¬ longBufLen - 1 < count.toNat := by
      rw [hcount, longBufLen]
      omega
    have hret : ofInt count = count := ofInt_ofNat (by omega)
    have hparsed :
        simpleStrtol (bytes buffer count.toNat ++ [nul]) = value := by
      rw [hcount, hbuffer, simpleStrtol_decimal]
    simp only [written, procfsWriteLong, hfits, if_false, ne_eq,
      not_true_eq_false, hret, hparsed]
  rw [hwritten]
  refine ⟨rfl, rfl, ?_⟩
  intro page asked eof _
  have hdelivered := procfsReadLong_delivered value page asked eof
  simp only [hdelivered, List.prefix_rfl]

end Before310

/-- The older functions carry every number; the newer ones exactly those whose
text has at most seven characters. -/
theorem roundTrip_iff (version : KernelVersion) (value : BitVec 64) :
    RoundTrip version value ↔
      version = .before310 ∨
        -999999 ≤ value.toInt ∧ value.toInt ≤ 9999999 := by
  cases version with
  | before310 => exact iff_of_true (Before310.roundTrip value) (Or.inl rfl)
  | since310 =>
      have hrange : (decimal value.toInt).length ≤ 7 ↔
          -999999 ≤ value.toInt ∧ value.toInt ≤ 9999999 := by
        rw [length_decimal_le_iff (by decide)]
        norm_num
        omega
      simp only [reduceCtorEq, false_or]
      rw [← hrange]
      constructor
      · intro hround
        by_contra hlength
        exact Since310.not_roundTrip_of_length (by omega) hround
      · exact Since310.roundTrip_of_length

/-- Eight characters are refused. -/
theorem roundTrip_refused : ¬ RoundTrip .since310 10000000 :=
  Since310.not_roundTrip_of_length (by decide)

end LinuxKernelCode.Procfs
