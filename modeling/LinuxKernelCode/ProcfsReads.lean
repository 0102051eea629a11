import LinuxKernelCode.ProcfsLong

/-!
# Reading a long in pieces

A file is read in pieces when every call returns at most what it was asked
for, touches nothing behind that, and the pieces put together are the text of
the number.  The newer `procfs_read_long` copies 21 bytes on every call that
is not at the end of the file, the last of them a zero.  Either that zero lies
behind what the call returned, or it is one of the bytes returned; so not even
one call reads the file in pieces.

A failing copy is answered with zero, and the buffer is not released.
-/

namespace LinuxKernelCode.Procfs.Since310

open DecimalText

structure ReadCall where
  count : BitVec 64
  userbuf : ℕ → Char

/-- The answer is between zero and the count, and nothing behind the bytes
returned is modified. -/
structure ReadCall.Bounded (call : ReadCall) (outcome : ReadOutcome) :
    Prop where
  nonneg : 0 ≤ outcome.ret.toInt
  le_count : outcome.ret.toInt ≤ call.count.toNat
  untouched : ∀ index : ℕ, outcome.ret.toInt ≤ index →
    outcome.userbuf index = call.userbuf index

/-- What has been read so far is a piece of the text from its start on; it is
the whole text, and the next call returns nothing, once enough was asked for. -/
def ReadInPieces (whole : List Char) :
    OpenFile → List Char → ℕ → List ReadCall → Prop
  | _, given, asked, [] =>
      given <+: whole ∧ (whole.length ≤ asked → given = whole)
  | file, given, asked, call :: rest =>
      let outcome := procfsReadLong file call.userbuf call.count .succeeding
      given <+: whole ∧
        (whole.length ≤ asked → given = whole ∧ outcome.ret = 0) ∧
        call.Bounded outcome ∧
        ReadInPieces whole outcome.file (given ++ outcome.returned)
          (asked + call.count.toNat) rest

/-- Calls with the given counts, into buffers of any contents. -/
def ReadsInPieces (longVal : BitVec 64) (counts : List (BitVec 64)) : Prop :=
  ∀ calls : List ReadCall, calls.map ReadCall.count = counts →
    ReadInPieces (text longVal) ⟨longVal, 0, 0⟩ [] 0 calls

/-- A call whose copy fails returns an error, and leaves the position and the
allocated buffers as they were.  A call at the end of the file copies
nothing. -/
def FailsCleanly (file : OpenFile) (count : BitVec 64) : Prop :=
  ∀ (userbuf : ℕ → Char) (uncopied : ℕ),
    0 < uncopied → uncopied ≤ longBufLen → ¬ count ≤ file.ppos →
    let outcome := procfsReadLong file userbuf count ⟨true, uncopied⟩
    outcome.ret.toInt < 0 ∧ outcome.file = file

/-! ## The zero at the end of the buffer -/

theorem nul_notMem_text (longVal : BitVec 64) : nul ∉ text longVal := by
  rw [text, List.mem_append, not_or]
  exact ⟨nul_notMem_decimal longVal.toInt, by decide⟩

theorem printed_last (longVal : BitVec 64) :
    (printed longVal).getD 20 nul = nul := by
  simp only [printed, snprintf, List.append_assoc, longBufLen]
  have hlength : ((text longVal).take (21 - 1)).length ≤ 20 :=
    List.length_take_le 20 (text longVal)
  rw [List.getD_eq_getElem?_getD, List.getElem?_append_right hlength]
  cases hlast : ([nul] ++ List.drop
      ((text longVal).take (21 - 1) ++ [nul]).length
      (List.replicate 21 nul))[20 - ((text longVal).take (21 - 1)).length]? with
  | none => rfl
  | some last =>
      have hmem := List.mem_of_getElem? hlast
      simp only [List.mem_append, List.mem_singleton] at hmem
      rcases hmem with hnul | hpadding
      · exact hnul
      · exact List.eq_of_mem_replicate (List.mem_of_mem_drop hpadding)

theorem copyToUser_last (userbuf : ℕ → Char) (longVal : BitVec 64) :
    copyToUser userbuf (printed longVal) 0 20 = nul := by
  simp only [copyToUser, length_printed, longBufLen, Nat.sub_zero]
  exact printed_last longVal

theorem ReadInPieces.given
    {whole given : List Char} {file : OpenFile} {asked : ℕ}
    {calls : List ReadCall} (hread : ReadInPieces whole file given asked calls) :
    given <+: whole := by
  cases calls with
  | nil => exact hread.1
  | cons call rest => exact hread.1

theorem not_readsInPieces
    (longVal : BitVec 64) {count : BitVec 64} {counts : List (BitVec 64)}
    (hcount : 0 < count) : ¬ ReadsInPieces longVal (count :: counts) := by
  intro hreads
  have hread := hreads ((count :: counts).map fun asked => ⟨asked, fun _ => 'x'⟩)
    (by simp [Function.comp_def])
  obtain ⟨_, _, hbounded, hrest⟩ := hread
  have hposition : ¬ count ≤ (⟨longVal, 0, 0⟩ : OpenFile).ppos :=
    BitVec.not_le.mpr hcount
  rw [procfsReadLong_succeeding hposition] at hbounded hrest
  obtain ⟨_, _, huntouched⟩ := hbounded
  have hlast := copyToUser_last (fun _ => 'x') longVal
  by_cases hret : (ofInt count).toInt ≤ 20
  · have hsame := huntouched 20 hret
    simp only [hlast] at hsame
    exact absurd hsame (by decide)
  · have hmem : nul ∈ bytes (copyToUser (fun _ => 'x') (printed longVal) 0)
        (ofInt count).toInt.toNat := by
      rw [bytes, List.mem_map]
      exact ⟨20, by rw [List.mem_range]; omega, hlast⟩
    exact nul_notMem_text longVal (hrest.given.subset hmem)

/-! ## Failing copies -/

theorem failsCleanly_iff (file : OpenFile) (count : BitVec 64) :
    FailsCleanly file count ↔ count ≤ file.ppos := by
  constructor
  · intro hclean
    by_contra hposition
    have hfailed := hclean (fun _ => 'x') 1 (by decide) (by decide) hposition
    simp [procfsReadLong, hposition] at hfailed
  · intro hposition _ _ _ _ hreached
    exact absurd hposition hreached

/-- Reads in pieces are met by no call at all, and clean failures only by the
calls that copy nothing. -/
theorem procfsReadLong_pieces_iff
    (longVal : BitVec 64) {counts : List (BitVec 64)}
    (hcounts : ∀ count ∈ counts, 0 < count) :
    (ReadsInPieces longVal counts ↔ counts = []) ∧
      ∀ (file : OpenFile) (count : BitVec 64),
        FailsCleanly file count ↔ count ≤ file.ppos := by
  refine ⟨?_, failsCleanly_iff⟩
  cases counts with
  | nil =>
      refine iff_of_true ?_ rfl
      intro calls hcalls
      obtain rfl := List.map_eq_nil_iff.mp hcalls
      exact ⟨List.nil_prefix, fun hempty => absurd hempty (by simp [text])⟩
  | cons count rest =>
      exact iff_of_false (not_readsInPieces longVal (hcounts count (by simp)))
        (by simp)

theorem procfsReadLong_pieces_iff_two_calls :
    (∀ count ∈ ([8, 32] : List (BitVec 64)), 0 < count) ∧
      (ReadsInPieces 5 [8, 32] ↔ ([8, 32] : List (BitVec 64)) = []) :=
  ⟨by simp, (procfsReadLong_pieces_iff 5 (by simp)).1⟩

/-- One read of 32 bytes returns the padding after the text, and a failing
copy is not reported. -/
theorem procfsReadLong_returns_padding :
    ¬ ReadsInPieces 5 [32] ∧ ¬ FailsCleanly ⟨5, 0, 0⟩ 32 := by
  refine ⟨not_readsInPieces 5 (by decide), ?_⟩
  rw [failsCleanly_iff]
  decide

end LinuxKernelCode.Procfs.Since310
