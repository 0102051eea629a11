import Mathlib.Data.List.Basic
import Mathlib.Data.Nat.Digits.Defs
import Mathlib.Tactic.Ring

/-!
# Streams of records that carry their own length

A buffer is filled with records one behind another.  Each record starts with a
header of fixed width, and a field of the header says how long the record is.
The reader goes from record to record by that field and stops as soon as the
rest is too short for a header, or the field is shorter than a header or longer
than the rest.

What the reader finds is determined by the buffer: it is the only way to cut
the buffer into records of the right lengths and a rest at which it stops.
-/

namespace LinuxKernelCode.RecordStream

abbrev Byte := BitVec 8

/-! ## Little-endian fields -/

def fromBytes : List Byte → ℕ
  | [] => 0
  | byte :: rest => byte.toNat + 256 * fromBytes rest

def toBytes : ℕ → ℕ → List Byte
  | 0, _ => []
  | width + 1, value => BitVec.ofNat 8 value :: toBytes width (value / 256)

@[simp] theorem length_toBytes (width value : ℕ) :
    (toBytes width value).length = width := by
  induction width generalizing value with
  | zero => rfl
  | succ width ih => simp [toBytes, ih]

theorem fromBytes_toBytes (width value : ℕ) :
    fromBytes (toBytes width value) = value % 256 ^ width := by
  induction width generalizing value with
  | zero => simp [toBytes, fromBytes, Nat.mod_one]
  | succ width ih =>
      have hsplit : value % 256 ^ (width + 1) =
          value % 256 + 256 * (value / 256 % 256 ^ width) := by
        rw [pow_succ', Nat.mod_mul]
      simp only [toBytes, fromBytes, ih, BitVec.toNat_ofNat, hsplit]

theorem toBytes_fromBytes (bytes : List Byte) :
    toBytes bytes.length (fromBytes bytes) = bytes := by
  induction bytes with
  | nil => rfl
  | cons byte rest ih =>
      have hlow : BitVec.ofNat 8 (byte.toNat + 256 * fromBytes rest) = byte := by
        apply BitVec.eq_of_toNat_eq
        have hbyte := byte.isLt
        rw [BitVec.toNat_ofNat]
        omega
      have hhigh : (byte.toNat + 256 * fromBytes rest) / 256 =
          fromBytes rest := by
        have hbyte := byte.isLt
        omega
      simp only [List.length_cons, toBytes, fromBytes, hlow, hhigh, ih]

theorem fromBytes_lt (bytes : List Byte) :
    fromBytes bytes < 256 ^ bytes.length := by
  induction bytes with
  | nil => simp [fromBytes]
  | cons byte rest ih =>
      have hbyte := byte.isLt
      rw [fromBytes, List.length_cons, pow_succ']
      omega

/-- The field of the given width at an offset. -/
def field (offset width : ℕ) (bytes : List Byte) : ℕ :=
  fromBytes ((bytes.drop offset).take width)

theorem field_lt
    {offset width : ℕ} {bytes : List Byte}
    (hfits : offset + width ≤ bytes.length) :
    field offset width bytes < 256 ^ width := by
  have hlength : ((bytes.drop offset).take width).length = width := by
    rw [List.length_take, List.length_drop]
    omega
  have hlt := fromBytes_lt ((bytes.drop offset).take width)
  rwa [hlength] at hlt

/-- A field that is read and written again gives its bytes. -/
theorem toBytes_field
    {offset width : ℕ} {bytes : List Byte}
    (hfits : offset + width ≤ bytes.length) :
    toBytes width (field offset width bytes) =
      (bytes.drop offset).take width := by
  have hlength : ((bytes.drop offset).take width).length = width := by
    rw [List.length_take, List.length_drop]
    omega
  have hbytes := toBytes_fromBytes ((bytes.drop offset).take width)
  rwa [hlength] at hbytes

theorem take_append_drop_at (bytes : List Byte) (offset width : ℕ) :
    (bytes.drop offset).take width ++ bytes.drop (offset + width) =
      bytes.drop offset := by
  rw [← List.drop_drop, List.take_append_drop]

theorem field_append
    {offset width : ℕ} {bytes : List Byte}
    (hfits : offset + width ≤ bytes.length) (rest : List Byte) :
    field offset width (bytes ++ rest) = field offset width bytes := by
  have hdrop : offset ≤ bytes.length := by omega
  rw [field, field, List.drop_append_of_le_length hdrop,
    List.take_append_of_le_length]
  rw [List.length_drop]
  omega

theorem field_middle
    (before behind : List Byte) {bytes : List Byte} {width value : ℕ}
    (hbytes : bytes = before ++ (toBytes width value ++ behind))
    (hvalue : value < 256 ^ width) :
    field before.length width bytes = value := by
  rw [field, hbytes, List.drop_left,
    List.take_append_of_le_length (by simp),
    List.take_of_length_le (by simp), fromBytes_toBytes,
    Nat.mod_eq_of_lt hvalue]

/-! ## Cutting a buffer into records -/

/-- The width of a header, and the length of a record as its header has it. -/
structure Format where
  header : ℕ
  size : List Byte → ℕ
  size_append : ∀ bytes rest, header ≤ bytes.length →
    size (bytes ++ rest) = size bytes
  header_pos : 0 < header

variable (format : Format)

/-- There is a record at the front. -/
def Format.Ready (bytes : List Byte) : Prop :=
  format.header ≤ bytes.length ∧ format.header ≤ format.size bytes ∧
    format.size bytes ≤ bytes.length

instance (bytes : List Byte) : Decidable (format.Ready bytes) :=
  inferInstanceAs (Decidable (_ ∧ _ ∧ _))

/-- The loop over a buffer, given the number of rounds it may take. -/
def Format.records : ℕ → List Byte → List (List Byte)
  | 0, _ => []
  | rounds + 1, bytes =>
      if format.Ready bytes then
        bytes.take (format.size bytes) ::
          Format.records rounds (bytes.drop (format.size bytes))
      else []

/-- A record whose header has its own length. -/
def Format.Whole (record : List Byte) : Prop :=
  format.header ≤ record.length ∧ format.size record = record.length

variable {format}

theorem Format.Whole.ready
    {record : List Byte} (hwhole : format.Whole record) (rest : List Byte) :
    format.Ready (record ++ rest) ∧
      format.size (record ++ rest) = record.length := by
  have hsize := format.size_append record rest hwhole.1
  rw [hwhole.2] at hsize
  refine ⟨⟨?_, ?_, ?_⟩, hsize⟩
  · rw [List.length_append]
    exact Nat.le_trans hwhole.1 (Nat.le_add_right _ _)
  · rw [hsize]
    exact hwhole.1
  · rw [hsize, List.length_append]
    exact Nat.le_add_right _ _

theorem Format.whole_take
    {bytes : List Byte} (hready : format.Ready bytes) :
    format.Whole (bytes.take (format.size bytes)) := by
  have hlength : (bytes.take (format.size bytes)).length =
      format.size bytes := by
    rw [List.length_take]
    exact Nat.min_eq_left hready.2.2
  have hsize := format.size_append (bytes.take (format.size bytes))
    (bytes.drop (format.size bytes)) (by rw [hlength]; exact hready.2.1)
  rw [List.take_append_drop] at hsize
  constructor
  · rw [hlength]
    exact hready.2.1
  · rw [hlength]
    exact hsize.symm

/-- With a round for every byte the loop comes to its own end. -/
theorem Format.records_spec
    {rounds : ℕ} {bytes : List Byte} (hrounds : bytes.length ≤ rounds) :
    ∃ rest, bytes = (format.records rounds bytes).flatten ++ rest ∧
      ¬ format.Ready rest ∧
      ∀ record ∈ format.records rounds bytes, format.Whole record := by
  induction rounds generalizing bytes with
  | zero =>
      have hnil : bytes = [] := by
        rw [← List.length_eq_zero_iff]
        omega
      subst hnil
      have hpos := format.header_pos
      refine ⟨[], by simp [Format.records], ?_, by simp [Format.records]⟩
      rintro ⟨hheader, _⟩
      simp only [List.length_nil] at hheader
      omega
  | succ rounds ih =>
      by_cases hready : format.Ready bytes
      · have hpos := format.header_pos
        have hsize := hready.2.1
        obtain ⟨rest, hbytes, hstop, hwhole⟩ :=
          ih (show (bytes.drop (format.size bytes)).length ≤ rounds by
            rw [List.length_drop]
            omega)
        refine ⟨rest, ?_, hstop, ?_⟩
        · simp only [Format.records, hready, if_true, List.flatten_cons,
            List.append_assoc]
          rw [← hbytes, List.take_append_drop]
        · intro record hrecord
          simp only [Format.records, hready, if_true, List.mem_cons] at hrecord
          rcases hrecord with rfl | hrecord
          · exact Format.whole_take hready
          · exact hwhole record hrecord
      · exact ⟨bytes, by simp [Format.records, hready], hready,
          by simp [Format.records, hready]⟩

/-- Records written one behind another are found again. -/
theorem Format.records_flatten
    {records : List (List Byte)} {rest : List Byte}
    (hwhole : ∀ record ∈ records, format.Whole record)
    (hstop : ¬ format.Ready rest) {rounds : ℕ}
    (hrounds : (records.flatten ++ rest).length ≤ rounds) :
    format.records rounds (records.flatten ++ rest) = records := by
  induction records generalizing rounds with
  | nil => cases rounds <;> simp [Format.records, hstop]
  | cons record records ih =>
      obtain ⟨hready, hsize⟩ := (hwhole record (by simp)).ready
        (records.flatten ++ rest)
      have hheader := (hwhole record (by simp)).1
      have hpos := format.header_pos
      simp only [List.flatten_cons, List.append_assoc, List.length_append]
        at hrounds
      obtain ⟨rounds, rfl⟩ :=
        Nat.exists_eq_add_one_of_ne_zero (show rounds ≠ 0 by omega)
      have hshort : (records.flatten ++ rest).length ≤ rounds := by
        rw [List.length_append]
        omega
      have hrest := ih (fun other hother => hwhole other (by simp [hother]))
        hshort
      simp only [List.flatten_cons, List.append_assoc, Format.records, hready,
        if_true, hsize, List.take_left, List.drop_left, hrest]

end LinuxKernelCode.RecordStream
