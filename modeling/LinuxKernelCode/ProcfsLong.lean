import LinuxKernelCode.DecimalText

/-!
# A long in procfs

`procfs_write_long` stores the number written in the user's buffer, and
`procfs_read_long` prints the stored number into the user's buffer.  There are
two variants of both, for kernels from version 3.10 on and for older ones.

The newer write accepts seven characters and parses through an `int`; the
older one accepts twenty and parses a `long`.  The newer read copies its whole
buffer of 21 bytes whatever the user asked for, and answers with the count.
-/

namespace LinuxKernelCode.Procfs

open DecimalText

/-- `LONG_BUF_LEN`. -/
def longBufLen : ℕ := 21

def pageSize : ℕ := 4096

def einval : BitVec 64 := -22

def enomem : BitVec 64 := -12

/-- `sizeof(char *)` on a 64-bit kernel. -/
def sizeofPointer : ℕ := 8

/-- What a function of type `ssize_t` returns for an `int`. -/
def ofInt (value : BitVec 64) : BitVec 64 :=
  (value.truncate 32).signExtend 64

/-- The first bytes of the user's memory, seen from the buffer on. -/
def bytes (userbuf : ℕ → Char) (count : ℕ) : List Char :=
  (List.range count).map userbuf

/-- `copy_to_user`, when all but the given number of bytes are copied. -/
def copyToUser (userbuf : ℕ → Char) (data : List Char) (uncopied : ℕ) :
    ℕ → Char :=
  fun index =>
    if index < data.length - uncopied then data.getD index nul
    else userbuf index

def text (longVal : BitVec 64) : List Char :=
  decimal longVal.toInt ++ [newline]

/-- The answers of `kzalloc` and of the copy, which returns the number of
bytes it could not copy. -/
structure Answers where
  kzalloc : Bool
  uncopied : ℕ
  deriving DecidableEq, Repr

def Answers.succeeding : Answers := ⟨true, 0⟩

structure WriteOutcome where
  ret : BitVec 64
  longVal : BitVec 64
  deriving DecidableEq, Repr

/-! ## From version 3.10 on -/

namespace Since310

/-- An open file of the entry, with the number of buffers that the reads have
allocated and not released. -/
structure OpenFile where
  longVal : BitVec 64
  ppos : BitVec 64
  allocated : ℕ
  deriving DecidableEq, Repr

structure ReadOutcome where
  ret : BitVec 64
  userbuf : ℕ → Char
  file : OpenFile

/-- The bytes that a call returned. -/
def ReadOutcome.returned (outcome : ReadOutcome) : List Char :=
  bytes outcome.userbuf outcome.ret.toInt.toNat

def printed (longVal : BitVec 64) : List Char :=
  (snprintf (List.replicate longBufLen nul) longBufLen (text longVal)).1

def procfsReadLong
    (file : OpenFile) (userbuf : ℕ → Char) (count : BitVec 64)
    (answers : Answers) : ReadOutcome :=
  if count ≤ file.ppos then
    ⟨0, userbuf, file⟩
  else if answers.kzalloc then
    let target := copyToUser userbuf (printed file.longVal) answers.uncopied
    if answers.uncopied ≠ 0 then
      ⟨0, target, { file with allocated := file.allocated + 1 }⟩
    else
      ⟨ofInt count, target, { file with ppos := file.ppos + count }⟩
  else
    ⟨0, userbuf, file⟩

theorem procfsReadLong_succeeding
    {file : OpenFile} {count : BitVec 64} (hposition : ¬ count ≤ file.ppos)
    (userbuf : ℕ → Char) :
    procfsReadLong file userbuf count .succeeding =
      ⟨ofInt count, copyToUser userbuf (printed file.longVal) 0,
        { file with ppos := file.ppos + count }⟩ := by
  simp [procfsReadLong, hposition, Answers.succeeding]

theorem length_printed (longVal : BitVec 64) :
    (printed longVal).length = longBufLen := by
  simp only [printed, snprintf, longBufLen, List.length_append, List.length_take,
    List.length_singleton, List.length_drop, List.length_replicate]
  omega

def procfsWriteLong
    (longVal : BitVec 64) (userbuf : ℕ → Char) (count : BitVec 64)
    (answers : Answers) : WriteOutcome :=
  if answers.kzalloc then
    if sizeofPointer - 1 < count.toNat then
      ⟨einval, longVal⟩
    else if answers.uncopied ≠ 0 then
      ⟨einval, longVal⟩
    else
      let data := bytes userbuf count.toNat ++ [nul]
      let intVal := (simpleStrtol data).truncate 32
      ⟨ofInt count, intVal.signExtend 64⟩
  else
    ⟨enomem, longVal⟩

end Since310

/-! ## Before version 3.10 -/

namespace Before310

/-- What a read leaves behind: its answer, the page, the offset of the text in
the page, and the end-of-file mark. -/
structure ReadOutcome where
  ret : BitVec 32
  page : List Char
  start : BitVec 64
  eof : Bool
  deriving DecidableEq, Repr

def procfsReadLong
    (page : List Char) (off : BitVec 64) (count : BitVec 32) (eof : Bool)
    (data : BitVec 64) : ReadOutcome :=
  let result := snprintf page pageSize (text data)
  let length : BitVec 32 := BitVec.ofNat 32 result.2
  let remaining := (length.signExtend 64 - off).truncate 32
  { ret := if remaining.slt 0 then 0 else remaining
    page := result.1
    start := off
    eof := (length.signExtend 64).sle (off + count.signExtend 64) || eof }

/-- The bytes that the caller of a read takes from the page. -/
def ReadOutcome.delivered (outcome : ReadOutcome) : List Char :=
  (outcome.page.drop outcome.start.toNat).take outcome.ret.toNat

def procfsWriteLong
    (data : BitVec 64) (buffer : ℕ → Char) (count : BitVec 64)
    (uncopied : ℕ) : WriteOutcome :=
  if longBufLen - 1 < count.toNat then
    ⟨einval, data⟩
  else if uncopied ≠ 0 then
    ⟨einval, data⟩
  else
    let buffLong := bytes buffer count.toNat ++ [nul]
    ⟨ofInt count, simpleStrtol buffLong⟩

end Before310

end LinuxKernelCode.Procfs
