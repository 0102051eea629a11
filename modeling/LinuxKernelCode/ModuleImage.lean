import Mathlib.Data.List.Basic
import Mathlib.Data.BitVec
import Mathlib.Tactic

/-!
# Reading a module file for `insmod`

`module_image_size` of `insmod_code.c` reads a file of unknown length into a
buffer that it doubles whenever it is full.  The length read so far is an
`unsigned long`, the capacity an `unsigned int`, and the result of `read` an
`int`.

The kernel decides how much each `read` delivers and the C library decides
which allocations succeed; both are the `Environment`.  A byte of an
allocation is `none` until it is written, and the loop records every call of
`read` it makes, so that a statement about the image is also one about the
calls which filled it.
-/

namespace LinuxKernelCode.Insmod

/-! ## Memory -/

def malloc (size : ℕ) : List (Option UInt8) := List.replicate size none

def realloc (buffer : List (Option UInt8)) (size : ℕ) : List (Option UInt8) :=
  buffer.take size ++ List.replicate (size - buffer.length) none

def store (buffer : List (Option UInt8)) (offset : ℕ) (bytes : List UInt8) :
    List (Option UInt8) :=
  buffer.take offset ++ bytes.map some ++ buffer.drop (offset + bytes.length)

@[simp] theorem length_malloc (size : ℕ) : (malloc size).length = size := by
  simp [malloc]

theorem length_realloc (buffer : List (Option UInt8)) (size : ℕ) :
    (realloc buffer size).length = size := by
  simp only [realloc, List.length_append, List.length_take, List.length_replicate]
  omega

theorem take_realloc
    {buffer : List (Option UInt8)} {size used : ℕ}
    (hused : used ≤ buffer.length) (hsize : used ≤ size) :
    (realloc buffer size).take used = buffer.take used := by
  unfold realloc
  rw [List.take_append_of_le_length (by rw [List.length_take]; omega), List.take_take,
    Nat.min_eq_left hsize]

theorem length_store
    {buffer : List (Option UInt8)} {offset : ℕ} {bytes : List UInt8}
    (hfits : offset + bytes.length ≤ buffer.length) :
    (store buffer offset bytes).length = buffer.length := by
  simp only [store, List.length_append, List.length_take, List.length_map,
    List.length_drop]
  omega

theorem take_store
    {buffer : List (Option UInt8)} {offset : ℕ} {bytes : List UInt8}
    (hfits : offset + bytes.length ≤ buffer.length) :
    (store buffer offset bytes).take (offset + bytes.length) =
      buffer.take offset ++ bytes.map some := by
  have hlength : (buffer.take offset ++ bytes.map some).length =
      offset + bytes.length := by
    rw [List.length_append, List.length_take, List.length_map]
    omega
  unfold store
  rw [← hlength, List.take_left]

/-! ## The loop -/

/-- What is decided outside of the program: whether an allocation of a given
size succeeds, and how far the successive reads fall short. -/
structure Environment where
  allocates : ℕ → Bool
  short : ℕ → ℕ

/-- What the next `read` returns.  Every number from one to the smaller of the
requested and the remaining count is possible, and zero only when there is
nothing to read or nothing was asked for. -/
def Environment.readCount (env : Environment) (reads request remaining : ℕ) : ℕ :=
  if min request remaining = 0 then 0
  else 1 + env.short reads % min request remaining

/-- The variables of `module_image_size`, the position in the file and the
number of reads so far. -/
structure Loop where
  buffer : List (Option UInt8)
  size : BitVec 64
  max : BitVec 32
  position : ℕ
  reads : ℕ

inductive Outcome
  | image (buffer : List (Option UInt8)) (size : BitVec 64)
  | null
  | outOfBounds
  | running

inductive Next
  | again (loop : Loop)
  | done (outcome : Outcome)

/-- `max - *size`, computed in `unsigned long`. -/
def Loop.request (loop : Loop) : ℕ := (loop.max.setWidth 64 - loop.size).toNat

/-- A `realloc` to a size of zero that gives no pointer has freed the buffer
already, and the code behind `out_error` frees it once more; the outcome below
is that of an allocator that lets this pass. -/
def Loop.grow (env : Environment) (loop : Loop) : Next :=
  if loop.size = loop.max.setWidth 64 then
    let max := loop.max * 2
    if env.allocates max.toNat then
      .again { loop with buffer := realloc loop.buffer max.toNat, max := max }
    else .done .null
  else .again loop

/-- The state after `count` bytes were read and added to `*size`. -/
def Loop.filled (content : List UInt8) (loop : Loop) (count : ℕ) : Loop :=
  { loop with
    buffer := store loop.buffer loop.size.toNat
      ((content.drop loop.position).take count)
    size := loop.size + (BitVec.ofNat 32 count).signExtend 64
    position := loop.position + count
    reads := loop.reads + 1 }

/-- One round of the `while` loop. -/
def Loop.read (content : List UInt8) (env : Environment) (loop : Loop) : Next :=
  let count := env.readCount loop.reads loop.request
    (content.length - loop.position)
  if loop.buffer.length < loop.size.toNat + count then .done .outOfBounds
  else
    let ret := BitVec.ofNat 32 count
    if 0 < ret.toInt then Loop.grow env (loop.filled content count)
    else if ret.toInt < 0 then .done .null
    else .done (.image loop.buffer loop.size)

/-- What the program knows at a call of `read`, with the true size of the
allocation beside it. -/
structure ReadCall where
  size : BitVec 64
  max : BitVec 32
  allocated : ℕ

def Loop.call (loop : Loop) : ReadCall :=
  ⟨loop.size, loop.max, loop.buffer.length⟩

def readLoop (content : List UInt8) (env : Environment) :
    ℕ → Loop → Outcome × List ReadCall
  | 0, _ => (.running, [])
  | fuel + 1, loop =>
      match loop.read content env with
      | .done outcome => (outcome, [loop.call])
      | .again next =>
          let rest := readLoop content env fuel next
          (rest.1, loop.call :: rest.2)

/-- The argument is the file that `open` finds, if it finds one. -/
def moduleImageSize (file : Option (List UInt8)) (env : Environment) (fuel : ℕ) :
    Outcome × List ReadCall :=
  match file with
  | none => (.null, [])
  | some content =>
      if env.allocates 16384 then
        readLoop content env fuel ⟨malloc 16384, 0, 16384, 0, 0⟩
      else (.null, [])

/-! ## One round -/

theorem readCount_eq_zero_iff
    (env : Environment) (reads request remaining : ℕ) :
    env.readCount reads request remaining = 0 ↔ request = 0 ∨ remaining = 0 := by
  unfold Environment.readCount
  split_ifs with hzero
  · simp only [true_iff]
    omega
  · constructor
    · intro hcount
      omega
    · intro hor
      omega

theorem readCount_le
    (env : Environment) (reads request remaining : ℕ) :
    env.readCount reads request remaining ≤ request ∧
      env.readCount reads request remaining ≤ remaining := by
  unfold Environment.readCount
  split_ifs with hzero
  · omega
  · have hlt := Nat.mod_lt (env.short reads) (Nat.pos_of_ne_zero hzero)
    omega

/-- An `int` holds the result of a read of less than `2 ^ 31` bytes. -/
theorem toInt_ret {count : ℕ} (hcount : count < 2 ^ 31) :
    (BitVec.ofNat 32 count).toInt = count := by
  rw [BitVec.toInt_eq_toNat_of_lt] <;>
    rw [BitVec.toNat_ofNat, Nat.mod_eq_of_lt (by omega)]
  omega

theorem toNat_add_ret
    {size : BitVec 64} {count : ℕ} (hcount : count < 2 ^ 31)
    (hsize : size.toNat + count < 2 ^ 64) :
    (size + (BitVec.ofNat 32 count).signExtend 64).toNat = size.toNat + count := by
  have hret : (BitVec.ofNat 32 count).toNat = count := by
    rw [BitVec.toNat_ofNat, Nat.mod_eq_of_lt (by omega)]
  have hmsb : (BitVec.ofNat 32 count).msb = false := by
    rw [BitVec.msb_eq_false_iff_two_mul_lt, hret]
    omega
  rw [BitVec.signExtend_eq_setWidth_of_msb_false hmsb, BitVec.toNat_add,
    BitVec.toNat_setWidth, hret, Nat.mod_eq_of_lt (by omega : count < 2 ^ 64),
    Nat.mod_eq_of_lt hsize]

/-- The buffer starts with what was read of the file, and the capacity is the
true one. -/
structure Loop.Tracks (content : List UInt8) (loop : Loop) : Prop where
  position_eq : loop.position = loop.size.toNat
  size_le : loop.size.toNat ≤ content.length
  allocated : loop.buffer.length = loop.max.toNat
  stored : loop.buffer.take loop.size.toNat =
    (content.take loop.size.toNat).map some
  power : ∃ doublings ≤ 17, loop.max.toNat = 16384 * 2 ^ doublings
  half : loop.max.toNat = 16384 ∨ loop.max.toNat ≤ 2 * loop.size.toNat

/-- What holds at every call of `read`. -/
structure Loop.Sound (content : List UInt8) (loop : Loop) : Prop
    extends loop.Tracks content where
  size_lt : loop.size.toNat < loop.max.toNat

section Sound

variable {content : List UInt8} {env : Environment} {loop : Loop}

theorem Loop.Tracks.max_le (htracks : loop.Tracks content) :
    loop.max.toNat ≤ 2 ^ 31 := by
  obtain ⟨doublings, hle, hpower⟩ := htracks.power
  have hpow : 2 ^ doublings ≤ 2 ^ 17 := Nat.pow_le_pow_right (by norm_num) hle
  omega

theorem Loop.Sound.request_eq (hsound : loop.Sound content) :
    loop.request = loop.max.toNat - loop.size.toNat := by
  have hlt := hsound.size_lt
  have hmax := hsound.max_le
  unfold Loop.request
  rw [BitVec.toNat_sub, BitVec.toNat_setWidth]
  omega

theorem Loop.Sound.request_lt (hsound : loop.Sound content) :
    loop.request < 2 ^ 31 := by
  have hlt := hsound.size_lt
  have hmax := hsound.max_le
  rw [hsound.request_eq]
  rcases hsound.half with hfirst | hhalf
  · omega
  · omega

theorem Loop.Sound.filled
    (hsound : loop.Sound content) {count : ℕ} (hrequest : count ≤ loop.request)
    (hremaining : count ≤ content.length - loop.size.toNat) :
    (loop.filled content count).Tracks content ∧
      (loop.filled content count).size.toNat = loop.size.toNat + count := by
  have hlt := hsound.size_lt
  have hmax := hsound.max_le
  have hbound := hsound.request_lt
  have hroom := hsound.request_eq
  have hlength := hsound.size_le
  have hsize : (loop.filled content count).size.toNat =
      loop.size.toNat + count :=
    toNat_add_ret (by omega) (by omega)
  have hbytes : ((content.drop loop.size.toNat).take count).length = count := by
    rw [List.length_take, List.length_drop]
    omega
  have hfits : loop.size.toNat +
      ((content.drop loop.size.toNat).take count).length ≤ loop.buffer.length := by
    rw [hbytes, hsound.allocated]
    omega
  refine ⟨⟨?_, ?_, ?_, ?_, hsound.power, ?_⟩, hsize⟩
  · rw [hsize, ← hsound.position_eq]
    rfl
  · omega
  · change (store _ _ _).length = loop.max.toNat
    rw [hsound.position_eq, length_store hfits, hsound.allocated]
  · have htake := take_store hfits
    rw [hbytes] at htake
    rw [hsize]
    change (store _ _ _).take _ = _
    rw [hsound.position_eq, htake, hsound.stored, List.take_add, List.map_append]
  · rw [hsize]
    change loop.max.toNat = 16384 ∨ loop.max.toNat ≤ _
    rcases hsound.half with hfirst | hhalf
    · exact .inl hfirst
    · exact .inr (by omega)

/-- Growing keeps the loop sound until the capacity is `2 ^ 31`; doubling that
gives zero. -/
theorem Loop.Tracks.grow
    (halloc : ∀ size, size ≠ 0 → env.allocates size = true)
    (htracks : loop.Tracks content) (hle : loop.size.toNat ≤ loop.max.toNat) :
    (∃ next, loop.grow env = .again next ∧ next.Sound content ∧
        next.size = loop.size) ∨
      loop.size.toNat = 2 ^ 31 ∧
        (loop.grow env = .done .null ∨
          ∃ next, loop.grow env = .again next ∧ next.max = 0) := by
  have hmax := htracks.max_le
  have hwide : (loop.max.setWidth 64).toNat = loop.max.toNat := by
    rw [BitVec.toNat_setWidth]
    omega
  unfold Loop.grow
  by_cases hfull : loop.size = loop.max.setWidth 64
  · have hequal : loop.size.toNat = loop.max.toNat := by
      rw [hfull, hwide]
    rw [if_pos hfull]
    obtain ⟨doublings, hdoublings, hpower⟩ := htracks.power
    by_cases hlast : doublings = 17
    · right
      have hzero : loop.max * 2 = 0 := by
        apply BitVec.eq_of_toNat_eq
        rw [BitVec.toNat_mul, hpower, hlast]
        rfl
      refine ⟨by rw [hequal, hpower, hlast]; norm_num, ?_⟩
      dsimp only
      split_ifs with hzeroSize
      · exact .inr ⟨_, rfl, hzero⟩
      · exact .inl rfl
    · left
      have hpow : 2 ^ doublings ≤ 2 ^ 16 :=
        Nat.pow_le_pow_right (by norm_num) (by omega)
      have hdouble : (loop.max * 2).toNat = 2 * loop.max.toNat := by
        rw [BitVec.toNat_mul]
        change loop.max.toNat * 2 % 2 ^ 32 = _
        omega
      have hpos : 0 < 2 ^ doublings := Nat.two_pow_pos doublings
      dsimp only
      rw [if_pos (halloc _ (by omega))]
      refine ⟨_, rfl, ⟨⟨htracks.position_eq, htracks.size_le, ?_, ?_, ?_, ?_⟩, ?_⟩,
        rfl⟩
      · exact length_realloc _ _
      · dsimp only
        rw [take_realloc (by rw [htracks.allocated]; omega) (by omega)]
        exact htracks.stored
      · exact ⟨doublings + 1, by omega, by dsimp only; rw [pow_succ]; omega⟩
      · dsimp only
        right
        omega
      · dsimp only
        omega
  · left
    rw [if_neg hfull]
    refine ⟨loop, rfl, ⟨htracks, ?_⟩, rfl⟩
    apply lt_of_le_of_ne hle
    intro hequal
    exact hfull (BitVec.eq_of_toNat_eq (by rw [hwide, hequal]))

/-- At the end of the file the loop returns the buffer as it is. -/
theorem Loop.Sound.read_of_eq
    (hsound : loop.Sound content) (hend : loop.size.toNat = content.length) :
    loop.read content env = .done (.image loop.buffer loop.size) := by
  have hcount : env.readCount loop.reads loop.request
      (content.length - loop.position) = 0 := by
    rw [readCount_eq_zero_iff, hsound.position_eq]
    omega
  have hfits : ¬ loop.buffer.length < loop.size.toNat + 0 := by
    have hlt := hsound.size_lt
    rw [hsound.allocated]
    omega
  unfold Loop.read
  rw [hcount]
  dsimp only
  rw [if_neg hfits]
  rfl

/-- Before the end of the file the loop reads on, except that it cannot double
the capacity `2 ^ 31`. -/
theorem Loop.Sound.read_of_lt
    (halloc : ∀ size, size ≠ 0 → env.allocates size = true)
    (hsound : loop.Sound content) (hmore : loop.size.toNat < content.length) :
    (∃ next, loop.read content env = .again next ∧ next.Sound content ∧
        loop.size.toNat < next.size.toNat) ∨
      2 ^ 31 ≤ content.length ∧
        (loop.read content env = .done .null ∨
          ∃ next, loop.read content env = .again next ∧ next.max = 0) := by
  have hlt := hsound.size_lt
  have hroom := hsound.request_eq
  have hbound := hsound.request_lt
  obtain ⟨count, hcount⟩ : ∃ count, env.readCount loop.reads loop.request
      (content.length - loop.position) = count := ⟨_, rfl⟩
  have hpos : count ≠ 0 := by
    rw [← hcount, Ne, readCount_eq_zero_iff, hsound.position_eq]
    omega
  obtain ⟨hrequest, hremaining⟩ := readCount_le env loop.reads loop.request
    (content.length - loop.position)
  rw [hcount] at hrequest hremaining
  rw [hsound.position_eq] at hremaining
  obtain ⟨htracks, hsize⟩ := hsound.filled hrequest hremaining
  have hread : loop.read content env =
      (loop.filled content count).grow env := by
    have hfits : ¬ loop.buffer.length < loop.size.toNat + count := by
      rw [hsound.allocated]
      omega
    have hret : 0 < (BitVec.ofNat 32 count).toInt := by
      rw [toInt_ret (by omega)]
      omega
    unfold Loop.read
    rw [hcount]
    dsimp only
    rw [if_neg hfits, if_pos hret]
  have hle : (loop.filled content count).size.toNat ≤
      (loop.filled content count).max.toNat := by
    change _ ≤ loop.max.toNat
    omega
  rw [hread]
  rcases htracks.grow halloc hle with ⟨next, hnext, hnextSound, hsame⟩ | hlast
  · left
    refine ⟨next, hnext, hnextSound, ?_⟩
    rw [hsame]
    omega
  · right
    refine ⟨?_, hlast.2⟩
    have hfilled := htracks.size_le
    omega

end Sound

/-! ## Whole runs -/

/-- The capacity is the allocated size and leaves room for a request that is
not empty and stays inside the buffer. -/
def ReadCall.Fits (call : ReadCall) : Prop :=
  call.size.toNat < call.max.toNat ∧ call.max.toNat = call.allocated ∧
    (call.max.setWidth 64 - call.size).toNat ≠ 0 ∧
    call.size.toNat + (call.max.setWidth 64 - call.size).toNat ≤ call.allocated

/-- The image is the whole file, and every call of `read` on the way fits. -/
def LoadsWhole (content : List UInt8) (result : Outcome × List ReadCall) : Prop :=
  (∃ buffer size, result.1 = .image buffer size ∧
      size.toNat = content.length ∧
      buffer.take size.toNat = content.map some) ∧
    ∀ call ∈ result.2, call.Fits

theorem Loop.Sound.fits
    {content : List UInt8} {loop : Loop} (hsound : loop.Sound content) :
    loop.call.Fits := by
  have hlt := hsound.size_lt
  have hrequest := hsound.request_eq
  have hallocated := hsound.allocated
  unfold Loop.request at hrequest
  unfold ReadCall.Fits Loop.call
  dsimp only
  omega

section Runs

variable {content : List UInt8} {env : Environment}
  (halloc : ∀ size, size ≠ 0 → env.allocates size = true)

include halloc

theorem loadsWhole_readLoop
    (hshort : content.length < 2 ^ 31) {fuel : ℕ} {loop : Loop}
    (hsound : loop.Sound content)
    (hfuel : content.length - loop.size.toNat < fuel) :
    LoadsWhole content (readLoop content env fuel loop) := by
  induction fuel generalizing loop with
  | zero => omega
  | succ fuel ih =>
      have hlength := hsound.size_le
      unfold readLoop
      by_cases hend : loop.size.toNat = content.length
      · rw [hsound.read_of_eq hend]
        refine ⟨⟨_, _, rfl, hend, ?_⟩, ?_⟩
        · rw [hsound.stored, hend, List.take_length]
        · intro call hcall
          rw [List.mem_singleton.mp hcall]
          exact hsound.fits
      · rcases hsound.read_of_lt halloc (by omega) with
          ⟨next, hnext, hnextSound, hgrows⟩ | ⟨hlong, _⟩
        · rw [hnext]
          obtain ⟨himage, hcalls⟩ := ih hnextSound (by omega)
          refine ⟨himage, ?_⟩
          intro call hcall
          rcases List.mem_cons.mp hcall with heq | hmem
          · exact heq ▸ hsound.fits
          · exact hcalls call hmem
        · omega

theorem not_loadsWhole_readLoop
    (hlong : 2 ^ 31 ≤ content.length) (fuel : ℕ) {loop : Loop}
    (hsound : loop.Sound content) :
    ¬ LoadsWhole content (readLoop content env fuel loop) := by
  induction fuel generalizing loop with
  | zero =>
      rintro ⟨⟨_, _, himage, _⟩, _⟩
      cases himage
  | succ fuel ih =>
      have hlt := hsound.size_lt
      have hmax := hsound.max_le
      unfold readLoop
      rcases hsound.read_of_lt halloc (by omega) with
        ⟨next, hnext, hnextSound, _⟩ | ⟨_, hnull | ⟨next, hnext, hzero⟩⟩
      · rw [hnext]
        rintro ⟨himage, hcalls⟩
        exact ih hnextSound ⟨himage, fun call hcall => hcalls call (by simp [hcall])⟩
      · rw [hnull]
        rintro ⟨⟨_, _, himage, _⟩, _⟩
        cases himage
      · rw [hnext]
        rintro ⟨⟨buffer, size, himage, _⟩, hcalls⟩
        cases fuel with
        | zero => cases himage
        | succ fuel =>
            have hcall : next.call ∈ (readLoop content env (fuel + 1) next).2 := by
              unfold readLoop
              cases next.read content env <;> simp
            have hfits := (hcalls next.call (by simp [hcall])).1
            change _ < next.max.toNat at hfits
            rw [hzero] at hfits
            exact Nat.not_lt_zero _ hfits

end Runs

theorem initial_sound (content : List UInt8) :
    (⟨malloc 16384, 0, 16384, 0, 0⟩ : Loop).Sound content := by
  refine ⟨⟨rfl, Nat.zero_le _, length_malloc _, rfl, ⟨0, by norm_num, rfl⟩,
    .inl rfl⟩, ?_⟩
  change 0 < 16384
  norm_num

theorem moduleImageSize_some
    {content : List UInt8} {env : Environment}
    (halloc : ∀ size, size ≠ 0 → env.allocates size = true) (fuel : ℕ) :
    moduleImageSize (some content) env fuel =
      readLoop content env fuel ⟨malloc 16384, 0, 16384, 0, 0⟩ :=
  if_pos (halloc 16384 (by norm_num))

/-- The loop returns the whole file, however short the reads are, if and only
if the file is shorter than `2 ^ 31` bytes. -/
theorem moduleImageSize_loadsWhole_iff
    (content : List UInt8) (env : Environment)
    (halloc : ∀ size, size ≠ 0 → env.allocates size = true) :
    (∃ fuel, LoadsWhole content (moduleImageSize (some content) env fuel)) ↔
      content.length < 2 ^ 31 := by
  constructor
  · rintro ⟨fuel, hloads⟩
    rw [moduleImageSize_some halloc] at hloads
    by_contra hlong
    exact not_loadsWhole_readLoop halloc (by omega) fuel (initial_sound content)
      hloads
  · intro hshort
    refine ⟨content.length + 1, ?_⟩
    rw [moduleImageSize_some halloc]
    apply loadsWhole_readLoop halloc hshort (initial_sound content)
    omega

/-- An allocator that refuses only a size of zero, and reads of two bytes. -/
def shortReads : Environment := ⟨fun size => decide (size ≠ 0), fun _ => 1⟩

theorem moduleImageSize_loadsWhole_five_bytes :
    ∃ fuel, LoadsWhole [127, 69, 76, 70, 2]
      (moduleImageSize (some [127, 69, 76, 70, 2]) shortReads fuel) :=
  (moduleImageSize_loadsWhole_iff [127, 69, 76, 70, 2] shortReads
    (by simp [shortReads])).mpr (by decide)

theorem not_loadsWhole_two_gigabytes :
    ¬ ∃ fuel, LoadsWhole (List.replicate (2 ^ 31) 0)
      (moduleImageSize (some (List.replicate (2 ^ 31) 0)) shortReads fuel) := by
  have halloc : ∀ size, size ≠ 0 → shortReads.allocates size = true := by
    simp [shortReads]
  rintro ⟨fuel, hloads⟩
  rw [moduleImageSize_some halloc] at hloads
  exact not_loadsWhole_readLoop halloc (by rw [List.length_replicate]) fuel
    (initial_sound _) hloads

end LinuxKernelCode.Insmod
