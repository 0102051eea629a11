import Mathlib.Data.List.Basic
import Mathlib.Tactic.NormNum

/-!
# The reply to a netlink message

`callback_invoked_connect_userspace` takes the payload of the message it
received for a `Response`, edits the response in place, and sends all of it
back.  It does not look at the length of the message, so a message that ends
before the response does is answered with the memory behind it.

Memory is byte addressed from the start of the message on, and an `int` is
stored in little-endian order.
-/

namespace LinuxKernelCode.Netlink

/-! ## Bytes and words in memory -/

def loadInt (memory : ℕ → BitVec 8) (offset : ℕ) : BitVec 32 :=
  memory (offset + 3) ++ memory (offset + 2) ++ memory (offset + 1) ++
    memory offset

def storeInt (memory : ℕ → BitVec 8) (offset : ℕ) (value : BitVec 32) :
    ℕ → BitVec 8 :=
  fun address =>
    if offset ≤ address ∧ address < offset + 4 then
      value.extractLsb' (8 * (address - offset)) 8
    else memory address

def storeBytes (memory : ℕ → BitVec 8) (offset : ℕ) (data : List (BitVec 8)) :
    ℕ → BitVec 8 :=
  fun address =>
    if offset ≤ address ∧ address < offset + data.length then
      data.getD (address - offset) 0
    else memory address

def AgreeBelow (bound : ℕ) (memory other : ℕ → BitVec 8) : Prop :=
  ∀ address, address < bound → memory address = other address

variable {bound offset : ℕ} {memory other : ℕ → BitVec 8}

theorem AgreeBelow.loadInt
    (hagree : AgreeBelow bound memory other) (hinside : offset + 4 ≤ bound) :
    loadInt memory offset = loadInt other offset := by
  unfold Netlink.loadInt
  rw [hagree (offset + 3) (by omega), hagree (offset + 2) (by omega),
    hagree (offset + 1) (by omega), hagree offset (by omega)]

theorem AgreeBelow.storeInt
    (hagree : AgreeBelow bound memory other) (value : BitVec 32) :
    AgreeBelow bound (storeInt memory offset value)
      (storeInt other offset value) := by
  intro address haddress
  simp only [Netlink.storeInt]
  rw [hagree address haddress]

theorem AgreeBelow.storeBytes
    (hagree : AgreeBelow bound memory other) (data : List (BitVec 8))
    (offset : ℕ) :
    AgreeBelow bound (storeBytes memory offset data)
      (storeBytes other offset data) := by
  intro address haddress
  simp only [Netlink.storeBytes]
  rw [hagree address haddress]

theorem storeInt_outside
    {value : BitVec 32} {address : ℕ}
    (houtside : address < offset ∨ offset + 4 ≤ address) :
    storeInt memory offset value address = memory address := by
  rw [storeInt, if_neg]
  omega

theorem storeBytes_outside
    {data : List (BitVec 8)} {address : ℕ}
    (houtside : address < offset ∨ offset + data.length ≤ address) :
    storeBytes memory offset data address = memory address := by
  rw [storeBytes, if_neg]
  omega

/-! ## The callback -/

/-- `NLMSG_HDRLEN`, the size of `struct nlmsghdr`. -/
def nlmsgHdrLen : ℕ := 16

/-- The offset of `nlmsg_pid` in the header. -/
def nlmsgPid : ℕ := 12

namespace Response

def index : ℕ := 0

def dataSize : ℕ := 4

def data : ℕ := 8

def test2 : ℕ := data + 4096

def test3 : ℕ := test2 + 4

def test4 : ℕ := test3 + 4

def size : ℕ := test4 + 4

end Response

/-- The string `Data from Kernel` with its closing zero. -/
def dataFromKernel : List (BitVec 8) :=
  [68, 97, 116, 97, 32, 102, 114, 111, 109, 32, 75, 101, 114, 110, 101, 108, 0]

/-- `req->field *= 100`. -/
def scaleField (memory : ℕ → BitVec 8) (field : ℕ) : ℕ → BitVec 8 :=
  storeInt memory (nlmsgHdrLen + field)
    (loadInt memory (nlmsgHdrLen + field) * 100)

def editRequest (memory : ℕ → BitVec 8) : ℕ → BitVec 8 :=
  let memory := scaleField memory Response.index
  let memory := scaleField memory Response.dataSize
  let memory := storeBytes memory (nlmsgHdrLen + Response.data) dataFromKernel
  let memory := scaleField memory Response.test2
  let memory := scaleField memory Response.test3
  scaleField memory Response.test4

structure Reply where
  pid : BitVec 32
  payload : List (BitVec 8)
  deriving DecidableEq, Repr

/-- What the callback sends, given whether `nlmsg_new` returned a buffer. -/
def callbackInvokedConnectUserspace
    (memory : ℕ → BitVec 8) (nlmsgNew : Bool) : Option Reply :=
  let pid := loadInt memory nlmsgPid
  if nlmsgNew then
    let edited := editRequest memory
    some ⟨pid, (List.range Response.size).map fun byte =>
      edited (nlmsgHdrLen + byte)⟩
  else none

/-- The request of the given length is answered alike in any two memories that
hold it, whatever lies behind it. -/
def RevealsOnlyRequest (request : ℕ → BitVec 8) (length : ℕ) : Prop :=
  ∀ (memory other : ℕ → BitVec 8) (nlmsgNew : Bool),
    AgreeBelow length memory request → AgreeBelow length other request →
      callbackInvokedConnectUserspace memory nlmsgNew =
        callbackInvokedConnectUserspace other nlmsgNew

theorem AgreeBelow.scaleField
    (hagree : AgreeBelow bound memory other)
    (hbound : nlmsgHdrLen + Response.size ≤ bound) {field : ℕ}
    (hfield : field + 4 ≤ Response.size) :
    AgreeBelow bound (scaleField memory field) (scaleField other field) := by
  unfold Netlink.scaleField
  rw [hagree.loadInt (by omega)]
  exact hagree.storeInt _

theorem AgreeBelow.editRequest
    (hagree : AgreeBelow bound memory other)
    (hbound : nlmsgHdrLen + Response.size ≤ bound) :
    AgreeBelow bound (editRequest memory) (editRequest other) := by
  have hindex := hagree.scaleField hbound
    (show Response.index + 4 ≤ Response.size by decide)
  have hdataSize := hindex.scaleField hbound
    (show Response.dataSize + 4 ≤ Response.size by decide)
  have hdata := hdataSize.storeBytes dataFromKernel
    (nlmsgHdrLen + Response.data)
  have htest2 := hdata.scaleField hbound
    (show Response.test2 + 4 ≤ Response.size by decide)
  have htest3 := htest2.scaleField hbound
    (show Response.test3 + 4 ≤ Response.size by decide)
  exact htest3.scaleField hbound (by decide)

theorem revealsOnlyRequest_of_length
    (request : ℕ → BitVec 8) {length : ℕ}
    (hlength : nlmsgHdrLen + Response.size ≤ length) :
    RevealsOnlyRequest request length := by
  intro memory other nlmsgNew hmemory hother
  have hagree : AgreeBelow length memory other := by
    intro address haddress
    exact (hmemory address haddress).trans (hother address haddress).symm
  have hedited := hagree.editRequest hlength
  have hpid : loadInt memory nlmsgPid = loadInt other nlmsgPid := by
    apply hagree.loadInt
    have hheader : nlmsgPid + 4 ≤ nlmsgHdrLen := by decide
    omega
  cases nlmsgNew with
  | false => rfl
  | true =>
      have hpayload :
          ((List.range Response.size).map fun byte =>
            editRequest memory (nlmsgHdrLen + byte)) =
          (List.range Response.size).map fun byte =>
            editRequest other (nlmsgHdrLen + byte) := by
        apply List.map_congr_left
        intro byte hbyte
        rw [List.mem_range] at hbyte
        exact hedited _ (by omega)
      simp only [callbackInvokedConnectUserspace, if_true, hpid, hpayload]

theorem scaleField_behind
    {field address : ℕ} (hbehind : nlmsgHdrLen + field + 4 ≤ address) :
    scaleField memory field address = memory address :=
  storeInt_outside (Or.inr hbehind)

theorem editRequest_test4 (memory : ℕ → BitVec 8) :
    ∃ earlier, editRequest memory = scaleField earlier Response.test4 ∧
      ∀ address, nlmsgHdrLen + Response.test4 ≤ address →
        earlier address = memory address := by
  refine ⟨_, rfl, ?_⟩
  intro address haddress
  have hbehind : ∀ field, field + 4 ≤ Response.test4 →
      nlmsgHdrLen + field + 4 ≤ address := by
    intro field hfield
    omega
  have hdata : Response.data + dataFromKernel.length ≤ Response.test4 := by
    decide
  rw [scaleField_behind (hbehind _ (by decide)),
    scaleField_behind (hbehind _ (by decide)),
    storeBytes_outside (Or.inr (by omega)),
    scaleField_behind (hbehind _ (by decide)),
    scaleField_behind (hbehind _ (by decide))]

/-- The last byte of the reply is the high byte of the scaled `test4`. -/
theorem editRequest_last (memory : ℕ → BitVec 8) :
    editRequest memory (nlmsgHdrLen + Response.test4 + 3) =
      (loadInt memory (nlmsgHdrLen + Response.test4) * 100).extractLsb' 24 8 := by
  obtain ⟨earlier, hedited, hsame⟩ := editRequest_test4 memory
  have hload : loadInt earlier (nlmsgHdrLen + Response.test4) =
      loadInt memory (nlmsgHdrLen + Response.test4) := by
    unfold loadInt
    rw [hsame _ (by omega), hsame _ (by omega), hsame _ (by omega),
      hsame _ (by omega)]
  rw [hedited, scaleField, hload, storeInt, if_pos (by omega),
    Nat.add_sub_cancel_left]

def lastByte : ℕ := nlmsgHdrLen + Response.test4 + 3

theorem scaled_high_byte_ne (low : BitVec 24) :
    ((0#8 ++ low) * 100#32).extractLsb' 24 8 ≠
      ((1#8 ++ low) * 100#32).extractLsb' 24 8 := by
  intro hequal
  have hvalue := congrArg BitVec.toNat hequal
  have hlow := low.isLt
  have hmarked : 1 % 2 ^ 8 * 2 ^ 24 ||| low.toNat = 2 ^ 24 + low.toNat :=
    (Nat.two_pow_add_eq_or_of_lt hlow 1).symm
  have hclear : 0 % 2 ^ 8 * 2 ^ 24 ||| low.toNat = low.toNat := by
    simp
  simp only [BitVec.extractLsb'_toNat, BitVec.toNat_mul, BitVec.toNat_append,
    BitVec.toNat_ofNat, Nat.shiftRight_eq_div_pow, Nat.shiftLeft_eq, hmarked,
    hclear] at hvalue
  have hquotient : (2 ^ 24 + low.toNat) * 100 / 2 ^ 24 =
      low.toNat * 100 / 2 ^ 24 + 100 := by omega
  rw [Nat.mod_eq_of_lt (show low.toNat * (100 % 2 ^ (8 + 24)) < 2 ^ (8 + 24) by omega),
    Nat.mod_eq_of_lt
      (show (2 ^ 24 + low.toNat) * (100 % 2 ^ (8 + 24)) < 2 ^ (8 + 24) by omega)]
    at hvalue
  norm_num at hvalue hquotient
  omega

theorem loadInt_update_last (request : ℕ → BitVec 8) (mark : BitVec 8) :
    loadInt (Function.update request lastByte mark)
        (nlmsgHdrLen + Response.test4) =
      mark ++ (request (nlmsgHdrLen + Response.test4 + 2) ++
        request (nlmsgHdrLen + Response.test4 + 1) ++
        request (nlmsgHdrLen + Response.test4)) := by
  unfold loadInt lastByte
  rw [Function.update_self, Function.update_of_ne (by omega),
    Function.update_of_ne (by omega), Function.update_of_ne (by omega)]
  apply BitVec.eq_of_toNat_eq
  simp only [BitVec.toNat_append, Nat.shiftLeft_or_distrib, ← Nat.shiftLeft_add,
    Nat.or_assoc]

/-- The reply to a shorter message depends on the byte at the end of the
response. -/
theorem not_revealsOnlyRequest
    (request : ℕ → BitVec 8) {length : ℕ}
    (hlength : length < nlmsgHdrLen + Response.size) :
    ¬ RevealsOnlyRequest request length := by
  intro hreveals
  have hagree : ∀ mark : BitVec 8,
      AgreeBelow length (Function.update request lastByte mark) request := by
    intro mark address haddress
    have hsize : Response.size = Response.test4 + 4 := rfl
    apply Function.update_of_ne
    rw [lastByte]
    omega
  have hreply := hreveals _ _ true (hagree 0) (hagree 1)
  simp only [callbackInvokedConnectUserspace, if_true, Option.some.injEq,
    Reply.mk.injEq, List.map_inj_left, List.mem_range] at hreply
  have hlast := hreply.2 (Response.test4 + 3) (by decide)
  rw [← Nat.add_assoc, editRequest_last, editRequest_last, loadInt_update_last,
    loadInt_update_last] at hlast
  exact scaled_high_byte_ne _ hlast

/-- The reply reveals only the request exactly when the message is at least as
long as a header and a response. -/
theorem revealsOnlyRequest_iff (request : ℕ → BitVec 8) (length : ℕ) :
    RevealsOnlyRequest request length ↔
      nlmsgHdrLen + Response.size ≤ length := by
  constructor
  · intro hreveals
    by_contra hshort
    exact not_revealsOnlyRequest request (by omega) hreveals
  · exact revealsOnlyRequest_of_length request

/-- A header without a payload is answered with what lies behind it. -/
theorem bare_header_reveals_memory :
    ¬ RevealsOnlyRequest (fun _ => 0) nlmsgHdrLen :=
  not_revealsOnlyRequest _ (by decide)

end LinuxKernelCode.Netlink
