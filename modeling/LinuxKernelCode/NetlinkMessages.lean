import LinuxKernelCode.NetlinkReply

/-!
# Structures and strings in a netlink message

Both ends of a netlink socket copy structures into a message byte by byte and
take them out of it by address.  This module reads fields, strings and a whole
`Response` back from memory that was written in this way.  The main result says
what the answer of `callback_invoked_connect_userspace` means as a `Response`,
for every request and whatever lies behind the message.
-/

namespace LinuxKernelCode.Netlink

/-! ## Reading back what was stored -/

section Memory

variable {memory other : ℕ → BitVec 8} {offset place : ℕ}

theorem loadInt_congr
    (hsame : ∀ byte, byte < 4 →
      memory (offset + byte) = other (place + byte)) :
    loadInt memory offset = loadInt other place := by
  have hfirst : memory offset = other place := hsame 0 (by omega)
  unfold loadInt
  rw [hsame 3 (by omega), hsame 2 (by omega), hsame 1 (by omega), hfirst]

theorem storeInt_inside
    (memory : ℕ → BitVec 8) (offset : ℕ) (value : BitVec 32) {byte : ℕ}
    (hbyte : byte < 4) :
    storeInt memory offset value (offset + byte) =
      value.extractLsb' (8 * byte) 8 := by
  rw [storeInt, if_pos (by omega), Nat.add_sub_cancel_left]

theorem loadInt_storeInt
    (memory : ℕ → BitVec 8) (offset : ℕ) (value : BitVec 32) :
    loadInt (storeInt memory offset value) offset = value := by
  have hfirst : storeInt memory offset value offset = value.extractLsb' 0 8 :=
    storeInt_inside memory offset value (show 0 < 4 by omega)
  unfold loadInt
  rw [storeInt_inside _ _ _ (by omega), storeInt_inside _ _ _ (by omega),
    storeInt_inside _ _ _ (by omega), hfirst]
  ext bit hbit
  simp
  grind

theorem loadInt_storeInt_disjoint
    (memory : ℕ → BitVec 8) (value : BitVec 32)
    (hdisjoint : offset + 4 ≤ place ∨ place + 4 ≤ offset) :
    loadInt (storeInt memory place value) offset = loadInt memory offset := by
  apply loadInt_congr
  intro byte hbyte
  exact storeInt_outside (by omega)

theorem loadInt_storeBytes_disjoint
    (memory : ℕ → BitVec 8) (data : List (BitVec 8))
    (hdisjoint : offset + 4 ≤ place ∨ place + data.length ≤ offset) :
    loadInt (storeBytes memory place data) offset = loadInt memory offset := by
  apply loadInt_congr
  intro byte hbyte
  exact storeBytes_outside (by omega)

theorem storeBytes_inside
    (memory : ℕ → BitVec 8) (offset : ℕ) (data : List (BitVec 8)) {byte : ℕ}
    (hbyte : byte < data.length) :
    storeBytes memory offset data (offset + byte) = data[byte] := by
  rw [storeBytes, if_pos (by omega), Nat.add_sub_cancel_left]
  simp [hbyte]

end Memory

/-- The bytes that `memcpy` takes from an address. -/
def bytesAt (memory : ℕ → BitVec 8) (address length : ℕ) :
    List (BitVec 8) :=
  (List.range length).map fun byte => memory (address + byte)

@[simp] theorem length_bytesAt
    (memory : ℕ → BitVec 8) (address length : ℕ) :
    (bytesAt memory address length).length = length := by
  simp [bytesAt]

@[simp] theorem getElem_bytesAt
    (memory : ℕ → BitVec 8) (address length byte : ℕ)
    (hbyte : byte < (bytesAt memory address length).length) :
    (bytesAt memory address length)[byte] = memory (address + byte) := by
  simp [bytesAt]

theorem bytesAt_congr
    {memory other : ℕ → BitVec 8} {address place length : ℕ}
    (hsame : ∀ byte, byte < length →
      memory (address + byte) = other (place + byte)) :
    bytesAt memory address length = bytesAt other place length := by
  unfold bytesAt
  apply List.map_congr_left
  intro byte hbyte
  exact hsame byte (List.mem_range.mp hbyte)

theorem storeBytes_bytesAt_inside
    (memory other : ℕ → BitVec 8) (place address : ℕ) {length byte : ℕ}
    (hbyte : byte < length) :
    storeBytes memory place (bytesAt other address length) (place + byte) =
      other (address + byte) := by
  rw [storeBytes_inside _ _ _ (by simpa using hbyte), getElem_bytesAt]

/-! ## Strings -/

/-- The string at an address, if it is closed among the first `room` bytes. -/
def stringAt (memory : ℕ → BitVec 8) : ℕ → ℕ → Option (List (BitVec 8))
  | _, 0 => none
  | address, room + 1 =>
      if memory address = 0 then some []
      else (stringAt memory (address + 1) room).map (memory address :: ·)

theorem stringAt_eq_some
    {memory : ℕ → BitVec 8} {text : List (BitVec 8)} {address room : ℕ}
    (htext : ∀ (byte : ℕ) (hbyte : byte < text.length),
      memory (address + byte) = text[byte])
    (hclosed : memory (address + text.length) = 0)
    (hzero : 0 ∉ text) (hroom : text.length < room) :
    stringAt memory address room = some text := by
  induction text generalizing address room with
  | nil =>
      cases room with
      | zero => simp at hroom
      | succ room =>
          rw [stringAt, if_pos (by simpa using hclosed)]
  | cons c text ih =>
      cases room with
      | zero => simp at hroom
      | succ room =>
          simp only [List.mem_cons, not_or] at hzero
          have hfirst : memory address = c := htext 0 (by simp)
          have hrest : stringAt memory (address + 1) room = some text := by
            apply ih
            · intro byte hbyte
              have hnext := htext (byte + 1) (by simpa using hbyte)
              rw [List.getElem_cons_succ] at hnext
              rw [← hnext, Nat.add_assoc, Nat.add_comm 1]
            · rwa [List.length_cons, Nat.add_comm text.length,
                ← Nat.add_assoc] at hclosed
            · exact hzero.2
            · simpa using hroom
          have hne : memory address ≠ 0 := by
            rw [hfirst]
            exact fun heq => hzero.1 heq.symm
          rw [stringAt, if_neg hne, hrest, hfirst]
          rfl

/-- A string that was copied with its closing zero is read back. -/
theorem stringAt_closed
    {memory : ℕ → BitVec 8} {text : List (BitVec 8)} {address room : ℕ}
    (hbytes : ∀ (byte : ℕ) (hbyte : byte < (text ++ [0]).length),
      memory (address + byte) = (text ++ [0])[byte])
    (hzero : 0 ∉ text) (hroom : text.length < room) :
    stringAt memory address room = some text := by
  apply stringAt_eq_some
  · intro byte hbyte
    rw [hbytes byte (by simp; omega), List.getElem_append_left hbyte]
  · rw [hbytes text.length (by simp),
      List.getElem_append_right (Nat.le_refl _)]
    simp
  · exact hzero
  · exact hroom

theorem stringAt_congr
    {memory other : ℕ → BitVec 8} {address place room : ℕ}
    (hsame : ∀ byte, byte < room →
      memory (address + byte) = other (place + byte)) :
    stringAt memory address room = stringAt other place room := by
  induction room generalizing address place with
  | zero => rfl
  | succ room ih =>
      have hfirst : memory address = other place := hsame 0 (by omega)
      have hrest :
          stringAt memory (address + 1) room =
            stringAt other (place + 1) room := by
        apply ih
        intro byte hbyte
        have hnext := hsame (byte + 1) (by omega)
        rwa [Nat.add_comm byte, ← Nat.add_assoc, ← Nat.add_assoc] at hnext
      rw [stringAt, stringAt, hfirst, hrest]

theorem stringAt_mono
    {memory : ℕ → BitVec 8} {address room larger : ℕ}
    {text : List (BitVec 8)} (hroom : room ≤ larger)
    (htext : stringAt memory address room = some text) :
    stringAt memory address larger = some text := by
  induction room generalizing address larger text with
  | zero => simp [stringAt] at htext
  | succ room ih =>
      cases larger with
      | zero => omega
      | succ larger =>
          rw [stringAt] at htext ⊢
          by_cases hzero : memory address = 0
          · rw [if_pos hzero] at htext ⊢
            exact htext
          · rw [if_neg hzero] at htext ⊢
            rw [Option.map_eq_some_iff] at htext
            rcases htext with ⟨rest, hrest, htext⟩
            rw [ih (by omega) hrest, Option.map_some, htext]

/-! ## Responses -/

/-- A value of `struct _Response`. -/
structure ResponseValue where
  index : BitVec 32
  dataSize : BitVec 32
  data : Fin 4096 → BitVec 8
  test2 : BitVec 32
  test3 : BitVec 32
  test4 : BitVec 32

def loadResponse (memory : ℕ → BitVec 8) (address : ℕ) : ResponseValue where
  index := loadInt memory (address + Response.index)
  dataSize := loadInt memory (address + Response.dataSize)
  data := fun byte => memory (address + Response.data + byte)
  test2 := loadInt memory (address + Response.test2)
  test3 := loadInt memory (address + Response.test3)
  test4 := loadInt memory (address + Response.test4)

theorem loadResponse_congr
    {memory other : ℕ → BitVec 8} {address place : ℕ}
    (hsame : ∀ byte, byte < Response.size →
      memory (address + byte) = other (place + byte)) :
    loadResponse memory address = loadResponse other place := by
  have hfield : ∀ field, field + 4 ≤ Response.size →
      loadInt memory (address + field) = loadInt other (place + field) := by
    intro field hinside
    apply loadInt_congr
    intro byte hbyte
    rw [Nat.add_assoc, Nat.add_assoc]
    exact hsame _ (by omega)
  have hdata : ∀ byte : Fin 4096,
      memory (address + Response.data + byte) =
        other (place + Response.data + byte) := by
    intro byte
    have hinside : Response.data + 4096 ≤ Response.size := by decide
    rw [Nat.add_assoc, Nat.add_assoc]
    exact hsame _ (by omega)
  unfold loadResponse
  rw [hfield Response.index (by decide), hfield Response.dataSize (by decide),
    hfield Response.test2 (by decide), hfield Response.test3 (by decide),
    hfield Response.test4 (by decide), funext hdata]

/-- What the kernel makes of a request: the numbers a hundred times as large,
up to overflow, and its own string in front of the data. -/
def ResponseValue.answered (request : ResponseValue) : ResponseValue where
  index := request.index * 100
  dataSize := request.dataSize * 100
  data := fun byte => dataFromKernel.getD byte (request.data byte)
  test2 := request.test2 * 100
  test3 := request.test3 * 100
  test4 := request.test4 * 100

theorem loadInt_scaleField
    (memory : ℕ → BitVec 8) (field : ℕ) :
    loadInt (scaleField memory field) (nlmsgHdrLen + field) =
      loadInt memory (nlmsgHdrLen + field) * 100 :=
  loadInt_storeInt memory _ _

theorem loadInt_scaleField_disjoint
    (memory : ℕ → BitVec 8) {field wanted : ℕ}
    (hdisjoint : wanted + 4 ≤ field ∨ field + 4 ≤ wanted) :
    loadInt (scaleField memory field) (nlmsgHdrLen + wanted) =
      loadInt memory (nlmsgHdrLen + wanted) :=
  loadInt_storeInt_disjoint memory _ (by omega)

theorem scaleField_outside
    (memory : ℕ → BitVec 8) {field byte : ℕ}
    (houtside : byte < field ∨ field + 4 ≤ byte) :
    scaleField memory field (nlmsgHdrLen + byte) =
      memory (nlmsgHdrLen + byte) :=
  storeInt_outside (by omega)

/-- The data after the string was copied over it. -/
theorem storeBytes_data
    (memory : ℕ → BitVec 8) (byte : ℕ) :
    storeBytes memory (nlmsgHdrLen + Response.data) dataFromKernel
        (nlmsgHdrLen + Response.data + byte) =
      dataFromKernel.getD byte (memory (nlmsgHdrLen + Response.data + byte)) := by
  by_cases hbyte : byte < dataFromKernel.length
  · rw [storeBytes_inside _ _ _ hbyte]
    simp [hbyte]
  · rw [storeBytes_outside (Or.inr (by omega))]
    simp [hbyte]

theorem loadInt_storeBytes_data
    (memory : ℕ → BitVec 8) {wanted : ℕ}
    (hdisjoint : wanted + 4 ≤ Response.data ∨ Response.test2 ≤ wanted) :
    loadInt (storeBytes memory (nlmsgHdrLen + Response.data) dataFromKernel)
        (nlmsgHdrLen + wanted) =
      loadInt memory (nlmsgHdrLen + wanted) := by
  have hfits : Response.data + dataFromKernel.length ≤ Response.test2 := by
    decide
  exact loadInt_storeBytes_disjoint memory _ (by omega)

theorem editRequest_index (memory : ℕ → BitVec 8) :
    loadInt (editRequest memory) (nlmsgHdrLen + Response.index) =
      loadInt memory (nlmsgHdrLen + Response.index) * 100 := by
  simp only [editRequest]
  rw [loadInt_scaleField_disjoint _ (by decide),
    loadInt_scaleField_disjoint _ (by decide),
    loadInt_scaleField_disjoint _ (by decide),
    loadInt_storeBytes_data _ (by decide),
    loadInt_scaleField_disjoint _ (by decide), loadInt_scaleField]

theorem editRequest_dataSize (memory : ℕ → BitVec 8) :
    loadInt (editRequest memory) (nlmsgHdrLen + Response.dataSize) =
      loadInt memory (nlmsgHdrLen + Response.dataSize) * 100 := by
  simp only [editRequest]
  rw [loadInt_scaleField_disjoint _ (by decide),
    loadInt_scaleField_disjoint _ (by decide),
    loadInt_scaleField_disjoint _ (by decide),
    loadInt_storeBytes_data _ (by decide), loadInt_scaleField,
    loadInt_scaleField_disjoint _ (by decide)]

/-- The fields behind the data are reached after the string was copied. -/
theorem loadInt_data_edited
    (memory : ℕ → BitVec 8) {wanted : ℕ} (hbehind : Response.test2 ≤ wanted) :
    loadInt
        (storeBytes
          (scaleField (scaleField memory Response.index) Response.dataSize)
          (nlmsgHdrLen + Response.data) dataFromKernel)
        (nlmsgHdrLen + wanted) =
      loadInt memory (nlmsgHdrLen + wanted) := by
  have hindex : Response.index + 4 ≤ Response.test2 := by decide
  have hdataSize : Response.dataSize + 4 ≤ Response.test2 := by decide
  rw [loadInt_storeBytes_data _ (Or.inr hbehind),
    loadInt_scaleField_disjoint _ (Or.inr (by omega)),
    loadInt_scaleField_disjoint _ (Or.inr (by omega))]

theorem editRequest_data (memory : ℕ → BitVec 8) (byte : Fin 4096) :
    editRequest memory (nlmsgHdrLen + Response.data + byte) =
      dataFromKernel.getD byte
        (memory (nlmsgHdrLen + Response.data + byte)) := by
  have hinside : Response.data + byte < Response.test2 :=
    Nat.add_lt_add_left byte.isLt _
  have htest3 : Response.test2 ≤ Response.test3 := by decide
  have htest4 : Response.test2 ≤ Response.test4 := by decide
  have hindex : Response.index + 4 ≤ Response.data := by decide
  have hdataSize : Response.dataSize + 4 ≤ Response.data := by decide
  simp only [editRequest]
  rw [Nat.add_assoc, scaleField_outside _ (Or.inl (by omega)),
    scaleField_outside _ (Or.inl (by omega)),
    scaleField_outside _ (Or.inl hinside), ← Nat.add_assoc, storeBytes_data,
    Nat.add_assoc, scaleField_outside _ (Or.inr (by omega)),
    scaleField_outside _ (Or.inr (by omega))]

theorem loadResponse_editRequest (memory : ℕ → BitVec 8) :
    loadResponse (editRequest memory) nlmsgHdrLen =
      (loadResponse memory nlmsgHdrLen).answered := by
  have htest2 :
      loadInt (editRequest memory) (nlmsgHdrLen + Response.test2) =
        loadInt memory (nlmsgHdrLen + Response.test2) * 100 := by
    simp only [editRequest]
    rw [loadInt_scaleField_disjoint _ (by decide),
      loadInt_scaleField_disjoint _ (by decide), loadInt_scaleField,
      loadInt_data_edited _ (by decide)]
  have htest3 :
      loadInt (editRequest memory) (nlmsgHdrLen + Response.test3) =
        loadInt memory (nlmsgHdrLen + Response.test3) * 100 := by
    simp only [editRequest]
    rw [loadInt_scaleField_disjoint _ (by decide), loadInt_scaleField,
      loadInt_scaleField_disjoint _ (by decide),
      loadInt_data_edited _ (by decide)]
  have htest4 :
      loadInt (editRequest memory) (nlmsgHdrLen + Response.test4) =
        loadInt memory (nlmsgHdrLen + Response.test4) * 100 := by
    simp only [editRequest]
    rw [loadInt_scaleField, loadInt_scaleField_disjoint _ (by decide),
      loadInt_scaleField_disjoint _ (by decide),
      loadInt_data_edited _ (by decide)]
  unfold loadResponse ResponseValue.answered
  rw [editRequest_index, editRequest_dataSize, htest2, htest3, htest4,
    funext (editRequest_data memory)]

/-! ## Messages -/

def nlmsgDone : BitVec 16 := 3

/-- `NLMSG_ALIGN`. -/
def nlmsgAlign (length : ℕ) : ℕ := (length + 3) / 4 * 4

/-- `NLMSG_SPACE`. -/
def nlmsgSpace (length : ℕ) : ℕ := nlmsgAlign (nlmsgHdrLen + length)

def shortBytes (value : BitVec 16) : List (BitVec 8) :=
  [value.extractLsb' 0 8, value.extractLsb' 8 8]

def intBytes (value : BitVec 32) : List (BitVec 8) :=
  [value.extractLsb' 0 8, value.extractLsb' 8 8, value.extractLsb' 16 8,
    value.extractLsb' 24 8]

/-- A value of `struct nlmsghdr`. -/
def headerBytes
    (length : ℕ) (type flags : BitVec 16) (seq pid : BitVec 32) :
    List (BitVec 8) :=
  intBytes (BitVec.ofNat 32 length) ++ shortBytes type ++ shortBytes flags ++
    intBytes seq ++ intBytes pid

@[simp] theorem length_headerBytes
    (length : ℕ) (type flags : BitVec 16) (seq pid : BitVec 32) :
    (headerBytes length type flags seq pid).length = nlmsgHdrLen := by
  simp [headerBytes, intBytes, shortBytes, nlmsgHdrLen]

/-- A buffer after `nlmsg_put` and the copying of the payload.  The last word
is filled with zeros. -/
def nlmsgPut
    (portid seq : BitVec 32) (type : BitVec 16) (payload : List (BitVec 8))
    (flags : BitVec 16) : List (BitVec 8) :=
  headerBytes (nlmsgHdrLen + payload.length) type flags seq portid ++
    (payload ++
      List.replicate (nlmsgAlign payload.length - payload.length) 0)

/-- `recvmsg` into a buffer of the given size. -/
def receive (buffer : ℕ → BitVec 8) (size : ℕ) (message : List (BitVec 8)) :
    ℕ → BitVec 8 :=
  storeBytes buffer 0 (message.take size)

section Receiving

variable {portid seq : BitVec 32} {type flags : BitVec 16}
  {payload : List (BitVec 8)}

theorem nlmsgPut_getElem {byte : ℕ} (hbyte : byte < payload.length) :
    (nlmsgPut portid seq type payload flags)[nlmsgHdrLen + byte]? =
      some payload[byte] := by
  unfold nlmsgPut
  rw [List.getElem?_append_right (by simp), length_headerBytes,
    Nat.add_sub_cancel_left, List.getElem?_append_left hbyte,
    List.getElem?_eq_getElem hbyte]

theorem receive_payload
    (buffer : ℕ → BitVec 8) {size byte : ℕ} (hbyte : byte < payload.length)
    (hsize : nlmsgHdrLen + payload.length ≤ size) :
    receive buffer size (nlmsgPut portid seq type payload flags)
        (nlmsgHdrLen + byte) =
      payload[byte] := by
  have hput : (nlmsgPut portid seq type payload flags)[nlmsgHdrLen + byte]? =
      some payload[byte] := nlmsgPut_getElem hbyte
  have hlength := (List.getElem?_eq_some_iff.mp hput).1
  have hinside : nlmsgHdrLen + byte <
      ((nlmsgPut portid seq type payload flags).take size).length := by
    rw [List.length_take]
    omega
  have hstored := storeBytes_inside buffer 0 _ hinside
  rw [Nat.zero_add] at hstored
  rw [receive, hstored, List.getElem_take]
  exact (List.getElem?_eq_some_iff.mp hput).2

end Receiving

/-- The callback answers the sender that the header names.  Whoever has room
for the answer takes the edited request out of it, whatever the buffer held and
whatever lies behind the message of the kernel. -/
theorem callback_answered
    (memory buffer : ℕ → BitVec 8) {size : ℕ}
    (hsize : nlmsgHdrLen + Response.size ≤ size) :
    ∃ reply,
      callbackInvokedConnectUserspace memory true = some reply ∧
      reply.pid = loadInt memory nlmsgPid ∧
      loadResponse
          (receive buffer size (nlmsgPut 0 0 nlmsgDone reply.payload 0))
          nlmsgHdrLen =
        (loadResponse memory nlmsgHdrLen).answered := by
  refine ⟨⟨loadInt memory nlmsgPid,
    bytesAt (editRequest memory) nlmsgHdrLen Response.size⟩, rfl, rfl, ?_⟩
  rw [← loadResponse_editRequest]
  apply loadResponse_congr
  intro byte hbyte
  rw [receive_payload _ (by simpa using hbyte) (by simpa using hsize),
    getElem_bytesAt]

/-- A request whose bytes are counted up from one. -/
theorem callback_answered_counted :
    ∃ reply,
      callbackInvokedConnectUserspace
          (fun address => BitVec.ofNat 8 (address + 1)) true = some reply ∧
      reply.pid = 0x100f0e0d ∧
      loadResponse
          (receive (fun _ => 0xff) 8208
            (nlmsgPut 0 0 nlmsgDone reply.payload 0))
          nlmsgHdrLen =
        (loadResponse (fun address => BitVec.ofNat 8 (address + 1))
          nlmsgHdrLen).answered := by
  obtain ⟨reply, hreply, hpid, hresponse⟩ := callback_answered
    (fun address => BitVec.ofNat 8 (address + 1)) (fun _ => 0xff)
    (show nlmsgHdrLen + Response.size ≤ 8208 by decide)
  exact ⟨reply, hreply, hpid.trans (by decide), hresponse⟩

end LinuxKernelCode.Netlink
