import LinuxKernelCode.DecimalText
import LinuxKernelCode.NetlinkMessages

/-!
# Registration over a netlink socket

`registration_kernel` of the user space test sends a `Response` to the kernel
module and prints the `Response` that comes back.  It looks at the result of
`socket` only.  The variable it sends is not cleared, the buffer is used for
the request and for the answer, and the module answers to the address in the
message and not to the one the message came from.

The module proves what both sides print for every outcome of the calls,
whatever was on the stack, on the heap and behind the message before.
-/

namespace LinuxKernelCode.Netlink

open LinuxKernelCode.DecimalText

abbrev Text := List Char

def textOf (bytes : List (BitVec 8)) : Text :=
  bytes.map fun byte => Char.ofNat byte.toNat

/-! ## Printing a response -/

def fieldLines
    (index dataSize : ℤ) (data : Text) (test2 test3 test4 : ℤ) : List Text :=
  ["index ".toList ++ decimal index ++ [newline],
    "dataSize ".toList ++ decimal dataSize ++ [newline],
    "data: ".toList ++ data ++ [newline],
    "test2 ".toList ++ decimal test2 ++ [newline],
    "test3 ".toList ++ decimal test3 ++ [newline],
    "test4 ".toList ++ decimal test4 ++ [newline]]

def ResponseValue.lines (response : ResponseValue) (data : Text) :
    List Text :=
  fieldLines response.index.toInt response.dataSize.toInt data
    response.test2.toInt response.test3.toInt response.test4.toInt

/-- The lines both programs print about a response, if its string is closed
among the `room` bytes that are there. -/
def responseLines (memory : ℕ → BitVec 8) (address room : ℕ) :
    Option (List Text) :=
  (stringAt memory (address + Response.data) (room - Response.data)).map
    fun data => (loadResponse memory address).lines (textOf data)

/-- What `callback_invoked_connect_userspace` prints about a message of the
given length. -/
def callbackLog
    (memory : ℕ → BitVec 8) (length : ℕ) (nlmsgNew unicast : Bool) :
    Option (List Text) := do
  let room := length - nlmsgHdrLen
  let received ← responseLines memory nlmsgHdrLen room
  let opening :=
    ["Entering: callback_invoked_connect_userspace\n".toList,
      "Recieved from Userspace:\n".toList] ++ received
  if nlmsgNew then
    let sending ← responseLines (editRequest memory) nlmsgHdrLen room
    let closing :=
      if unicast then [] else ["Error while sending bak to user\n".toList]
    pure (opening ++ ["Sending to Userspace:\n".toList] ++ sending ++ closing)
  else pure (opening ++ ["Failed to allocate new skb\n".toList])

/-! ## The client -/

def maxPayload : ℕ := 8192

/-- The offset of `nlmsg_flags` in the header. -/
def nlmsgFlags : ℕ := 6

/-- The string `Data from User` with its closing zero. -/
def dataFromUser : List (BitVec 8) :=
  [68, 97, 116, 97, 32, 102, 114, 111, 109, 32, 85, 115, 101, 114, 0]

/-- The variable `p`.  What is not assigned is what the stack held. -/
def fillRequest (stack : ℕ → BitVec 8) : ℕ → BitVec 8 :=
  let p := storeInt stack Response.index 1
  let p := storeInt p Response.dataSize 2
  let p := storeBytes p Response.data dataFromUser
  let p := storeInt p Response.test2 3
  let p := storeInt p Response.test3 4
  storeInt p Response.test4 5

/-- The buffer `nlh`, cleared and with its header. -/
def prepareBuffer (heap : ℕ → BitVec 8) (pid : BitVec 32) : ℕ → BitVec 8 :=
  let nlh := storeBytes heap 0 (List.replicate (nlmsgSpace maxPayload) 0)
  let nlh := storeInt nlh 0 (BitVec.ofNat 32 (nlmsgSpace maxPayload))
  let nlh := storeInt nlh nlmsgPid pid
  storeBytes nlh nlmsgFlags (shortBytes 0)

/-- The buffer with the response copied behind the header. -/
def requestBuffer (pid : BitVec 32) (stack heap : ℕ → BitVec 8) :
    ℕ → BitVec 8 :=
  storeBytes (prepareBuffer heap pid) nlmsgHdrLen
    (bytesAt (fillRequest stack) 0 Response.size)

/-- How the calls of `registration_kernel` and of the callback turn out.  A
socket that was not bound is given the address `autobind` when it sends. -/
structure Calls where
  socket : ℤ
  bind : Bool
  autobind : BitVec 32
  malloc : Bool
  sendmsg : Bool
  nlmsgNew : Bool
  unicast : Bool
  recvmsg : Bool
  deriving DecidableEq, Repr

inductive Ending where
  | returned (code : ℤ)
  | waiting
  | fault
  deriving DecidableEq, Repr

/-- What the client has printed and how it ends, and what the kernel has
logged.  There is no log if the kernel reads a string past the message. -/
structure Conversation where
  printed : List Text
  log : Option (List Text)
  ending : Ending
  deriving DecidableEq, Repr

def receivedLines (pointer : Text) : List Text :=
  ["Received message payload: ".toList ++ pointer ++ [newline],
    "Recieved from Kernel:\n".toList]

def sendingLines (sent : List Text) : List Text :=
  ["Sending to Kernel:\n".toList] ++ sent ++
    ["Sending message to kernel\n".toList,
      "Waiting for message from kernel\n".toList]

/-- The message as the kernel finds it. -/
def sendmsg (behind nlh : ℕ → BitVec 8) : ℕ → BitVec 8 :=
  storeBytes behind 0 (bytesAt nlh 0 (nlmsgSpace maxPayload))

/-- The answer that waits at the socket of the client. -/
def Calls.answer
    (calls : Calls) (pid : BitVec 32) (skb : ℕ → BitVec 8) : Option Reply :=
  let address := if calls.bind then pid else calls.autobind
  if calls.sendmsg then
    (callbackInvokedConnectUserspace skb calls.nlmsgNew).filter fun reply =>
      calls.unicast && reply.pid = address
  else none

def Calls.log (calls : Calls) (skb : ℕ → BitVec 8) : Option (List Text) :=
  if calls.sendmsg then
    callbackLog skb (nlmsgSpace maxPayload) calls.nlmsgNew calls.unicast
  else some []

/-- The end of `registration_kernel`, after `recvmsg`. -/
def printReceived
    (pointer : Text) (nlh : ℕ → BitVec 8) (printed : List Text)
    (log : Option (List Text)) : Conversation :=
  match responseLines nlh nlmsgHdrLen maxPayload with
  | none => ⟨printed ++ receivedLines pointer, log, .fault⟩
  | some lines =>
      ⟨printed ++ receivedLines pointer ++ lines, log, .returned 0⟩

def registrationKernel
    (calls : Calls) (pid : BitVec 32) (pointer : Text)
    (stack heap behind : ℕ → BitVec 8) : Conversation :=
  if calls.socket < 0 then ⟨[], some [], .returned (-1)⟩
  else if !calls.malloc then ⟨[], some [], .fault⟩
  else
    match responseLines (fillRequest stack) 0 Response.size with
    | none => ⟨["Sending to Kernel:\n".toList], some [], .fault⟩
    | some sent =>
        let nlh := requestBuffer pid stack heap
        let printed := sendingLines sent
        let skb := sendmsg behind nlh
        let log := calls.log skb
        if calls.recvmsg then
          match calls.answer pid skb with
          | none => ⟨printed, log, .waiting⟩
          | some reply =>
              let nlh := receive nlh (nlmsgSpace maxPayload)
                (nlmsgPut 0 0 nlmsgDone reply.payload 0)
              printReceived pointer nlh printed log
        else printReceived pointer nlh printed log

/-! ## What is printed -/

/-- The lines of a response do not change when it is copied to where there is
as much room. -/
theorem responseLines_copy
    {memory other : ℕ → BitVec 8} {address place room : ℕ}
    {lines : List Text}
    (hsame : ∀ byte, byte < Response.size →
      memory (address + byte) = other (place + byte))
    (hroom : Response.size ≤ room)
    (hlines : responseLines other place Response.size = some lines) :
    responseLines memory address room = some lines := by
  have hstring : stringAt memory (address + Response.data)
        (Response.size - Response.data) =
      stringAt other (place + Response.data)
        (Response.size - Response.data) := by
    apply stringAt_congr
    intro byte hbyte
    rw [Nat.add_assoc, Nat.add_assoc]
    exact hsame _ (by omega)
  unfold responseLines at hlines ⊢
  rw [loadResponse_congr hsame]
  rw [Option.map_eq_some_iff] at hlines
  rcases hlines with ⟨data, hdata, hlines⟩
  rw [← hstring] at hdata
  rw [stringAt_mono (by omega) hdata, Option.map_some, hlines]

def requestLines : List Text :=
  fieldLines 1 2 "Data from User".toList 3 4 5

def answerLines : List Text :=
  fieldLines 100 200 "Data from Kernel".toList 300 400 500

theorem fillRequest_data
    (stack : ℕ → BitVec 8) {byte : ℕ} (hbyte : byte < dataFromUser.length) :
    fillRequest stack (Response.data + byte) = dataFromUser[byte] := by
  have hfits : Response.data + dataFromUser.length ≤ Response.test2 := by
    decide
  have htest3 : Response.test2 ≤ Response.test3 := by decide
  have htest4 : Response.test2 ≤ Response.test4 := by decide
  simp only [fillRequest]
  rw [storeInt_outside (Or.inl (by omega)),
    storeInt_outside (Or.inl (by omega)),
    storeInt_outside (Or.inl (by omega)), storeBytes_inside _ _ _ hbyte]

theorem loadResponse_fillRequest (stack : ℕ → BitVec 8) :
    loadResponse (fillRequest stack) 0 =
      ⟨1, 2, (loadResponse (fillRequest stack) 0).data, 3, 4, 5⟩ := by
  have hindex : loadInt (fillRequest stack) (0 + Response.index) = 1 := by
    simp only [fillRequest]
    rw [loadInt_storeInt_disjoint _ _ (by decide),
      loadInt_storeInt_disjoint _ _ (by decide),
      loadInt_storeInt_disjoint _ _ (by decide),
      loadInt_storeBytes_disjoint _ _ (by decide),
      loadInt_storeInt_disjoint _ _ (by decide), Nat.zero_add,
      loadInt_storeInt]
  have hdataSize : loadInt (fillRequest stack) (0 + Response.dataSize) = 2 := by
    simp only [fillRequest]
    rw [loadInt_storeInt_disjoint _ _ (by decide),
      loadInt_storeInt_disjoint _ _ (by decide),
      loadInt_storeInt_disjoint _ _ (by decide),
      loadInt_storeBytes_disjoint _ _ (by decide), Nat.zero_add,
      loadInt_storeInt]
  have htest2 : loadInt (fillRequest stack) (0 + Response.test2) = 3 := by
    simp only [fillRequest]
    rw [loadInt_storeInt_disjoint _ _ (by decide),
      loadInt_storeInt_disjoint _ _ (by decide), Nat.zero_add,
      loadInt_storeInt]
  have htest3 : loadInt (fillRequest stack) (0 + Response.test3) = 4 := by
    simp only [fillRequest]
    rw [loadInt_storeInt_disjoint _ _ (by decide), Nat.zero_add,
      loadInt_storeInt]
  have htest4 : loadInt (fillRequest stack) (0 + Response.test4) = 5 := by
    simp only [fillRequest]
    rw [Nat.zero_add, loadInt_storeInt]
  simp only [loadResponse, hindex, hdataSize, htest2, htest3, htest4]

theorem responseLines_fillRequest (stack : ℕ → BitVec 8) :
    responseLines (fillRequest stack) 0 Response.size = some requestLines := by
  have hdata :
      stringAt (fillRequest stack) (0 + Response.data)
          (Response.size - Response.data) =
        some dataFromUser.dropLast := by
    apply stringAt_closed
    · intro byte hbyte
      rw [Nat.zero_add]
      exact fillRequest_data stack hbyte
    · decide
    · decide
  rw [responseLines, hdata, loadResponse_fillRequest]
  rfl

/-- The lines about an edited request, whatever its string was. -/
theorem responseLines_editRequest
    (memory : ℕ → BitVec 8) {room : ℕ} (hroom : Response.size ≤ room) :
    responseLines (editRequest memory) nlmsgHdrLen room =
      some ((loadResponse memory nlmsgHdrLen).answered.lines
        "Data from Kernel".toList) := by
  have hsize : dataFromKernel.length < Response.size - Response.data := by
    decide
  have hdata :
      stringAt (editRequest memory) (nlmsgHdrLen + Response.data)
          (room - Response.data) =
        some dataFromKernel.dropLast := by
    apply stringAt_closed
    · intro byte hbyte
      have hinside : byte < dataFromKernel.length := hbyte
      have hbound : dataFromKernel.length ≤ 4096 := by decide
      rw [editRequest_data memory ⟨byte, by omega⟩,
        List.getD_eq_getElem?_getD, List.getElem?_eq_getElem hinside]
      rfl
    · decide
    · rw [List.length_dropLast]
      omega
  rw [responseLines, hdata, loadResponse_editRequest]
  rfl

/-! ## The whole conversation -/

section Request

variable (pid : BitVec 32) (stack heap behind : ℕ → BitVec 8)

theorem requestBuffer_payload {byte : ℕ} (hbyte : byte < Response.size) :
    requestBuffer pid stack heap (nlmsgHdrLen + byte) =
      fillRequest stack (0 + byte) :=
  storeBytes_bytesAt_inside _ _ _ _ hbyte

theorem loadInt_requestBuffer_pid :
    loadInt (requestBuffer pid stack heap) nlmsgPid = pid := by
  simp only [requestBuffer, prepareBuffer]
  rw [loadInt_storeBytes_disjoint _ _ (Or.inl (by decide)),
    loadInt_storeBytes_disjoint _ _ (Or.inr (by decide)), loadInt_storeInt]

theorem sendmsg_same
    (nlh : ℕ → BitVec 8) {address : ℕ}
    (hinside : address < nlmsgSpace maxPayload) :
    sendmsg behind nlh address = nlh address := by
  have hcopied := storeBytes_bytesAt_inside behind nlh 0 0 hinside
  rwa [Nat.zero_add] at hcopied

theorem sendmsg_payload {byte : ℕ} (hbyte : byte < Response.size) :
    sendmsg behind (requestBuffer pid stack heap) (nlmsgHdrLen + byte) =
      fillRequest stack (0 + byte) := by
  have hspace : nlmsgHdrLen + Response.size ≤ nlmsgSpace maxPayload := by
    decide
  rw [sendmsg_same _ _ (by omega), requestBuffer_payload _ _ _ hbyte]

theorem loadInt_sendmsg_pid :
    loadInt (sendmsg behind (requestBuffer pid stack heap)) nlmsgPid = pid := by
  have hspace : nlmsgPid + 4 ≤ nlmsgSpace maxPayload := by decide
  have hcopied :
      loadInt (sendmsg behind (requestBuffer pid stack heap)) nlmsgPid =
        loadInt (requestBuffer pid stack heap) nlmsgPid := by
    apply loadInt_congr
    intro byte hbyte
    exact sendmsg_same _ _ (by omega)
  rw [hcopied, loadInt_requestBuffer_pid]

theorem responseLines_requestBuffer :
    responseLines (requestBuffer pid stack heap) nlmsgHdrLen maxPayload =
      some requestLines :=
  responseLines_copy (fun _ hbyte => requestBuffer_payload pid stack heap hbyte)
    (by decide) (responseLines_fillRequest stack)

theorem responseLines_sendmsg {room : ℕ} (hroom : Response.size ≤ room) :
    responseLines (sendmsg behind (requestBuffer pid stack heap)) nlmsgHdrLen
        room =
      some requestLines :=
  responseLines_copy
    (fun _ hbyte => sendmsg_payload pid stack heap behind hbyte) hroom
    (responseLines_fillRequest stack)

theorem responseLines_answer {room : ℕ} (hroom : Response.size ≤ room) :
    responseLines (editRequest (sendmsg behind (requestBuffer pid stack heap)))
        nlmsgHdrLen room =
      some answerLines := by
  have hrequest :
      loadResponse (sendmsg behind (requestBuffer pid stack heap))
          nlmsgHdrLen =
        loadResponse (fillRequest stack) 0 :=
    loadResponse_congr
      (fun _ hbyte => sendmsg_payload pid stack heap behind hbyte)
  rw [responseLines_editRequest _ hroom, hrequest, loadResponse_fillRequest]
  simp only [ResponseValue.answered, ResponseValue.lines, answerLines]
  rw [show (1 * 100 : BitVec 32).toInt = 100 by decide,
    show (2 * 100 : BitVec 32).toInt = 200 by decide,
    show (3 * 100 : BitVec 32).toInt = 300 by decide,
    show (4 * 100 : BitVec 32).toInt = 400 by decide,
    show (5 * 100 : BitVec 32).toInt = 500 by decide]

/-- The answer is printed from the buffer that held the request. -/
theorem responseLines_received :
    responseLines
        (receive (requestBuffer pid stack heap) (nlmsgSpace maxPayload)
          (nlmsgPut 0 0 nlmsgDone
            (bytesAt
              (editRequest (sendmsg behind (requestBuffer pid stack heap)))
              nlmsgHdrLen Response.size) 0))
        nlmsgHdrLen maxPayload =
      some answerLines := by
  have hspace : nlmsgHdrLen + Response.size ≤ nlmsgSpace maxPayload := by
    decide
  have hroom : Response.size ≤ maxPayload := by decide
  refine responseLines_copy ?_ hroom
    (responseLines_answer pid stack heap behind (Nat.le_refl _))
  intro byte hbyte
  rw [receive_payload _ (by simpa using hbyte) (by simpa using hspace),
    getElem_bytesAt]

end Request

/-- The answer reaches the client. -/
def Calls.Answered (calls : Calls) (pid : BitVec 32) : Prop :=
  calls.sendmsg ∧ calls.nlmsgNew ∧ calls.unicast ∧
    (calls.bind ∨ calls.autobind = pid)

instance (calls : Calls) (pid : BitVec 32) : Decidable (calls.Answered pid) :=
  inferInstanceAs (Decidable (_ ∧ _ ∧ _ ∧ (_ ∨ _)))

/-- The log of the kernel as it should be. -/
def Calls.expectedLog (calls : Calls) : List Text :=
  let opening :=
    ["Entering: callback_invoked_connect_userspace\n".toList,
      "Recieved from Userspace:\n".toList] ++ requestLines
  if calls.sendmsg then
    if calls.nlmsgNew then
      opening ++ ["Sending to Userspace:\n".toList] ++ answerLines ++
        if calls.unicast then []
        else ["Error while sending bak to user\n".toList]
    else opening ++ ["Failed to allocate new skb\n".toList]
  else []

/-- The conversation in terms of the outcomes alone. -/
def Calls.conversation (calls : Calls) (pid : BitVec 32) (pointer : Text) :
    Conversation :=
  if calls.socket < 0 then ⟨[], some [], .returned (-1)⟩
  else if !calls.malloc then ⟨[], some [], .fault⟩
  else if calls.recvmsg then
    if calls.Answered pid then
      ⟨sendingLines requestLines ++ receivedLines pointer ++ answerLines,
        some calls.expectedLog, .returned 0⟩
    else ⟨sendingLines requestLines, some calls.expectedLog, .waiting⟩
  else
    ⟨sendingLines requestLines ++ receivedLines pointer ++ requestLines,
      some calls.expectedLog, .returned 0⟩

theorem log_conversation
    (calls : Calls) (pid : BitVec 32) (stack heap behind : ℕ → BitVec 8) :
    calls.log (sendmsg behind (requestBuffer pid stack heap)) =
      some calls.expectedLog := by
  have hroom : Response.size ≤ nlmsgSpace maxPayload - nlmsgHdrLen := by
    decide
  have hreceived := responseLines_sendmsg pid stack heap behind hroom
  have hsending := responseLines_answer pid stack heap behind hroom
  unfold Calls.log Calls.expectedLog
  cases calls.sendmsg with
  | false => rfl
  | true =>
      cases calls.nlmsgNew with
      | false =>
          simp only [callbackLog, hreceived, Option.bind_eq_bind,
            Option.bind_some, if_true]
          rfl
      | true =>
          simp only [callbackLog, hreceived, hsending, Option.bind_eq_bind,
            Option.bind_some, if_true]
          rfl

theorem answer_conversation
    (calls : Calls) (pid : BitVec 32) (stack heap behind : ℕ → BitVec 8) :
    calls.answer pid (sendmsg behind (requestBuffer pid stack heap)) =
      if calls.Answered pid then
        some ⟨pid, bytesAt
          (editRequest (sendmsg behind (requestBuffer pid stack heap)))
          nlmsgHdrLen Response.size⟩
      else none := by
  have hpid := loadInt_sendmsg_pid pid stack heap behind
  cases hsendmsg : calls.sendmsg with
  | false => simp [Calls.answer, Calls.Answered, hsendmsg]
  | true =>
      cases hnew : calls.nlmsgNew with
      | false =>
          simp [Calls.answer, Calls.Answered, hnew,
            callbackInvokedConnectUserspace]
      | true =>
          simp only [Calls.answer, Calls.Answered, hsendmsg, hnew, hpid,
            callbackInvokedConnectUserspace, if_true, true_and,
            Option.filter_some]
          have hdelivered :
              ((calls.unicast && decide (pid =
                if calls.bind = true then pid else calls.autobind)) = true) ↔
              calls.unicast = true ∧
                (calls.bind = true ∨ calls.autobind = pid) := by
            cases calls.bind with
            | false =>
                simp only [Bool.and_eq_true, decide_eq_true_eq,
                  Bool.false_eq_true, if_false, false_or]
                exact and_congr_right fun _ => eq_comm
            | true => simp
          simp only [hdelivered]
          rfl

/-- What both sides print, and how the client ends, depends on the outcomes of
the calls alone.  A `recvmsg` that fails makes the client print its own request
for the answer. -/
theorem registrationKernel_conversation
    (calls : Calls) (pid : BitVec 32) (pointer : Text)
    (stack heap behind : ℕ → BitVec 8) :
    registrationKernel calls pid pointer stack heap behind =
      calls.conversation pid pointer := by
  unfold registrationKernel Calls.conversation
  rw [responseLines_fillRequest]
  simp only [log_conversation, answer_conversation, printReceived,
    responseLines_requestBuffer]
  by_cases hanswered : calls.Answered pid
  · simp only [hanswered, if_true, responseLines_received]
  · simp only [hanswered, if_false]

end LinuxKernelCode.Netlink
