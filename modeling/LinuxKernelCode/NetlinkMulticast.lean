import LinuxKernelCode.NetlinkRegistration
import LinuxKernelCode.StepRuns
import Mathlib.Logic.Function.Basic

/-!
# Multicast messages and their readers

`multicast_start` fills a fresh `struct multicast_mesg`, copies it into a
message and sends the message to a group.  Any number of readers join the group
and run `read_event_from_kernel` in a loop.  What the group delivers to whom,
and how the calls turn out, is left open.

Every reader takes messages the thread has sent, in the order it sent them and
each at most once, and prints the two strings of the structure.  The rest of
the structure is never written, and every message gives away exactly those
bytes of kernel memory.
-/

namespace LinuxKernelCode.Netlink

open LinuxKernelCode.DecimalText
open LinuxKernelCode.Runs

/-! ## The message -/

namespace MulticastMesg

def name : ℕ := 0

def process : ℕ := name + 1024

def size : ℕ := process + 1024

end MulticastMesg

/-- The string `Hello From Kernel` with its closing zero. -/
def helloFromKernel : List (BitVec 8) :=
  [72, 101, 108, 108, 111, 32, 70, 114, 111, 109, 32, 75, 101, 114, 110, 101,
    108, 0]

/-- The string `World of NetLink` with its closing zero. -/
def worldOfNetLink : List (BitVec 8) :=
  [87, 111, 114, 108, 100, 32, 111, 102, 32, 78, 101, 116, 76, 105, 110, 107,
    0]

/-- The structure in fresh memory. -/
def fillMesg (fresh : ℕ → BitVec 8) : ℕ → BitVec 8 :=
  let msg := storeBytes fresh MulticastMesg.name helloFromKernel
  storeBytes msg MulticastMesg.process worldOfNetLink

def multicastMessage (fresh : ℕ → BitVec 8) : List (BitVec 8) :=
  nlmsgPut 0 1 nlmsgDone (bytesAt (fillMesg fresh) 0 MulticastMesg.size) 0

/-- The bytes of the structure that `multicast_start` does not write. -/
def Unwritten (byte : ℕ) : Prop :=
  byte < MulticastMesg.size ∧
    (helloFromKernel.length ≤ byte ∧ byte < MulticastMesg.process ∨
      MulticastMesg.process + worldOfNetLink.length ≤ byte)

theorem fillMesg_unwritten
    (fresh : ℕ → BitVec 8) {byte : ℕ} (hbyte : Unwritten byte) :
    fillMesg fresh byte = fresh byte := by
  have hname : MulticastMesg.name = 0 := rfl
  have hfits : helloFromKernel.length ≤ MulticastMesg.process := by decide
  simp only [fillMesg]
  rcases hbyte.2 with hbetween | hbehind
  · rw [storeBytes_outside (Or.inl hbetween.2),
      storeBytes_outside (Or.inr (by omega))]
  · rw [storeBytes_outside (Or.inr hbehind),
      storeBytes_outside (Or.inr (by omega))]

theorem fillMesg_name
    (fresh : ℕ → BitVec 8) {byte : ℕ} (hbyte : byte < helloFromKernel.length) :
    fillMesg fresh (MulticastMesg.name + byte) = helloFromKernel[byte] := by
  have hname : MulticastMesg.name = 0 := rfl
  have hfits : helloFromKernel.length ≤ MulticastMesg.process := by decide
  simp only [fillMesg]
  rw [storeBytes_outside (Or.inl (by omega)), storeBytes_inside _ _ _ hbyte]

theorem fillMesg_process
    (fresh : ℕ → BitVec 8) {byte : ℕ} (hbyte : byte < worldOfNetLink.length) :
    fillMesg fresh (MulticastMesg.process + byte) = worldOfNetLink[byte] :=
  storeBytes_inside _ _ _ hbyte

/-- What is written does not depend on the fresh memory. -/
theorem fillMesg_written
    (fresh other : ℕ → BitVec 8) {byte : ℕ}
    (hsize : byte < MulticastMesg.size) (hbyte : ¬ Unwritten byte) :
    fillMesg fresh byte = fillMesg other byte := by
  have hcases : byte < helloFromKernel.length ∨
      ∃ rest, rest < worldOfNetLink.length ∧
        byte = MulticastMesg.process + rest := by
    by_contra hneither
    simp only [not_or, not_exists, not_and] at hneither
    have hrest := hneither.2 (byte - MulticastMesg.process)
    apply hbyte
    refine ⟨hsize, ?_⟩
    omega
  rcases hcases with hfirst | ⟨rest, hrest, rfl⟩
  · have hplace : byte = MulticastMesg.name + byte := (Nat.zero_add byte).symm
    rw [hplace, fillMesg_name fresh hfirst, fillMesg_name other hfirst]
  · rw [fillMesg_process fresh hrest, fillMesg_process other hrest]

/-- A message gives away the unwritten bytes of kernel memory, and no others. -/
theorem multicastMessage_eq_iff (fresh other : ℕ → BitVec 8) :
    multicastMessage fresh = multicastMessage other ↔
      ∀ byte, Unwritten byte → fresh byte = other byte := by
  have hlength : ∀ memory : ℕ → BitVec 8,
      (bytesAt (fillMesg memory) 0 MulticastMesg.size).length =
        MulticastMesg.size := fun _ => length_bytesAt _ _ _
  constructor
  · intro hmessage byte hbyte
    have hread : ∀ memory : ℕ → BitVec 8,
        (multicastMessage memory)[nlmsgHdrLen + byte]? =
          some (memory byte) := by
      intro memory
      rw [multicastMessage,
        nlmsgPut_getElem (by rw [hlength]; exact hbyte.1), getElem_bytesAt,
        Nat.zero_add, fillMesg_unwritten memory hbyte]
    have hsame := (hread fresh).symm.trans
      ((congrArg (fun message => message[nlmsgHdrLen + byte]?) hmessage).trans
        (hread other))
    exact Option.some.inj hsame
  · intro hsame
    have hpayload :
        bytesAt (fillMesg fresh) 0 MulticastMesg.size =
          bytesAt (fillMesg other) 0 MulticastMesg.size := by
      apply bytesAt_congr
      intro byte hbyte
      rw [Nat.zero_add]
      by_cases hunwritten : Unwritten byte
      · rw [fillMesg_unwritten fresh hunwritten,
          fillMesg_unwritten other hunwritten, hsame byte hunwritten]
      · exact fillMesg_written fresh other hbyte hunwritten
    rw [multicastMessage, multicastMessage, hpayload]

/-! ## The thread and the readers -/

/-- One pass through the loop of `multicast_start`: the memory `kmalloc`
returns, if any, the results of the calls, and the readers the group delivers
to. -/
structure Pass (ι : Type) where
  kmalloc : Option (ℕ → BitVec 8)
  nlmsgNew : Bool
  result : ℤ
  delivers : ι → Bool
  shouldStop : Bool

/-- A process that reads the group.  It waits in `recvmsg` while there is a
buffer in `pending`.  The lists are the messages that wait at its socket, what
every `recvmsg` brought, with the address it was printed at, and the printed
lines.  The buffers it holds are those it allocated and did not free. -/
structure Reader where
  opening : List Text
  joined : Bool
  ending : Option Ending
  pending : Option (ℕ → BitVec 8)
  queue : List (List (BitVec 8))
  taken : List (Option (Text × List (BitVec 8)))
  printed : List Text
  held : ℕ

structure Network (ι : Type) where
  thread : Option Ending
  live : ℕ
  log : List Text
  sent : List (List (BitVec 8))
  readers : ι → Reader

def Reader.init : Reader :=
  ⟨[], false, none, none, [], [], [], 0⟩

def Network.init (ι : Type) : Network ι :=
  ⟨none, 0, [], [], fun _ => .init⟩

def Reader.deliver
    (reader : Reader) (delivers : Bool) (message : List (BitVec 8)) : Reader :=
  if reader.joined && delivers then
    { reader with queue := reader.queue ++ [message] }
  else reader

/-- The line about a new message, if its strings are closed. -/
def creatingLine (msg : ℕ → BitVec 8) : Option Text := do
  let name ← stringAt msg MulticastMesg.name
    (MulticastMesg.size - MulticastMesg.name)
  let process ← stringAt msg MulticastMesg.process
    (MulticastMesg.size - MulticastMesg.process)
  pure ("------ Creating skb. -------:".toList ++
    decimal (MulticastMesg.size : ℤ) ++ ", ".toList ++ textOf name ++
    ", ".toList ++ textOf process ++ [newline])

def resultLine (result : ℤ) : Text :=
  if result < 0 then
    "nlmsg_multicast() error: ".toList ++ decimal result ++
      " , no one receive\n".toList
  else "Success the message.\n".toList

variable {ι : Type}

/-- `multicast_start` from one `kmalloc` to the next. -/
def Network.multicastStart (network : Network ι) (pass : Pass ι) :
    Network ι :=
  match pass.kmalloc with
  | none => { network with thread := some .fault }
  | some fresh =>
      match creatingLine (fillMesg fresh) with
      | none => { network with thread := some .fault, live := network.live + 1 }
      | some line =>
          if pass.nlmsgNew then
            let message := multicastMessage fresh
            { network with
              thread := if pass.shouldStop then some (.returned 0) else none
              log := network.log ++
                [line, "Sending skb.\n".toList, resultLine pass.result] ++
                if pass.shouldStop then []
                else ["-----------------------------\n".toList]
              sent := network.sent ++ [message]
              readers := fun reader =>
                (network.readers reader).deliver (pass.delivers reader) message }
          else
            { network with
              thread := some (.returned (-1))
              live := network.live + 1
              log := network.log ++ [line, "Allocation failure.\n".toList] }

def openNetlinkMulicast (socket bind setsockopt : ℤ) : ℤ × List Text :=
  if socket < 0 then (socket, ["sock < 0.\n".toList])
  else if bind < 0 then (-1, ["bind < 0.\n".toList])
  else if setsockopt < 0 then (-1, ["setsockopt < 0\n".toList])
  else (socket, [])

/-- The part of `main` that opens the socket. -/
def Reader.openSocket (reader : Reader) (socket bind setsockopt : ℤ) : Reader :=
  if reader.joined then reader
  else
    let opened := openNetlinkMulicast socket bind setsockopt
    if opened.1 < 0 then
      { reader with opening := opened.2, ending := some (.returned opened.1) }
    else { reader with opening := opened.2, joined := true }

/-- `read_event_from_kernel` up to `recvmsg`. -/
def Reader.listen
    (reader : Reader) (malloc : Bool) (heap : ℕ → BitVec 8)
    (pid : BitVec 32) : Reader :=
  if malloc then
    { reader with
      held := reader.held + 1
      pending := some (prepareBuffer heap pid)
      printed := reader.printed ++ ["Ok, listening.\n".toList] }
  else { reader with ending := some .fault }

/-- The end of `read_event_from_kernel`, after `recvmsg`. -/
def Reader.printEvent
    (reader : Reader) (nlh : ℕ → BitVec 8)
    (event : Option (Text × List (BitVec 8))) : Reader :=
  let line := match event with
    | none => "ret < 0.\n".toList
    | some (pointer, _) =>
        "Received message payload: ".toList ++ pointer ++ [newline]
  match
    stringAt nlh (nlmsgHdrLen + MulticastMesg.name)
      (maxPayload - MulticastMesg.name),
    stringAt nlh (nlmsgHdrLen + MulticastMesg.process)
      (maxPayload - MulticastMesg.process) with
  | some name, some process =>
      { reader with
        pending := none
        taken := reader.taken ++ [event]
        printed := reader.printed ++
          [line, "DATA1: ".toList ++ textOf name ++ [newline],
            "DATA2: ".toList ++ textOf process ++ [newline]] }
  | _, _ => { reader with ending := some .fault }

/-- `recvmsg` fails, takes a message, or goes on waiting. -/
def Reader.recvmsg (reader : Reader) (fails : Bool) (pointer : Text) : Reader :=
  match reader.pending with
  | none => reader
  | some nlh =>
      if fails then reader.printEvent nlh none
      else
        match reader.queue with
        | [] => reader
        | message :: rest =>
            Reader.printEvent { reader with queue := rest }
              (receive nlh (nlmsgSpace maxPayload) message)
              (some (pointer, message))

inductive Move (ι : Type) where
  | pass (pass : Pass ι)
  | openSocket (reader : ι) (socket bind setsockopt : ℤ)
  | listen (reader : ι) (malloc : Bool) (heap : ℕ → BitVec 8) (pid : BitVec 32)
  | recvmsg (reader : ι) (fails : Bool) (pointer : Text)

section Step

variable [DecidableEq ι]

def Network.setReader (network : Network ι) (reader : ι) (value : Reader) :
    Network ι :=
  { network with readers := Function.update network.readers reader value }

/-- A thread or a reader that has ended does not move. -/
def Network.step (network : Network ι) : Move ι → Network ι
  | .pass pass =>
      if network.thread.isNone then network.multicastStart pass else network
  | .openSocket reader socket bind setsockopt =>
      let process := network.readers reader
      if process.ending.isNone then
        network.setReader reader (process.openSocket socket bind setsockopt)
      else network
  | .listen reader malloc heap pid =>
      let process := network.readers reader
      if process.ending.isNone && process.joined && process.pending.isNone then
        network.setReader reader (process.listen malloc heap pid)
      else network
  | .recvmsg reader fails pointer =>
      let process := network.readers reader
      if process.ending.isNone then
        network.setReader reader (process.recvmsg fails pointer)
      else network

end Step

/-! ## The strings -/

theorem stringAt_name
    {memory : ℕ → BitVec 8} {fresh : ℕ → BitVec 8} {place room : ℕ}
    (hsame : ∀ byte, byte < MulticastMesg.size →
      memory (place + byte) = fillMesg fresh byte)
    (hroom : helloFromKernel.length < room) :
    stringAt memory (place + MulticastMesg.name) room =
      some helloFromKernel.dropLast := by
  have hinside : helloFromKernel.length ≤ MulticastMesg.size := by decide
  apply stringAt_closed
  · intro byte hbyte
    have hstring : byte < helloFromKernel.length := hbyte
    rw [Nat.add_assoc, hsame _ (by unfold MulticastMesg.name; omega)]
    exact fillMesg_name fresh hstring
  · decide
  · rw [List.length_dropLast]
    omega

theorem stringAt_process
    {memory : ℕ → BitVec 8} {fresh : ℕ → BitVec 8} {place room : ℕ}
    (hsame : ∀ byte, byte < MulticastMesg.size →
      memory (place + byte) = fillMesg fresh byte)
    (hroom : worldOfNetLink.length < room) :
    stringAt memory (place + MulticastMesg.process) room =
      some worldOfNetLink.dropLast := by
  have hinside :
      MulticastMesg.process + worldOfNetLink.length ≤ MulticastMesg.size := by
    decide
  apply stringAt_closed
  · intro byte hbyte
    have hstring : byte < worldOfNetLink.length := hbyte
    rw [Nat.add_assoc, hsame _ (by omega)]
    exact fillMesg_process fresh hstring
  · decide
  · rw [List.length_dropLast]
    omega

theorem creatingLine_fillMesg (fresh : ℕ → BitVec 8) :
    (creatingLine (fillMesg fresh)).isSome := by
  have hsame : ∀ byte, byte < MulticastMesg.size →
      fillMesg fresh (0 + byte) = fillMesg fresh byte := by
    intro byte _
    rw [Nat.zero_add]
  have hname := stringAt_name hsame
    (show helloFromKernel.length < MulticastMesg.size - MulticastMesg.name by
      decide)
  have hprocess := stringAt_process hsame
    (show worldOfNetLink.length < MulticastMesg.size - MulticastMesg.process by
      decide)
  rw [Nat.zero_add] at hname hprocess
  simp only [creatingLine, hname, hprocess, Option.bind_eq_bind,
    Option.bind_some]
  rfl

theorem prepareBuffer_payload
    (heap : ℕ → BitVec 8) (pid : BitVec 32) {byte : ℕ}
    (hbyte : nlmsgHdrLen + byte < nlmsgSpace maxPayload) :
    prepareBuffer heap pid (nlmsgHdrLen + byte) = 0 := by
  have hpid : nlmsgPid + 4 ≤ nlmsgHdrLen := by decide
  have hflags : nlmsgFlags + (shortBytes 0).length ≤ nlmsgHdrLen := by decide
  have hlength : 4 ≤ nlmsgHdrLen := by decide
  have hcleared := storeBytes_inside heap 0
    (List.replicate (nlmsgSpace maxPayload) 0)
    (show nlmsgHdrLen + byte < _ by simpa using hbyte)
  rw [Nat.zero_add, List.getElem_replicate] at hcleared
  simp only [prepareBuffer]
  rw [storeBytes_outside (Or.inr (by omega)),
    storeInt_outside (Or.inr (by omega)),
    storeInt_outside (Or.inr (by omega)), hcleared]

theorem stringAt_cleared
    {memory : ℕ → BitVec 8} {address room : ℕ}
    (hzero : memory address = 0) (hroom : 0 < room) :
    stringAt memory address room = some [] := by
  apply stringAt_eq_some
  · simp
  · exact hzero
  · simp
  · exact hroom

/-! ## What a reader prints -/

/-- The lines of one call of `read_event_from_kernel`. -/
def eventLines (event : Option (Text × List (BitVec 8))) : List Text :=
  match event with
  | none =>
      ["Ok, listening.\n".toList, "ret < 0.\n".toList, "DATA1: \n".toList,
        "DATA2: \n".toList]
  | some (pointer, _) =>
      ["Ok, listening.\n".toList,
        "Received message payload: ".toList ++ pointer ++ [newline],
        "DATA1: Hello From Kernel\n".toList,
        "DATA2: World of NetLink\n".toList]

theorem printEvent_failed
    (reader : Reader) (heap : ℕ → BitVec 8) (pid : BitVec 32) :
    reader.printEvent (prepareBuffer heap pid) none =
      { reader with
        pending := none
        taken := reader.taken ++ [none]
        printed := reader.printed ++ (eventLines none).tail } := by
  have hname : stringAt (prepareBuffer heap pid)
      (nlmsgHdrLen + MulticastMesg.name) (maxPayload - MulticastMesg.name) =
        some [] :=
    stringAt_cleared (prepareBuffer_payload heap pid (by decide)) (by decide)
  have hprocess : stringAt (prepareBuffer heap pid)
      (nlmsgHdrLen + MulticastMesg.process)
      (maxPayload - MulticastMesg.process) = some [] :=
    stringAt_cleared (prepareBuffer_payload heap pid (by decide)) (by decide)
  simp only [Reader.printEvent, hname, hprocess]
  rfl

theorem printEvent_received
    (reader : Reader) (buffer fresh : ℕ → BitVec 8) (pointer : Text) :
    reader.printEvent
        (receive buffer (nlmsgSpace maxPayload) (multicastMessage fresh))
        (some (pointer, multicastMessage fresh)) =
      { reader with
        pending := none
        taken := reader.taken ++ [some (pointer, multicastMessage fresh)]
        printed := reader.printed ++
          (eventLines (some (pointer, multicastMessage fresh))).tail } := by
  have hspace : nlmsgHdrLen + MulticastMesg.size ≤ nlmsgSpace maxPayload := by
    decide
  have hsame : ∀ byte, byte < MulticastMesg.size →
      receive buffer (nlmsgSpace maxPayload) (multicastMessage fresh)
          (nlmsgHdrLen + byte) =
        fillMesg fresh byte := by
    intro byte hbyte
    rw [multicastMessage,
      receive_payload _ (by simpa using hbyte) (by simpa using hspace),
      getElem_bytesAt, Nat.zero_add]
  have hname := stringAt_name hsame
    (show helloFromKernel.length < maxPayload - MulticastMesg.name by decide)
  have hprocess := stringAt_process hsame
    (show worldOfNetLink.length < maxPayload - MulticastMesg.process by decide)
  simp only [Reader.printEvent, hname, hprocess]
  rfl

/-! ## Runs -/

def Reader.received (reader : Reader) : List (List (BitVec 8)) :=
  reader.taken.filterMap fun event => event.map Prod.snd

/-- The calls of `read_event_from_kernel` that are under way. -/
def Reader.waiting (reader : Reader) : ℕ :=
  if reader.pending.isSome then 1 else 0

structure Reader.Good (sent : List (List (BitVec 8))) (reader : Reader) :
    Prop where
  order : (reader.received ++ reader.queue).Sublist sent
  printed : reader.printed = reader.taken.flatMap eventLines ++
    List.replicate reader.waiting "Ok, listening.\n".toList
  held : reader.held = reader.taken.length + reader.waiting
  pending : ∀ nlh, reader.pending = some nlh →
    ∃ heap pid, nlh = prepareBuffer heap pid

/-- Every message was made by `multicast_start`, and a structure is left behind
exactly when the thread could not allocate the message for it. -/
structure Network.Good (network : Network ι) : Prop where
  sent : ∀ message ∈ network.sent,
    ∃ fresh, message = multicastMessage fresh
  readers : ∀ reader, (network.readers reader).Good network.sent
  live : network.live =
    if network.thread = some (.returned (-1)) then 1 else 0

theorem Reader.Good.deliver
    {sent : List (List (BitVec 8))} {reader : Reader}
    (hgood : reader.Good sent) (delivers : Bool)
    (message : List (BitVec 8)) :
    (reader.deliver delivers message).Good (sent ++ [message]) := by
  unfold Reader.deliver
  split
  · exact {
      order := by
        change (reader.received ++ (reader.queue ++ [message])).Sublist _
        rw [← List.append_assoc]
        exact hgood.order.append (List.Sublist.refl _)
      printed := hgood.printed
      held := hgood.held
      pending := hgood.pending }
  · exact {
      order := hgood.order.trans (List.sublist_append_left _ _)
      printed := hgood.printed
      held := hgood.held
      pending := hgood.pending }

theorem Reader.Good.openSocket
    {sent : List (List (BitVec 8))} {reader : Reader}
    (hgood : reader.Good sent) (socket bind setsockopt : ℤ) :
    (reader.openSocket socket bind setsockopt).Good sent := by
  unfold Reader.openSocket
  split
  · exact hgood
  · dsimp only
    split
    · exact ⟨hgood.order, hgood.printed, hgood.held, hgood.pending⟩
    · exact ⟨hgood.order, hgood.printed, hgood.held, hgood.pending⟩

theorem Reader.Good.listen
    {sent : List (List (BitVec 8))} {reader : Reader}
    (hgood : reader.Good sent) (hpending : reader.pending = none)
    (malloc : Bool) (heap : ℕ → BitVec 8) (pid : BitVec 32) :
    (reader.listen malloc heap pid).Good sent := by
  have hwaiting : reader.waiting = 0 := by
    rw [Reader.waiting, hpending]
    rfl
  have hprinted := hgood.printed
  have hheld := hgood.held
  rw [hwaiting] at hprinted hheld
  unfold Reader.listen
  split
  · exact {
      order := hgood.order
      printed := by
        rw [hprinted, List.replicate_zero, List.append_nil]
        rfl
      held := by
        rw [hheld]
        rfl
      pending := by
        intro nlh hnlh
        exact ⟨heap, pid, (Option.some.inj hnlh).symm⟩ }
  · exact ⟨hgood.order, hgood.printed, hgood.held, hgood.pending⟩

/-- An event ends the call that is under way. -/
theorem Reader.Good.event
    {sent : List (List (BitVec 8))} {reader : Reader} {nlh : ℕ → BitVec 8}
    (hgood : reader.Good sent) (hpending : reader.pending = some nlh)
    (event : Option (Text × List (BitVec 8))) (queue : List (List (BitVec 8)))
    (hqueue : (event.map Prod.snd).toList ++ queue = reader.queue) :
    Reader.Good sent
      { reader with
        pending := none
        queue := queue
        taken := reader.taken ++ [event]
        printed := reader.printed ++ (eventLines event).tail } := by
  have hwaiting : reader.waiting = 1 := by
    rw [Reader.waiting, hpending]
    rfl
  have hlines : eventLines event =
      "Ok, listening.\n".toList :: (eventLines event).tail := by
    cases event with
    | none => rfl
    | some pair => rfl
  have hprinted := hgood.printed
  have hheld := hgood.held
  have horder := hgood.order
  rw [hwaiting] at hprinted hheld
  exact {
    order := by
      rw [← hqueue, ← List.append_assoc] at horder
      cases event with
      | none => simpa [Reader.received] using horder
      | some pair => simpa [Reader.received] using horder
    printed := by
      rw [hprinted]
      change _ = (reader.taken ++ [event]).flatMap eventLines ++ []
      rw [List.flatMap_append, List.flatMap_singleton, hlines]
      simp
    held := by
      rw [hheld]
      simp [Reader.waiting]
    pending := by simp }

/-- `recvmsg` goes on waiting, or ends the call with a failure or with the
first message of the queue. -/
theorem Reader.Good.recvmsg_cases
    {sent : List (List (BitVec 8))} {reader : Reader}
    (hgood : reader.Good sent)
    (hsent : ∀ message ∈ sent, ∃ fresh, message = multicastMessage fresh)
    (fails : Bool) (pointer : Text) :
    reader.recvmsg fails pointer = reader ∨
      ∃ event queue,
        reader.pending.isSome ∧
        (event.map Prod.snd).toList ++ queue = reader.queue ∧
        reader.recvmsg fails pointer =
          { reader with
            pending := none
            queue := queue
            taken := reader.taken ++ [event]
            printed := reader.printed ++ (eventLines event).tail } := by
  unfold Reader.recvmsg
  cases hpending : reader.pending with
  | none => exact Or.inl rfl
  | some nlh =>
      rcases hgood.pending nlh hpending with ⟨heap, pid, rfl⟩
      cases fails with
      | true =>
          refine Or.inr ⟨none, reader.queue, rfl, rfl, ?_⟩
          simp only [if_true]
          rw [printEvent_failed]
      | false =>
          simp only [Bool.false_eq_true, if_false]
          cases hqueue : reader.queue with
          | nil => exact Or.inl rfl
          | cons message rest =>
              have hmem : message ∈ sent := by
                apply hgood.order.subset
                rw [hqueue]
                simp
              rcases hsent message hmem with ⟨fresh, rfl⟩
              refine Or.inr
                ⟨some (pointer, multicastMessage fresh), rest, rfl, rfl, ?_⟩
              simp only
              rw [printEvent_received]

theorem Reader.Good.recvmsg
    {sent : List (List (BitVec 8))} {reader : Reader}
    (hgood : reader.Good sent)
    (hsent : ∀ message ∈ sent, ∃ fresh, message = multicastMessage fresh)
    (fails : Bool) (pointer : Text) :
    (reader.recvmsg fails pointer).Good sent := by
  rcases hgood.recvmsg_cases hsent fails pointer with
    hsame | ⟨event, queue, hpending, hqueue, hnext⟩
  · rw [hsame]
    exact hgood
  · rcases Option.isSome_iff_exists.mp hpending with ⟨nlh, hpending⟩
    rw [hnext]
    exact hgood.event hpending event queue hqueue

theorem Network.Good.multicastStart
    {network : Network ι} (hgood : network.Good)
    (hthread : network.thread = none) (pass : Pass ι) :
    (network.multicastStart pass).Good := by
  have hlive : network.live = 0 := by
    rw [hgood.live, hthread]
    rfl
  unfold Network.multicastStart
  cases pass.kmalloc with
  | none =>
      exact ⟨hgood.sent, hgood.readers, by simpa using hlive⟩
  | some fresh =>
      have hline := Option.isSome_iff_exists.mp (creatingLine_fillMesg fresh)
      rcases hline with ⟨line, hline⟩
      simp only [hline]
      split
      · exact {
          sent := by
            intro message hmessage
            rcases List.mem_append.mp hmessage with hold | hnew
            · exact hgood.sent message hold
            · exact ⟨fresh, List.mem_singleton.mp hnew⟩
          readers := fun reader => (hgood.readers reader).deliver _ _
          live := by
            simp only
            rw [hlive]
            split <;> simp }
      · exact ⟨hgood.sent, hgood.readers, by simpa using hlive⟩

theorem Network.good_init : (Network.init ι).Good where
  sent := by simp [Network.init]
  readers := fun _ =>
    ⟨List.Sublist.refl _, rfl, rfl, by simp [Network.init, Reader.init]⟩
  live := rfl

section Step

variable [DecidableEq ι]

theorem Network.Good.setReader
    {network : Network ι} (hgood : network.Good) {reader : ι} {value : Reader}
    (hvalue : value.Good network.sent) :
    (network.setReader reader value).Good := by
  refine ⟨hgood.sent, ?_, hgood.live⟩
  intro other
  by_cases hother : other = reader
  · subst hother
    simpa [Network.setReader] using hvalue
  · simpa [Network.setReader, hother] using hgood.readers other

theorem Network.Good.step
    {network : Network ι} (hgood : network.Good) (move : Move ι) :
    (network.step move).Good := by
  cases move with
  | pass pass =>
      simp only [Network.step]
      split
      case isTrue hthread =>
        exact hgood.multicastStart (Option.isNone_iff_eq_none.mp hthread) pass
      case isFalse => exact hgood
  | openSocket reader socket bind setsockopt =>
      simp only [Network.step]
      split
      · exact hgood.setReader ((hgood.readers reader).openSocket _ _ _)
      · exact hgood
  | listen reader malloc heap pid =>
      simp only [Network.step]
      split
      case isTrue hready =>
        simp only [Bool.and_eq_true, Option.isNone_iff_eq_none] at hready
        exact hgood.setReader
          ((hgood.readers reader).listen hready.2 malloc heap pid)
      case isFalse => exact hgood
  | recvmsg reader fails pointer =>
      simp only [Network.step]
      split
      · exact hgood.setReader
          ((hgood.readers reader).recvmsg hgood.sent fails pointer)
      · exact hgood

theorem Network.good_run (word : List (Move ι)) :
    (word.foldl Network.step (Network.init ι)).Good := by
  have hguarded : Guarded Network.step (fun _ _ => True)
      (Network.init ι) word := guarded_of_forall fun _ _ => trivial
  exact hguarded.invariant (fun _ move hgood _ => hgood.step move)
    Network.good_init

end Step

/-! ## Faults -/

/-- The move does not run out of memory that the code takes for granted. -/
def Move.Allocates : Move ι → Prop
  | .pass round => round.kmalloc.isSome
  | .listen _ malloc _ _ => malloc
  | _ => True

def Network.Sound (network : Network ι) : Prop :=
  network.thread ≠ some .fault ∧
    ∀ reader, (network.readers reader).ending ≠ some .fault

theorem Reader.ending_deliver
    (reader : Reader) (delivers : Bool) (message : List (BitVec 8)) :
    (reader.deliver delivers message).ending = reader.ending := by
  unfold Reader.deliver
  split <;> rfl

theorem Network.Sound.multicastStart
    {network : Network ι} (hsound : network.Sound)
    {pass : Pass ι} (hkmalloc : pass.kmalloc.isSome) :
    (network.multicastStart pass).Sound := by
  rcases Option.isSome_iff_exists.mp hkmalloc with ⟨fresh, hfresh⟩
  rcases Option.isSome_iff_exists.mp (creatingLine_fillMesg fresh) with
    ⟨line, hline⟩
  simp only [Network.multicastStart, hfresh, hline]
  split
  · constructor
    · simp only
      split <;> simp
    · intro reader
      simp only [Reader.ending_deliver]
      exact hsound.2 reader
  · exact ⟨by simp, hsound.2⟩

theorem Reader.openSocket_sound
    {reader : Reader} (hsound : reader.ending ≠ some .fault)
    (socket bind setsockopt : ℤ) :
    (reader.openSocket socket bind setsockopt).ending ≠ some .fault := by
  unfold Reader.openSocket
  split
  · exact hsound
  · dsimp only
    split
    · simp
    · exact hsound

theorem Reader.Good.recvmsg_ending
    {sent : List (List (BitVec 8))} {reader : Reader}
    (hgood : reader.Good sent)
    (hsent : ∀ message ∈ sent, ∃ fresh, message = multicastMessage fresh)
    (fails : Bool) (pointer : Text) :
    (reader.recvmsg fails pointer).ending = reader.ending := by
  rcases hgood.recvmsg_cases hsent fails pointer with
    hsame | ⟨event, queue, _, _, hnext⟩
  · rw [hsame]
  · rw [hnext]

section Step

variable [DecidableEq ι]

theorem Network.Sound.setReader
    {network : Network ι} (hsound : network.Sound) {reader : ι}
    {value : Reader} (hvalue : value.ending ≠ some .fault) :
    (network.setReader reader value).Sound := by
  refine ⟨hsound.1, ?_⟩
  intro other
  by_cases hother : other = reader
  · subst hother
    simpa [Network.setReader] using hvalue
  · simpa [Network.setReader, hother] using hsound.2 other

theorem Network.Sound.step
    {network : Network ι} (hgood : network.Good) (hsound : network.Sound)
    {move : Move ι} (hmove : move.Allocates) :
    (network.step move).Sound := by
  cases move with
  | pass pass =>
      simp only [Network.step]
      split
      · exact hsound.multicastStart hmove
      · exact hsound
  | openSocket reader socket bind setsockopt =>
      simp only [Network.step]
      split
      · exact hsound.setReader (Reader.openSocket_sound (hsound.2 reader) _ _ _)
      · exact hsound
  | listen reader malloc heap pid =>
      have hmalloc : malloc = true := hmove
      simp only [Network.step]
      split
      · apply hsound.setReader
        rw [Reader.listen, if_pos hmalloc]
        exact hsound.2 reader
      · exact hsound
  | recvmsg reader fails pointer =>
      simp only [Network.step]
      split
      · apply hsound.setReader
        rw [(hgood.readers reader).recvmsg_ending hgood.sent]
        exact hsound.2 reader
      · exact hsound

/-- In every run, a reader has taken messages that the thread sent, in their
order and each at most once, its lines are those of its calls, it holds one
buffer for each call, and the thread leaves a structure behind exactly when it
returns an error.  Nobody reads past a buffer, and no null pointer is followed
as long as memory is there. -/
theorem multicast_run (word : List (Move ι)) :
    let network := word.foldl Network.step (Network.init ι)
    (∀ reader,
      ((network.readers reader).received ++
        (network.readers reader).queue).Sublist network.sent ∧
      (network.readers reader).printed =
        (network.readers reader).taken.flatMap eventLines ++
          List.replicate (network.readers reader).waiting
            "Ok, listening.\n".toList ∧
      (network.readers reader).held =
        (network.readers reader).taken.length +
          (network.readers reader).waiting) ∧
    network.live = (if network.thread = some (.returned (-1)) then 1 else 0) ∧
    ((∀ move ∈ word, move.Allocates) → network.Sound) := by
  have hgood := Network.good_run word
  refine ⟨?_, hgood.live, ?_⟩
  · intro reader
    have hreader := hgood.readers reader
    exact ⟨hreader.order, hreader.printed, hreader.held⟩
  · intro hallocates
    have hguarded : Guarded Network.step (fun _ move => move.Allocates)
        (Network.init ι) word := guarded_of_forall hallocates
    have hinit : (Network.init ι).Good ∧ (Network.init ι).Sound := by
      refine ⟨Network.good_init, by simp [Network.init], ?_⟩
      intro reader
      simp [Network.init, Reader.init]
    have hsound := hguarded.always
      (fun network => network.Good ∧ network.Sound)
      (fun network move hinv hmove =>
        ⟨hinv.1.step move, hinv.2.step hinv.1 hmove⟩)
      (fun network hinv => hinv.2) hinit
    exact hsound.last

end Step

/-- A reader takes one message, and then a call of `recvmsg` fails. -/
def oneDelivery : List (Move Unit) :=
  [.openSocket () 3 0 0,
    .pass ⟨some fun _ => 0xff, true, 0, fun _ => true, false⟩,
    .listen () true (fun _ => 0) 7, .recvmsg () false "p".toList,
    .listen () true (fun _ => 0) 7, .recvmsg () true []]

theorem multicast_run_oneDelivery :
    let network := oneDelivery.foldl Network.step (Network.init Unit)
    (network.readers ()).received.length = 1 ∧
      (network.readers ()).taken.length = 2 ∧
      (network.readers ()).held = 2 ∧ network.Sound := by
  have hallocates : ∀ move ∈ oneDelivery, move.Allocates := by
    simp [oneDelivery, Move.Allocates]
  have hcounts :
      let reader := (oneDelivery.foldl Network.step
        (Network.init Unit)).readers ()
      reader.received.length = 1 ∧ reader.taken.length = 2 ∧
        reader.held = 2 := by
    decide +kernel
  obtain ⟨_, _, hsound⟩ := multicast_run oneDelivery
  exact ⟨hcounts.1, hcounts.2.1, hcounts.2.2, hsound hallocates⟩

end LinuxKernelCode.Netlink
