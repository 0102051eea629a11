import Mathlib.Data.List.Induction
import LinuxKernelCode.RecordStream
import LinuxKernelCode.ScriptedSteps

/-!
# Fanotify events and the conversation about them

A read from a fanotify descriptor fills a buffer with event records.  Both
listeners walk the buffer with `FAN_EVENT_OK` and `FAN_EVENT_NEXT`, and the
walk finds the records that were put in, whatever bytes follow the fields that
the listeners know.

Each event comes with an open descriptor, and an event that asks for permission
holds up the process that caused it until a response with that descriptor is
written.  The group below is what the other side of the conversation keeps
account of: the descriptors it has opened for the listener, and those it waits
for a response on.  A write or a close that fails changes nothing in it.
-/

namespace LinuxKernelCode.Fanotify

open LinuxKernelCode.RecordStream
open LinuxKernelCode.Scripted

abbrev Text := List Char

abbrev Mask := BitVec 64

def fanAccess : Mask := 0x1
def fanModify : Mask := 0x2
def fanCloseWrite : Mask := 0x8
def fanCloseNowrite : Mask := 0x10
def fanOpen : Mask := 0x20
def fanOpenPerm : Mask := 0x10000
def fanAccessPerm : Mask := 0x20000
def fanEventOnChild : Mask := 0x8000000
def fanOndir : Mask := 0x40000000
def fanClose : Mask := fanCloseWrite ||| fanCloseNowrite
def fanAllEvents : Mask :=
  fanAccess ||| fanModify ||| fanClose ||| fanOpen
def fanAllPermEvents : Mask := fanOpenPerm ||| fanAccessPerm

def fanAllow : BitVec 32 := 0x1

def fanCloexec : BitVec 32 := 0x1
def fanClassNotif : BitVec 32 := 0x0
def fanClassContent : BitVec 32 := 0x4

def markAdd : BitVec 32 := 0x1
def markRemove : BitVec 32 := 0x2
def markMount : BitVec 32 := 0x10
def markIgnoredMask : BitVec 32 := 0x20
def markIgnoredSurvModify : BitVec 32 := 0x40

def atFdcwd : ℤ := -100

/-- `mask & bits`, as a condition. -/
def has (mask bits : Mask) : Bool := mask &&& bits != 0

/-- The fields of `struct fanotify_event_metadata` that are read. -/
structure Metadata where
  eventLen : BitVec 32
  vers : BitVec 8
  mask : Mask
  fd : BitVec 32
  pid : BitVec 32
  deriving DecidableEq, Repr

/-- The descriptor as the signed number it is. -/
def Metadata.descriptor (metadata : Metadata) : ℤ := metadata.fd.toInt

def Metadata.asksPermission (metadata : Metadata) : Bool :=
  has metadata.mask fanAllPermEvents

/-! ## The buffer -/

def metadataAt (bytes : List Byte) : Metadata where
  eventLen := BitVec.ofNat 32 (field 0 4 bytes)
  vers := BitVec.ofNat 8 (field 4 1 bytes)
  mask := BitVec.ofNat 64 (field 8 8 bytes)
  fd := BitVec.ofNat 32 (field 16 4 bytes)
  pid := BitVec.ofNat 32 (field 20 4 bytes)

/-- `FAN_EVENT_METADATA_LEN` bytes of header, the record's length first. -/
def eventFormat : Format where
  header := 24
  size := field 0 4
  size_append := fun bytes rest hheader =>
    field_append (Nat.le_trans (by decide) hheader) rest
  header_pos := by decide

/-- The loop `while (FAN_EVENT_OK(metadata, len))` with its body. -/
def eventLoop {σ ε : Type} (handle : σ → Metadata → Except ε σ) :
    ℕ → List Byte → σ → Except ε σ
  | 0, _, state => .ok state
  | rounds + 1, bytes, state =>
      if eventFormat.Ready bytes then do
        let state ← handle state (metadataAt bytes)
        eventLoop handle rounds (bytes.drop (eventFormat.size bytes)) state
      else .ok state

/-- The events in a buffer. -/
def eventsIn (bytes : List Byte) : List Metadata :=
  (eventFormat.records bytes.length bytes).map metadataAt

theorem metadataAt_append
    {bytes : List Byte} (hheader : 24 ≤ bytes.length) (rest : List Byte) :
    metadataAt (bytes ++ rest) = metadataAt bytes := by
  simp only [metadataAt]
  rw [field_append (by omega), field_append (by omega),
    field_append (by omega), field_append (by omega), field_append (by omega)]

theorem metadataAt_take
    {bytes : List Byte} (hready : eventFormat.Ready bytes) :
    metadataAt (bytes.take (eventFormat.size bytes)) = metadataAt bytes := by
  have hwhole := Format.whole_take hready
  have happend := metadataAt_append hwhole.1
    (bytes.drop (eventFormat.size bytes))
  rw [List.take_append_drop] at happend
  exact happend.symm

theorem eventLoop_eq
    {σ ε : Type} (handle : σ → Metadata → Except ε σ) (rounds : ℕ)
    (bytes : List Byte) (state : σ) :
    eventLoop handle rounds bytes state =
      ((eventFormat.records rounds bytes).map metadataAt).foldlM handle
        state := by
  induction rounds generalizing bytes state with
  | zero => rfl
  | succ rounds ih =>
      by_cases hready : eventFormat.Ready bytes
      · simp only [eventLoop, Format.records, hready, if_true, List.map_cons,
          List.foldlM_cons, metadataAt_take hready]
        congr 1
        funext next
        exact ih _ next
      · simp [eventLoop, Format.records, hready, pure, Except.pure]

/-- A record as it is put into the buffer: the fields above, three bytes which
are not read, and what may stand behind the header. -/
structure Packet where
  metadata : Metadata
  reserved : List Byte
  info : List Byte
  reserved_length : reserved.length = 3
  length_eq : metadata.eventLen.toNat = 24 + info.length

def Packet.bytes (packet : Packet) : List Byte :=
  toBytes 4 packet.metadata.eventLen.toNat ++
    (toBytes 1 packet.metadata.vers.toNat ++ (packet.reserved ++
      (toBytes 8 packet.metadata.mask.toNat ++
        (toBytes 4 packet.metadata.fd.toNat ++
          (toBytes 4 packet.metadata.pid.toNat ++ packet.info)))))

theorem Packet.length_bytes (packet : Packet) :
    packet.bytes.length = 24 + packet.info.length := by
  simp [Packet.bytes, packet.reserved_length]
  omega

theorem Packet.field_eventLen (packet : Packet) :
    field 0 4 packet.bytes = packet.metadata.eventLen.toNat :=
  field_middle [] _ rfl packet.metadata.eventLen.isLt

theorem Packet.field_vers (packet : Packet) :
    field 4 1 packet.bytes = packet.metadata.vers.toNat := by
  have hbytes : packet.bytes = toBytes 4 packet.metadata.eventLen.toNat ++
      (toBytes 1 packet.metadata.vers.toNat ++ (packet.reserved ++
        (toBytes 8 packet.metadata.mask.toNat ++
          (toBytes 4 packet.metadata.fd.toNat ++
            (toBytes 4 packet.metadata.pid.toNat ++ packet.info))))) := rfl
  have hfield := field_middle _ _ hbytes packet.metadata.vers.isLt
  rwa [length_toBytes] at hfield

theorem Packet.field_mask (packet : Packet) :
    field 8 8 packet.bytes = packet.metadata.mask.toNat := by
  have hbytes : packet.bytes = (toBytes 4 packet.metadata.eventLen.toNat ++
      (toBytes 1 packet.metadata.vers.toNat ++ packet.reserved)) ++
      (toBytes 8 packet.metadata.mask.toNat ++
        (toBytes 4 packet.metadata.fd.toNat ++
          (toBytes 4 packet.metadata.pid.toNat ++ packet.info))) := by
    simp only [Packet.bytes, List.append_assoc]
  have hfield := field_middle _ _ hbytes packet.metadata.mask.isLt
  simpa only [List.length_append, length_toBytes, packet.reserved_length]
    using hfield

theorem Packet.field_fd (packet : Packet) :
    field 16 4 packet.bytes = packet.metadata.fd.toNat := by
  have hbytes : packet.bytes = (toBytes 4 packet.metadata.eventLen.toNat ++
      (toBytes 1 packet.metadata.vers.toNat ++ (packet.reserved ++
        toBytes 8 packet.metadata.mask.toNat))) ++
      (toBytes 4 packet.metadata.fd.toNat ++
        (toBytes 4 packet.metadata.pid.toNat ++ packet.info)) := by
    simp only [Packet.bytes, List.append_assoc]
  have hfield := field_middle _ _ hbytes packet.metadata.fd.isLt
  simpa only [List.length_append, length_toBytes, packet.reserved_length]
    using hfield

theorem Packet.field_pid (packet : Packet) :
    field 20 4 packet.bytes = packet.metadata.pid.toNat := by
  have hbytes : packet.bytes = (toBytes 4 packet.metadata.eventLen.toNat ++
      (toBytes 1 packet.metadata.vers.toNat ++ (packet.reserved ++
        (toBytes 8 packet.metadata.mask.toNat ++
          toBytes 4 packet.metadata.fd.toNat)))) ++
      (toBytes 4 packet.metadata.pid.toNat ++ packet.info) := by
    simp only [Packet.bytes, List.append_assoc]
  have hfield := field_middle _ _ hbytes packet.metadata.pid.isLt
  simpa only [List.length_append, length_toBytes, packet.reserved_length]
    using hfield

theorem Packet.metadataAt_bytes (packet : Packet) :
    metadataAt packet.bytes = packet.metadata := by
  simp only [metadataAt, packet.field_eventLen, packet.field_vers,
    packet.field_mask, packet.field_fd, packet.field_pid,
    BitVec.ofNat_toNat, BitVec.setWidth_eq]

theorem Packet.whole (packet : Packet) : eventFormat.Whole packet.bytes := by
  have hlength := packet.length_bytes
  constructor
  · show 24 ≤ packet.bytes.length
    omega
  · show field 0 4 packet.bytes = packet.bytes.length
    rw [packet.field_eventLen, packet.length_eq, hlength]

theorem toNat_ofNat_field
    {bits offset width : ℕ} {bytes : List Byte}
    (hbits : 2 ^ bits = 256 ^ width) (hfits : offset + width ≤ bytes.length) :
    (BitVec.ofNat bits (field offset width bytes)).toNat =
      field offset width bytes := by
  rw [BitVec.toNat_ofNat, hbits, Nat.mod_eq_of_lt (field_lt hfits)]

/-- Every record the walk accepts is one that could have been put in. -/
theorem exists_packet
    {record : List Byte} (hwhole : eventFormat.Whole record) :
    ∃ packet : Packet, packet.bytes = record := by
  have hheader : 24 ≤ record.length := hwhole.1
  have hsize : field 0 4 record = record.length := hwhole.2
  have hreserved : ((record.drop 5).take 3).length = 3 := by
    rw [List.length_take, List.length_drop]
    omega
  have hlength : (metadataAt record).eventLen.toNat =
      24 + (record.drop 24).length := by
    rw [metadataAt, toNat_ofNat_field (by norm_num) (by omega), hsize,
      List.length_drop]
    omega
  refine ⟨⟨metadataAt record, (record.drop 5).take 3, record.drop 24,
    hreserved, hlength⟩, ?_⟩
  simp only [Packet.bytes, metadataAt]
  rw [toNat_ofNat_field (by norm_num) (by omega),
    toNat_ofNat_field (by norm_num) (by omega),
    toNat_ofNat_field (by norm_num) (by omega),
    toNat_ofNat_field (by norm_num) (by omega),
    toNat_ofNat_field (by norm_num) (by omega),
    toBytes_field (by omega), toBytes_field (by omega),
    toBytes_field (by omega), toBytes_field (by omega),
    toBytes_field (by omega), take_append_drop_at record 20 4,
    take_append_drop_at record 16 4, take_append_drop_at record 8 8,
    take_append_drop_at record 5 3, take_append_drop_at record 4 1,
    take_append_drop_at record 0 4, List.drop_zero]

theorem exists_packets
    {records : List (List Byte)}
    (hwhole : ∀ record ∈ records, eventFormat.Whole record) :
    ∃ packets : List Packet, packets.map Packet.bytes = records := by
  induction records with
  | nil => exact ⟨[], rfl⟩
  | cons record rest ih =>
      obtain ⟨packet, hpacket⟩ := exists_packet (hwhole record (by simp))
      obtain ⟨packets, hpackets⟩ :=
        ih fun other hother => hwhole other (by simp [hother])
      exact ⟨packet :: packets, by simp [hpacket, hpackets]⟩

theorem eventsIn_packets
    (packets : List Packet) {rest : List Byte}
    (hstop : ¬ eventFormat.Ready rest) :
    eventsIn (packets.flatMap Packet.bytes ++ rest) =
      packets.map Packet.metadata := by
  have hwhole : ∀ record ∈ packets.map Packet.bytes,
      eventFormat.Whole record := by
    intro record hrecord
    obtain ⟨packet, _, rfl⟩ := List.mem_map.mp hrecord
    exact packet.whole
  have hrecords := Format.records_flatten hwhole hstop (Nat.le_refl _)
  rw [← List.flatMap_def] at hrecords
  rw [eventsIn, hrecords, List.map_map]
  apply List.map_congr_left
  intro packet _
  exact packet.metadataAt_bytes

/-- Whatever is in the buffer, it can be cut into records and a rest that holds
none; the loop handles the events of these records, and the cut is the only
one there is. -/
theorem eventLoop_packets
    {σ ε : Type} (handle : σ → Metadata → Except ε σ) (bytes : List Byte)
    (state : σ) :
    ∃ (packets : List Packet) (rest : List Byte),
      bytes = packets.flatMap Packet.bytes ++ rest ∧
      ¬ eventFormat.Ready rest ∧
      eventLoop handle bytes.length bytes state =
        (packets.map Packet.metadata).foldlM handle state ∧
      ∀ (others : List Packet) (other : List Byte),
        bytes = others.flatMap Packet.bytes ++ other →
        ¬ eventFormat.Ready other →
        others.map Packet.metadata = packets.map Packet.metadata := by
  obtain ⟨rest, hbytes, hstop, hwhole⟩ :=
    Format.records_spec (Nat.le_refl bytes.length)
  obtain ⟨packets, hpackets⟩ := exists_packets hwhole
  rw [← hpackets, ← List.flatMap_def] at hbytes
  have hevents : eventsIn bytes = packets.map Packet.metadata := by
    rw [hbytes]
    exact eventsIn_packets packets hstop
  refine ⟨packets, rest, hbytes, hstop, ?_, ?_⟩
  · rw [eventLoop_eq, ← hevents]
    rfl
  · intro others other hother hdone
    rw [← hevents, hother]
    exact (eventsIn_packets others hdone).symm

/-! ## The conversation -/

/-- The calls of a listener that are seen from outside, in the order in which
they are made. -/
inductive Call where
  | read (events : List Metadata)
  | fanotifyInit (flags : BitVec 32)
  | fanotifyMark (flags : BitVec 32) (mask : Mask) (dfd : ℤ)
      (path : Option Text)
  | readlink (fd : ℤ)
  | openCmdline (pid : ℤ)
  | sleep (seconds : ℤ)
  | respond (fd : ℤ) (response : BitVec 32)
  | close (fd : ℤ)
  | print (text : Text)
  | complain (text : Text)
  deriving DecidableEq, Repr

/-- What the calls give back, after all the calls up to the one in question. -/
structure System where
  result : List Call → ℤ
  link : List Call → Text
  cmdline : List Call → Option Text
  strerror : List Call → Text
  selectFails : List Call → Bool
  mallocFails : List Call → Bool

/-- A response, whether it was waited for, and whether its descriptor was
still open. -/
structure Answer where
  fd : ℤ
  response : BitVec 32
  awaited : Bool
  opened : Bool
  deriving DecidableEq, Repr

structure Group where
  pending : List ℤ
  opened : List ℤ
  answers : List Answer
  deriving DecidableEq, Repr

def Group.idle (answers : List Answer) : Group := ⟨[], [], answers⟩

def permissionFds (events : List Metadata) : List ℤ :=
  (events.filter Metadata.asksPermission).map Metadata.descriptor

def openedFds (events : List Metadata) : List ℤ :=
  (events.map Metadata.descriptor).filter (0 ≤ ·)

theorem permissionFds_cons (metadata : Metadata) (events : List Metadata) :
    permissionFds (metadata :: events) =
      (if metadata.asksPermission then [metadata.descriptor] else []) ++
        permissionFds events := by
  cases hasks : metadata.asksPermission <;> simp [permissionFds, hasks]

theorem openedFds_cons (metadata : Metadata) (events : List Metadata) :
    openedFds (metadata :: events) =
      (if 0 ≤ metadata.descriptor then [metadata.descriptor] else []) ++
        openedFds events := by
  by_cases hopen : 0 ≤ metadata.descriptor <;> simp [openedFds, hopen]

theorem nonneg_of_mem_openedFds
    {fd : ℤ} {events : List Metadata} (hmem : fd ∈ openedFds events) :
    0 ≤ fd :=
  of_decide_eq_true (List.mem_filter.mp hmem).2

/-- A call and its result, as the group takes notice of them. -/
def Group.observe (group : Group) (call : Call) (result : ℤ) : Group :=
  match call with
  | .read events =>
      { group with
        pending := group.pending ++ permissionFds events
        opened := group.opened ++ openedFds events }
  | .respond fd response =>
      if result < 0 then group
      else
        { group with
          pending := group.pending.erase fd
          answers := group.answers ++
            [⟨fd, response, fd ∈ group.pending, fd ∈ group.opened⟩] }
  | .close fd =>
      if result < 0 then group
      else { group with opened := group.opened.erase fd }
  | _ => group

/-- The calls the group takes no notice of. -/
def Call.quiet : Call → Bool
  | .read _ => false
  | .respond _ _ => false
  | .close _ => false
  | _ => true

/-- The calls that only look something up or print something. -/
def Call.isChatter : Call → Bool
  | .readlink _ => true
  | .openCmdline _ => true
  | .sleep _ => true
  | .print _ => true
  | .complain _ => true
  | _ => false

def Call.isMark : Call → Bool
  | .fanotifyMark _ _ _ _ => true
  | _ => false

def Call.isResponse : Call → Bool
  | .respond _ _ => true
  | _ => false

theorem Call.quiet_of_isChatter
    {call : Call} (hchatter : call.isChatter) : call.quiet := by
  cases call <;> first | rfl | cases hchatter

theorem Call.isMark_of_isChatter
    {call : Call} (hchatter : call.isChatter) : call.isMark = false := by
  cases call <;> first | rfl | cases hchatter

theorem Call.isResponse_of_quiet
    {call : Call} (hquiet : call.quiet) : call.isResponse = false := by
  cases call <;> first | rfl | cases hquiet

theorem Group.observe_quiet
    {call : Call} (hquiet : call.quiet) (group : Group) (result : ℤ) :
    group.observe call result = group := by
  cases call <;> first | rfl | cases hquiet

namespace System

/-- The group after the given calls, with what the system made of each. -/
def group (system : System) (trace : List Call) : Group :=
  account (fun before group call =>
    group.observe call (system.result (before ++ [call]))) []
    (Group.idle []) trace

variable (system : System)

theorem group_concat (trace : List Call) (call : Call) :
    system.group (trace ++ [call]) =
      (system.group trace).observe call (system.result (trace ++ [call])) :=
  account_concat _ [] _ trace call

theorem group_quiet
    (trace : List Call) {calls : List Call}
    (hquiet : ∀ call ∈ calls, call.quiet) :
    system.group (trace ++ calls) = system.group trace :=
  account_unnoticed _ fun call hcall _ group =>
    group.observe_quiet (hquiet call hcall) _

theorem group_read
    {trace : List Call} {answers : List Answer}
    (hgroup : system.group trace = Group.idle answers)
    (events : List Metadata) :
    system.group (trace ++ [.read events]) =
      ⟨permissionFds events, openedFds events, answers⟩ := by
  rw [group_concat, hgroup]
  rfl

theorem group_respond
    {trace : List Call} {fd : ℤ} {response : BitVec 32} {group : Group}
    (hresult : ¬ system.result (trace ++ [.respond fd response]) < 0)
    (hgroup : system.group trace = group) :
    system.group (trace ++ [.respond fd response]) =
      { group with
        pending := group.pending.erase fd
        answers := group.answers ++
          [⟨fd, response, fd ∈ group.pending, fd ∈ group.opened⟩] } := by
  rw [group_concat, hgroup]
  exact if_neg hresult

theorem group_respond_failed
    {trace : List Call} {fd : ℤ} {response : BitVec 32}
    (hresult : system.result (trace ++ [.respond fd response]) < 0) :
    system.group (trace ++ [.respond fd response]) = system.group trace := by
  rw [group_concat]
  exact if_pos hresult

theorem group_close
    {trace : List Call} {fd : ℤ} {group : Group}
    (hresult : ¬ system.result (trace ++ [.close fd]) < 0)
    (hgroup : system.group trace = group) :
    system.group (trace ++ [.close fd]) =
      { group with opened := group.opened.erase fd } := by
  rw [group_concat, hgroup]
  exact if_neg hresult

/-- A descriptor that is not open cannot be closed, whatever the result. -/
theorem group_close_unopened
    {trace : List Call} {fd : ℤ}
    (hopened : fd ∉ (system.group trace).opened) :
    system.group (trace ++ [.close fd]) = system.group trace := by
  rw [group_concat]
  simp only [Group.observe]
  split
  · rfl
  · rw [List.erase_of_not_mem hopened]

/-- The kernel takes a response that it waits for, and an open descriptor can
be closed. -/
structure Obliging (system : System) : Prop where
  respond : ∀ trace fd response, fd ∈ (system.group trace).pending →
    0 ≤ system.result (trace ++ [.respond fd response])
  close : ∀ trace fd, fd ∈ (system.group trace).opened →
    0 ≤ system.result (trace ++ [.close fd])

end System

/-! ## A kernel that keeps the account itself -/

/-- The group and the result of the last call: a response that nobody waits
for is refused, as is a number that is no descriptor. -/
def keep (kept : Group × ℤ) (call : Call) : Group × ℤ :=
  let result : ℤ := match call with
    | .fanotifyInit _ => 3
    | .readlink _ => 4
    | .openCmdline _ => -1
    | .respond fd _ => if fd ∈ kept.1.pending then 8 else -1
    | .close fd => if 0 ≤ fd then 0 else -1
    | _ => 0
  (kept.1.observe call result, result)

def keptAfter (trace : List Call) : Group × ℤ :=
  trace.foldl keep (Group.idle [], 0)

theorem keptAfter_concat (trace : List Call) (call : Call) :
    keptAfter (trace ++ [call]) = keep (keptAfter trace) call := by
  simp [keptAfter]

def keepingSystem : System where
  result := fun trace => (keptAfter trace).2
  link := fun _ => "/tmp/file".toList
  cmdline := fun _ => none
  strerror := fun _ => []
  selectFails := fun _ => false
  mallocFails := fun _ => false

theorem group_keepingSystem (trace : List Call) :
    keepingSystem.group trace = (keptAfter trace).1 := by
  induction trace using List.reverseRecOn with
  | nil => rfl
  | append_singleton trace call ih =>
      rw [System.group_concat, ih, keptAfter_concat]
      simp only [keepingSystem, keptAfter_concat]
      rfl

/-- What the group holds open has the number of a descriptor. -/
theorem Group.mem_opened_observe
    {group : Group} {call : Call} {result fd : ℤ}
    (hmem : fd ∈ (group.observe call result).opened) :
    fd ∈ group.opened ∨ 0 ≤ fd := by
  cases call with
  | read events =>
      rcases List.mem_append.mp hmem with hmem | hmem
      · exact Or.inl hmem
      · exact Or.inr (nonneg_of_mem_openedFds hmem)
  | respond other response =>
      simp only [Group.observe] at hmem
      split at hmem <;> exact Or.inl hmem
  | close other =>
      simp only [Group.observe] at hmem
      split at hmem
      · exact Or.inl hmem
      · exact Or.inl (List.mem_of_mem_erase hmem)
  | _ => exact Or.inl hmem

theorem nonneg_of_mem_keptAfter
    {fd : ℤ} {trace : List Call} (hmem : fd ∈ (keptAfter trace).1.opened) :
    0 ≤ fd := by
  induction trace using List.reverseRecOn with
  | nil => cases hmem
  | append_singleton trace call ih =>
      rw [keptAfter_concat] at hmem
      rcases Group.mem_opened_observe hmem with hmem | hnonneg
      · exact ih hmem
      · exact hnonneg

theorem obliging_keepingSystem : keepingSystem.Obliging := by
  constructor
  · intro trace fd response hmem
    rw [group_keepingSystem] at hmem
    have hresult : (keptAfter (trace ++ [.respond fd response])).2 = 8 := by
      rw [keptAfter_concat]
      exact if_pos hmem
    exact (by decide : (0 : ℤ) ≤ 8).trans hresult.ge
  · intro trace fd hmem
    rw [group_keepingSystem] at hmem
    have hresult : (keptAfter (trace ++ [.close fd])).2 = 0 := by
      rw [keptAfter_concat]
      exact if_pos (nonneg_of_mem_keptAfter hmem)
    exact hresult.ge

/-- A buffer of two events with descriptors of their own, one of which asks. -/
def twoEvents : List Byte :=
  toBytes 4 24 ++ toBytes 4 3 ++ toBytes 8 0x10000 ++ toBytes 4 5 ++
    toBytes 4 100 ++
  (toBytes 4 24 ++ toBytes 4 3 ++ toBytes 8 0x8 ++ toBytes 4 6 ++
    toBytes 4 100)

end LinuxKernelCode.Fanotify
