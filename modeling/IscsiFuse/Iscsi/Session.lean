import IscsiFuse.Library.Machine
import IscsiFuse.Iscsi.Chunks
import IscsiFuse.Iscsi.Command
import IscsiFuse.Iscsi.IttPool
import IscsiFuse.Iscsi.Pdu
set_option autoImplicit false

/-!
The session as a machine: any number of calls to `submit_command`, `send_nop_out`
and `send_logout` next to the receiver task. Every atomic access, every access
under a lock and every send is a step of its own. The target is the environment:
it chooses the PDUs that arrive.
-/

namespace IscsiFuse.Iscsi

structure SessionState where
  cmdSn : BitVec 32
  expStatSn : BitVec 32
  expCmdSn : BitVec 32
  maxCmdSn : BitVec 32

def SessionState.new (initialCmdSn initialExpStatSn : BitVec 32) : SessionState where
  cmdSn := initialCmdSn
  expStatSn := initialExpStatSn
  expCmdSn := initialCmdSn
  maxCmdSn := initialCmdSn

/-- Serial number comparison: `b` is ahead of `a` by less than half the space. -/
def serialLe (a b : BitVec 32) : Bool := a = b || (0 < b-a && b-a < 0x80000000)

/-- The three stores are one step: no task reads two of the fields they write. -/
def SessionState.updateSequenceNumbers (s : SessionState) (b : Bhs) : SessionState :=
  { s with expStatSn := b.statSn+1, expCmdSn := b.expCmdSn, maxCmdSn := b.maxCmdSn }

/-- Whose PDU it is that carries a CmdSN. -/
inductive Sender where
  | command (c : Command) (itt : Nat)
  | nop (ttt : BitVec 32)
  | logout
  deriving DecidableEq

def Sender.takes : Sender → Bool
  | .nop _ => false
  | _ => true

def Sender.pdu (cmdSn expStatSn : BitVec 32) : Sender → Pdu
  | .command c itt =>
    let bhs := Bhs.buildScsiCommand c.lun (BitVec.ofNat 32 itt) cmdSn expStatSn c.cdb.bytes c.cdb.size
      c.edtl c.read c.write
    { bhs := match c.immediateData with
        | some data => bhs.setDataSegmentLength data.length
        | none => bhs
      ahs := none
      data := c.immediateData }
  | .nop ttt => ⟨Bhs.buildNopOut 0xFFFFFFFF ttt cmdSn expStatSn,none,none⟩
  | .logout => ⟨Bhs.buildLogoutRequest 0xFFFFFFFF cmdSn expStatSn 0,none,none⟩

/-- The way of a PDU to the wire. `turn` counts the CmdSNs taken before its own. -/
inductive Numbering where
  | number
  | stat (cmdSn : BitVec 32) (turn : Nat)
  | send (p : Pdu) (turn : Nat)
  deriving DecidableEq

inductive Call where
  | idle
  | window (c : Command)
  | inWindow (c : Command) (cmdSn : BitVec 32)
  | load (c : Command) (h : Half)
  | cas (c : Command) (h : Half) (current : BitVec 64)
  | store (c : Command) (itt : Nat)
  | numbering (w : Sender) (n : Numbering)
  | register (itt : Nat) (data : Bytes)
  | waiting (itt : Nat)
  | finished
  deriving DecidableEq

def Pdu.itt (p : Pdu) : Nat := p.bhs.itt.toNat

def Pdu.isFinal (p : Pdu) : Bool :=
  p.bhs.opcode = .scsiResponse || (p.bhs.opcode = .scsiDataIn && p.bhs.statusFlag)

structure R2t where
  itt : Nat
  ttt : BitVec 32
  bufferOffset : Nat
  desiredLength : Nat
  deriving DecidableEq

/-- The receiver task; `p` is the final PDU of the command being completed. -/
inductive Receiver where
  | idle
  | accumulate (p : Pdu) (data : Bytes)
  | takeData (p : Pdu)
  | takeSender (p : Pdu) (r : PduResponse)
  | deliver (p : Pdu) (r : PduResponse) (tx : Option Nat)
  | free (p : Pdu)
  | removeWriteData (itt : Nat)
  | lookup (r : R2t) (tries : Nat)
  | loadStat (r : R2t) (data : Bytes)
  | dataOut (r : R2t) (data : Bytes) (expStatSn : BitVec 32) (sent dataSn : Nat)
  | pong (ttt : BitVec 32) (n : Numbering)
  | stopped
  deriving DecidableEq

def Receiver.dispatch (p : Pdu) : Receiver :=
  match p.bhs.opcode with
  | .scsiResponse => .takeData p
  | .scsiDataIn => match p.data with
    | some data => .accumulate p data
    | none => if p.bhs.statusFlag then .takeData p else .idle
  | .r2t => .lookup ⟨p.itt,p.bhs.ttt,p.bhs.r2tBufferOffset.toNat,p.bhs.r2tDesiredLength.toNat⟩ 50
  | .nopIn => if p.bhs.ttt ≠ 0xFFFFFFFF then .pong p.bhs.ttt .number else .idle
  | _ => .idle

/-- What an observer of the wire and of the callers sees. A PDU that names the
tag of a command of call `k` is received for `k`. -/
inductive SessionEvent where
  | took (k : Nat)
  | sent (k : Option Nat) (w : Sender) (p : Pdu)
  | dataOut (p : Pdu)
  | received (k : Option Nat) (p : Pdu)
  | delivered (k : Nat) (r : PduResponse)
  deriving DecidableEq

/-- The life of a tag: allocated, sender stored, at the target, answered. -/
inductive Slot where
  | free
  | claimed (k : Nat)
  | ready (k : Nat)
  | opened (k : Nat)
  | closing (k : Nat)
  deriving DecidableEq

/-- `slots` and `log` only observe; no step depends on them. -/
structure Session where
  pool : IttPool
  state : SessionState
  negotiated : NegotiatedParams
  dataAccumulator : Nat → Option Bytes
  calls : Nat → Call
  receiver : Receiver
  slots : Nat → Slot
  log : List SessionEvent

def Session.start (initialCmdSn initialExpStatSn : BitVec 32) (negotiated : NegotiatedParams) :
    Session where
  pool := .new
  state := .new initialCmdSn initialExpStatSn
  negotiated := negotiated
  dataAccumulator := fun _ => none
  calls := fun _ => .idle
  receiver := .idle
  slots := fun _ => .free
  log := []

def takers (log : List SessionEvent) : List Nat :=
  log.filterMap (fun e => match e with
    | .took k => some k
    | _ => none)

def commandsSent (log : List SessionEvent) : List Nat :=
  log.filterMap (fun e => match e with
    | .sent (some k) (.command _ _) _ => some k
    | _ => none)

@[simp] theorem commandsSent_append (l m : List SessionEvent) :
    commandsSent (l ++ m) = commandsSent l ++ commandsSent m := List.filterMap_append

def Slot.opener : Slot → Option Nat
  | .opened k => some k
  | _ => none

/-- The response that `handle_scsi_response` and `handle_data_in` build. -/
def Pdu.response (p : Pdu) (data : Option Bytes) : PduResponse where
  status := .ofByte p.bhs.scsiStatus
  data := data
  sense := if p.bhs.opcode = .scsiResponse then p.data else none

/-- Place a Data-In payload in the buffer, which grows with zeros as needed. -/
def accumulate (buf : Bytes) (off : Nat) (data : Bytes) : Bytes :=
  Bytes.place (buf ++ List.replicate (off+data.length-buf.length) 0) off data

/-- The segment limit of `handle_r2t`. -/
def NegotiatedParams.maxSegment (n : NegotiatedParams) : Nat :=
  if 0 < n.maxSendDataSegmentLength then n.maxSendDataSegmentLength
  else if 0 < n.maxRecvDataSegmentLength then n.maxRecvDataSegmentLength
  else 262144

theorem maxSegment_pos (n : NegotiatedParams) : 0 < n.maxSegment := by
  unfold NegotiatedParams.maxSegment
  split
  · assumption
  · split
    · assumption
    · decide

theorem maxSegment_eq {n : NegotiatedParams} (h : 0 < n.maxSendDataSegmentLength) :
    n.maxSegment = n.maxSendDataSegmentLength := if_pos h

def R2t.dataOutPdu (r : R2t) (maxSegment : Nat) (data : Bytes) (expStatSn : BitVec 32)
    (sent dataSn : Nat) : Option Pdu := do
  let chunkLen := min (r.desiredLength-sent) maxSegment
  let offset := r.bufferOffset+sent
  let chunk ← slice data offset (min (offset+chunkLen) data.length)
  let isFinal : Bool := r.desiredLength ≤ sent+chunkLen
  let bhs := Bhs.buildDataOut 0 (BitVec.ofNat 32 r.itt) r.ttt expStatSn (BitVec.ofNat 32 dataSn)
    (BitVec.ofNat 32 offset)
  pure ⟨(bhs.setFlags (if isFinal then 0x80 else 0x00)).setDataSegmentLength chunk.length,none,
    some chunk⟩

inductive Label where
  | submit (k : Nat) (c : Command)
  | nopOut (k : Nat)
  | logout (k : Nat)
  | advance (k : Nat)
  | casFailed (k : Nat)
  | sent (k : Nat)
  | sendFailed (k : Nat)
  | finish (k : Nat)
  | receive (p : Pdu)
  | handle
  | handleSent
  | handleFailed
  deriving DecidableEq

def Label.pdu : Label → Option Pdu
  | .receive p => some p
  | _ => none

namespace Session

def setCall (s : Session) (k : Nat) (c : Call) : Session :=
  { s with calls := Function.update s.calls k c }

def setSlot (s : Session) (itt : Nat) (x : Slot) : Session :=
  { s with slots := Function.update s.slots itt x }

def observe (s : Session) (e : SessionEvent) : Session := { s with log := s.log ++ [e] }

@[simp] theorem setCall_self (s : Session) (k : Nat) (c : Call) : (s.setCall k c).calls k = c := by
  simp [setCall]

theorem setCall_other {s : Session} {j k : Nat} {c : Call} (h : j ≠ k) :
    (s.setCall k c).calls j = s.calls j := by simp [setCall,h]

@[simp] theorem observe_calls (s : Session) (e : SessionEvent) : (s.observe e).calls = s.calls := rfl

@[simp] theorem observe_log (s : Session) (e : SessionEvent) : (s.observe e).log = s.log ++ [e] := rfl

def takeNumber (s : Session) (k : Nat) (w : Sender) : Session :=
  if w.takes then
    { s.observe (.took k) with state := { s.state with cmdSn := s.state.cmdSn+1 } }
  else s

theorem takeNumber_calls (s : Session) (k : Nat) (w : Sender) :
    (s.takeNumber k w).calls = s.calls := by
  unfold takeNumber
  split <;> rfl

theorem takeNumber_tables (s : Session) (k : Nat) (w : Sender) :
    (s.takeNumber k w).pool = s.pool ∧ (s.takeNumber k w).slots = s.slots ∧
      (s.takeNumber k w).receiver = s.receiver ∧
      (s.takeNumber k w).dataAccumulator = s.dataAccumulator := by
  unfold takeNumber
  split <;> exact ⟨rfl,rfl,rfl,rfl⟩

def advance (s : Session) (k : Nat) : Option Session :=
  match s.calls k with
  | .window c => some (s.setCall k (.inWindow c s.state.cmdSn))
  | .inWindow c cmdSn =>
    some (s.setCall k (if serialLe cmdSn s.state.maxCmdSn then .load c .lo else .window c))
  | .load c h => some (s.setCall k (.cas c h (s.pool.slots h)))
  | .cas c h current =>
    let bit := IttPool.freeBit current
    if bit < 64 then
      if s.pool.slots h = current then
        let itt := h.base+bit
        some ({ s.setSlot itt (.claimed k) with pool := s.pool.claim h bit }.setCall k (.store c itt))
      else some (s.setCall k (.load c h))
    else some (s.setCall k (.load c (match h with
      | .lo => .hi
      | .hi => .lo)))
  | .store c itt =>
    some ({ s.setSlot itt (.ready k) with pool := s.pool.putSender itt (some k) }.setCall k
      (.numbering (.command c itt) .number))
  | .numbering w .number =>
    some ((s.takeNumber k w).setCall k (.numbering w (.stat s.state.cmdSn (takers s.log).length)))
  | .numbering w (.stat cmdSn turn) =>
    some (s.setCall k (.numbering w (.send (w.pdu cmdSn s.state.expStatSn) turn)))
  | .register itt data =>
    some ({ s with pool := s.pool.putWriteData itt (some ⟨k,data⟩) }.setCall k (.waiting itt))
  | _ => none

/-- `send_pdu` succeeds under the writer lock. -/
def sent (s : Session) (k : Nat) : Option Session :=
  match s.calls k with
  | .numbering (.command c itt) (.send p _) =>
    some (((s.observe (.sent (some k) (.command c itt) p)).setSlot itt (.opened k)).setCall k
      (match c.writeData with
        | some data => .register itt data
        | none => .waiting itt))
  | .numbering w (.send p _) => some ((s.observe (.sent (some k) w p)).setCall k .finished)
  | _ => none

def closeSlot (s : Session) (p : Pdu) : Nat → Slot :=
  match (s.slots p.itt).opener with
  | some k => if p.isFinal then Function.update s.slots p.itt (.closing k) else s.slots
  | none => s.slots

/-- `recv_pdu` returns; the sequence numbers are updated and the PDU dispatched. -/
def receive (s : Session) (p : Pdu) : Session :=
  { s.observe (.received (s.slots p.itt).opener p) with
    state := s.state.updateSequenceNumbers p.bhs
    slots := s.closeSlot p
    receiver := .dispatch p }

/-- A step of the receiver that sends nothing. An index out of range ends it. -/
def handle (s : Session) : Option Session :=
  match s.receiver with
  | .accumulate p data =>
    let buf := accumulate ((s.dataAccumulator p.itt).getD []) p.bhs.bufferOffset.toNat data
    some { s with dataAccumulator := Function.update s.dataAccumulator p.itt (some buf),
                  receiver := if p.bhs.statusFlag then .takeData p else .idle }
  | .takeData p =>
    some { s with dataAccumulator := Function.update s.dataAccumulator p.itt none,
                  receiver := .takeSender p (p.response (s.dataAccumulator p.itt)) }
  | .takeSender p r =>
    if p.itt < 128 then
      some { s with pool := s.pool.putSender p.itt none,
                    receiver := .deliver p r (s.pool.completions p.itt) }
    else some { s with receiver := .stopped }
  | .deliver p r tx =>
    let s := match tx with
      | some k => if s.calls k = Call.finished then s else s.observe (.delivered k r)
      | none => s
    some { s with receiver := .free p }
  | .free p =>
    some { s.setSlot p.itt .free with
      pool := s.pool.free p.itt
      receiver := if p.bhs.opcode = .scsiResponse then .removeWriteData p.itt else .idle }
  | .removeWriteData itt =>
    some { s with pool := s.pool.putWriteData itt none, receiver := .idle }
  | .lookup r tries => match s.pool.writeData r.itt with
    | some d => some { s with receiver := .loadStat r d.data }
    | none => some { s with receiver := if tries ≤ 1 then .idle else .lookup r (tries-1) }
  | .loadStat r data => some { s with receiver := .dataOut r data s.state.expStatSn 0 0 }
  | .dataOut r data stat sent dataSn =>
    if sent < r.desiredLength then
      match r.dataOutPdu s.negotiated.maxSegment data stat sent dataSn with
      | some _ => none
      | none => some { s with receiver := .stopped }
    else some { s with receiver := .idle }
  | .pong ttt .number =>
    some { s with receiver := .pong ttt (.stat s.state.cmdSn (takers s.log).length) }
  | .pong ttt (.stat cmdSn turn) =>
    some { s with receiver := .pong ttt (.send ((Sender.nop ttt).pdu cmdSn s.state.expStatSn) turn) }
  | _ => none

def nextDataOut (s : Session) : Option Pdu :=
  match s.receiver with
  | .dataOut r data stat sent dataSn =>
    if sent < r.desiredLength then r.dataOutPdu s.negotiated.maxSegment data stat sent dataSn else none
  | _ => none

def handleSent (s : Session) : Option Session :=
  match s.receiver with
  | .pong ttt (.send p _) => some { s.observe (.sent none (.nop ttt) p) with receiver := .idle }
  | .dataOut r data stat sent dataSn => s.nextDataOut.map (fun p =>
      { s.observe (.dataOut p) with
        receiver := .dataOut r data stat (sent+min (r.desiredLength-sent) s.negotiated.maxSegment)
          (dataSn+1) })
  | _ => none

def handleFailed (s : Session) : Option Session :=
  match s.receiver with
  | .pong _ (.send _ _) => some { s with receiver := .stopped }
  | .dataOut _ _ _ _ _ => s.nextDataOut.map (fun _ => { s with receiver := .stopped })
  | _ => none

end Session

open Session

def sessionStep (s : Session) : Label → Option Session
  | .submit k c => if s.calls k = .idle then some (s.setCall k (.window c)) else none
  | .nopOut k =>
    if s.calls k = .idle then some (s.setCall k (.numbering (.nop 0xFFFFFFFF) .number)) else none
  | .logout k => if s.calls k = .idle then some (s.setCall k (.numbering .logout .number)) else none
  | .advance k => s.advance k
  | .casFailed k => match s.calls k with
    | .cas c h current =>
      if IttPool.freeBit current < 64 then some (s.setCall k (.load c h)) else none
    | _ => none
  | .sent k => s.sent k
  | .sendFailed k => match s.calls k with
    | .numbering _ (.send _ _) => some (s.setCall k .finished)
    | _ => none
  | .finish k => match s.calls k with
    | .waiting _ => some (s.setCall k .finished)
    | _ => none
  | .receive p => if s.receiver = .idle then some (s.receive p) else none
  | .handle => s.handle
  | .handleSent => s.handleSent
  | .handleFailed => s.handleFailed

/-- The steps of `submit_command` up to its `fetch_add`, when nothing else runs. -/
def Label.prepare (k : Nat) (c : Command) : List Label := .submit k c :: List.replicate 5 (.advance k)

/-- The steps from there until the PDU is on the wire. -/
def Label.transmit (k : Nat) : List Label := [.advance k,.advance k,.sent k]

def readBlock (lba : Nat) : Command := ⟨buildRead lba 1,0,512,true,none,none⟩

end IscsiFuse.Iscsi
