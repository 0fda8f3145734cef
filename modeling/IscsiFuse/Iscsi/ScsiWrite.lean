import IscsiFuse.Iscsi.Tags
import IscsiFuse.Iscsi.Target
set_option autoImplicit false

/-!
One `scsi_write` from its commands to the last response: the tasks of its chunks, the
receiver task, and the target that they write to. A task waits in `submit_command` until its
command goes out; the numbers it goes out with are the session's. Sends do not fail and
nothing times out.
-/

namespace IscsiFuse.Iscsi

/-- The task of a chunk: in `submit_command`, about to register its data, or awaiting the
response. -/
inductive ChunkTask where
  | submitting
  | submitted (itt : Nat)
  | awaiting
  | finished (r : Except Error Unit)

def ChunkTask.result : ChunkTask → Option (Except Error Unit)
  | .finished r => some r
  | _ => none

/-- `tags` has the task that holds a tag, and its sender until that is taken. -/
@[ext] structure Writing where
  tasks : Nat → ChunkTask
  tags : Nat → Option Nat
  writeData : Nat → Option Bytes
  replies : Nat → Option PduResponse
  receiver : Receiver
  target : Target

def Writing.start (medium : Image) : Writing where
  tasks := fun _ => .submitting
  tags := fun _ => none
  writeData := fun _ => none
  replies := fun _ => none
  receiver := .idle
  target := ⟨fun _ => none,medium⟩

inductive WriteLabel where
  | submit (k itt : Nat) (cmdSn expStatSn : BitVec 32)
  | register (k : Nat)
  | receive (q : Pdu)
  | handle (expStatSn : BitVec 32)
  | finish (k : Nat)

namespace Writing

def setTask (s : Writing) (k : Nat) (x : ChunkTask) : Writing :=
  { s with tasks := Function.update s.tasks k x }

/-- The steps of `submit_command`, when the command is in the window and the tag is free. -/
def submit (p : Pipeline) (s : Writing) (w : WriteCommand) (k itt : Nat)
    (cmdSn expStatSn : BitVec 32) : Option Writing :=
  match s.tasks k, s.tags itt with
  | .submitting, none =>
    if itt < 128 then do
      let c ← p.writeCommand w
      let target ← s.target.command p.blockSize p.negotiated.maxSendDataSegmentLength
        ((Sender.command c itt).pdu cmdSn expStatSn)
      pure { s.setTask k (.submitted itt) with
        tags := Function.update s.tags itt (some k), target := target }
    else none
  | _, _ => none

def register (s : Writing) (w : WriteCommand) (k : Nat) : Option Writing :=
  match s.tasks k with
  | .submitted itt => some { s.setTask k .awaiting with
      writeData := Function.update s.writeData itt (some w.data) }
  | _ => none

def reply (s : Writing) (tx : Option Nat) (r : PduResponse) : Nat → Option PduResponse :=
  match tx with
  | some k => Function.update s.replies k (some r)
  | none => s.replies

/-- A step of the receiver. -/
def handle (n : NegotiatedParams) (s : Writing) (expStatSn : BitVec 32) : Option Writing :=
  match s.receiver with
  | .takeData q => some { s with receiver := .takeSender q (q.response none) }
  | .takeSender q r => some { s with receiver := .deliver q r (s.tags q.itt) }
  | .deliver q r tx => some { s with replies := s.reply tx r, receiver := .free q }
  | .free q => some { s with
      tags := Function.update s.tags q.itt none, receiver := .removeWriteData q.itt }
  | .removeWriteData itt => some { s with
      writeData := Function.update s.writeData itt none, receiver := .idle }
  | .lookup r tries => match s.writeData r.itt with
    | some data => some { s with receiver := .loadStat r data }
    | none => some { s with receiver := if tries ≤ 1 then .idle else .lookup r (tries-1) }
  | .loadStat r data => some { s with receiver := .dataOut r data expStatSn 0 0 }
  | .dataOut r data stat sent dataSn =>
    if sent < r.desiredLength then do
      let q ← r.dataOutPdu n.maxSegment data stat sent dataSn
      let target ← s.target.dataOut n.maxSendDataSegmentLength q
      pure { s with
        target := target
        receiver := .dataOut r data stat (sent+min (r.desiredLength-sent) n.maxSegment) (dataSn+1) }
    else some { s with receiver := .idle }
  | _ => none

def finish (s : Writing) (k : Nat) : Option Writing :=
  match s.tasks k, s.replies k with
  | .awaiting, some r => some (s.setTask k (.finished (checkScsiStatus "SCSI WRITE" r)))
  | _, _ => none

end Writing

/-- The target takes segments as long as was negotiated for sending. -/
def writeStep (p : Pipeline) (ws : List WriteCommand) (s : Writing) : WriteLabel → Option Writing
  | .submit k itt cmdSn expStatSn => ws[k]?.bind (fun w => s.submit p w k itt cmdSn expStatSn)
  | .register k => ws[k]?.bind (fun w => s.register w k)
  | .receive q => if s.receiver = .idle then
      (s.target.sends p.blockSize q).map (fun target =>
        { s with target := target, receiver := .dispatch q }) else none
  | .handle expStatSn => s.handle p.negotiated expStatSn
  | .finish k => s.finish k

def scsiWriteSingleInner (o : Outcome) : Except Error Unit := do
  let response ← awaitReply "submit SCSI WRITE" "SCSI WRITE" o
  checkScsiStatus "SCSI WRITE" response

def joinWrites : List (Option (Except Error Unit)) → Option (Except Error Unit)
  | [] => some (.ok ())
  | none :: _ => none
  | some (.error e) :: _ => some (.error ("write chunk failed" :: e))
  | some (.ok ()) :: rest => joinWrites rest

def awaitWrites : List (Option (Except Error Unit)) → Option (Except Error Unit)
  | [r] => r
  | rs => joinWrites rs

theorem joinWrites_ok {rs : List (Option (Except Error Unit))}
    (h : ∀ r ∈ rs, r = none ∨ r = some (.ok ())) :
    joinWrites rs = if none ∈ rs then none else some (.ok ()) := by
  induction rs with
  | nil => rfl
  | cons r rs ih =>
    rcases h r List.mem_cons_self with rfl | rfl
    · rw [joinWrites,if_pos List.mem_cons_self]
    · rw [joinWrites,ih (fun r hr => h r (List.mem_cons_of_mem _ hr))]
      simp

theorem awaitWrites_ok {rs : List (Option (Except Error Unit))}
    (h : ∀ r ∈ rs, r = none ∨ r = some (.ok ())) :
    awaitWrites rs = if none ∈ rs then none else some (.ok ()) := by
  unfold awaitWrites
  split
  · rcases h _ List.mem_cons_self with rfl | rfl <;> simp
  · exact joinWrites_ok h

/-- What `scsi_write` returns, once it does. -/
def Writing.result (ws : List WriteCommand) (s : Writing) : Option (Except Error Unit) :=
  match (List.range ws.length).map (fun k => (s.tasks k).result) with
  | [r] => r
  | rs => joinWrites rs

/-- An R2T finds the data of its own command, at the last try or before. -/
def FindsOwn (ws : List WriteCommand) (s : Writing) (l : WriteLabel) : Prop :=
  (match l, s.receiver with
    | .handle _, .lookup r tries => match s.writeData r.itt with
      | some data => ((s.tags r.itt).bind (fun k => ws[k]?)).any (fun w => w.data = data)
      | none => 1 < tries
    | _, _ => true) = true

instance (ws : List WriteCommand) (s : Writing) (l : WriteLabel) : Decidable (FindsOwn ws s l) :=
  inferInstanceAs (Decidable (_ = true))

theorem findsOwn_other {ws : List WriteCommand} {s : Writing} {l : WriteLabel}
    (h : ∀ stat, l ≠ .handle stat) : FindsOwn ws s l := by
  cases l with
  | handle stat => exact absurd rfl (h stat)
  | _ => rfl

section Steps

variable {p : Pipeline} {ws : List WriteCommand}

inductive WriteStep (p : Pipeline) (ws : List WriteCommand) (s : Writing) :
    WriteLabel → Writing → Prop
  | submit (k itt : Nat) (cmdSn expStatSn : BitVec 32) (w : WriteCommand) (c : Command)
      (target : Target) : ws[k]? = some w → s.tasks k = .submitting → s.tags itt = none →
      itt < 128 → p.writeCommand w = some c →
      s.target.command p.blockSize p.negotiated.maxSendDataSegmentLength
        ((Sender.command c itt).pdu cmdSn expStatSn) = some target →
      WriteStep p ws s (.submit k itt cmdSn expStatSn) { s.setTask k (.submitted itt) with
        tags := Function.update s.tags itt (some k), target := target }
  | register (k itt : Nat) (w : WriteCommand) : ws[k]? = some w → s.tasks k = .submitted itt →
      WriteStep p ws s (.register k) { s.setTask k .awaiting with
        writeData := Function.update s.writeData itt (some w.data) }
  | solicit (q : Pdu) (x y : Transfer) : s.receiver = .idle → s.target.transfers q.itt = some x →
      x.solicit q.burst = some y →
      WriteStep p ws s (.receive q) { s with
        target := s.target.setTransfer q.itt (some y)
        receiver := .lookup ⟨q.itt,q.burst.ttt,q.burst.off,q.burst.len⟩ 50 }
  | good (q : Pdu) (x : Transfer) : s.receiver = .idle → s.target.transfers q.itt = some x →
      x.Complete → q.bhs.scsiStatus = 0 →
      WriteStep p ws s (.receive q) { s with
        target := { s.target.setTransfer q.itt none with
          medium := (x.patch p.blockSize).apply s.target.medium }
        receiver := .takeData q }
  | takeData (q : Pdu) (stat : BitVec 32) : s.receiver = .takeData q →
      WriteStep p ws s (.handle stat) { s with receiver := .takeSender q (q.response none) }
  | takeSender (q : Pdu) (r : PduResponse) (stat : BitVec 32) : s.receiver = .takeSender q r →
      WriteStep p ws s (.handle stat) { s with receiver := .deliver q r (s.tags q.itt) }
  | deliver (q : Pdu) (r : PduResponse) (tx : Option Nat) (stat : BitVec 32) :
      s.receiver = .deliver q r tx → WriteStep p ws s (.handle stat) { s with
        replies := s.reply tx r, receiver := .free q }
  | free (q : Pdu) (stat : BitVec 32) : s.receiver = .free q →
      WriteStep p ws s (.handle stat) { s with
        tags := Function.update s.tags q.itt none, receiver := .removeWriteData q.itt }
  | removeWriteData (itt : Nat) (stat : BitVec 32) : s.receiver = .removeWriteData itt →
      WriteStep p ws s (.handle stat) { s with
        writeData := Function.update s.writeData itt none, receiver := .idle }
  | found (r : R2t) (tries : Nat) (data : Bytes) (stat : BitVec 32) :
      s.receiver = .lookup r tries → s.writeData r.itt = some data →
      WriteStep p ws s (.handle stat) { s with receiver := .loadStat r data }
  | missed (r : R2t) (tries : Nat) (stat : BitVec 32) : s.receiver = .lookup r tries →
      s.writeData r.itt = none → WriteStep p ws s (.handle stat) { s with
        receiver := if tries ≤ 1 then .idle else .lookup r (tries-1) }
  | loadStat (r : R2t) (data : Bytes) (stat : BitVec 32) : s.receiver = .loadStat r data →
      WriteStep p ws s (.handle stat) { s with receiver := .dataOut r data stat 0 0 }
  | dataOut (r : R2t) (data : Bytes) (stat stat' : BitVec 32) (sent dataSn : Nat) (q : Pdu)
      (x y : Transfer) : s.receiver = .dataOut r data stat sent dataSn → sent < r.desiredLength →
      r.dataOutPdu p.negotiated.maxSegment data stat sent dataSn = some q →
      s.target.transfers q.wireItt = some x →
      x.receive p.negotiated.maxSendDataSegmentLength q = some y →
      WriteStep p ws s (.handle stat') { s with
        target := s.target.setTransfer q.wireItt (some y)
        receiver := .dataOut r data stat
          (sent+min (r.desiredLength-sent) p.negotiated.maxSegment) (dataSn+1) }
  | answered (r : R2t) (data : Bytes) (stat stat' : BitVec 32) (sent dataSn : Nat) :
      s.receiver = .dataOut r data stat sent dataSn → r.desiredLength ≤ sent →
      WriteStep p ws s (.handle stat') { s with receiver := .idle }
  | finish (k : Nat) (r : PduResponse) : s.tasks k = .awaiting → s.replies k = some r →
      WriteStep p ws s (.finish k) (s.setTask k (.finished (checkScsiStatus "SCSI WRITE" r)))

variable {s t : Writing} {l : WriteLabel}

theorem submit_step {w : WriteCommand} {k itt : Nat} {cmdSn expStatSn : BitVec 32}
    (hw : ws[k]? = some w) (h : s.submit p w k itt cmdSn expStatSn = some t) :
    WriteStep p ws s (.submit k itt cmdSn expStatSn) t := by
  unfold Writing.submit at h
  split at h
  · rename_i hk hi
    split at h
    · rename_i hlt
      simp only [Option.bind_eq_bind,Option.bind_eq_some_iff] at h
      obtain ⟨c,hc,target,ht,h⟩ := h
      cases h
      exact .submit k itt cmdSn expStatSn w c target hw hk hi hlt hc ht
    · cases h
  · cases h

theorem receive_step {q : Pdu} (h : writeStep p ws s (.receive q) = some t) :
    WriteStep p ws s (.receive q) t := by
  simp only [writeStep] at h
  split at h
  · rename_i hidle
    obtain ⟨target,ht,rfl⟩ := Option.map_eq_some_iff.mp h
    obtain ⟨x,hx,⟨ho,y,hy,rfl⟩ | ⟨ho,hs,hc,rfl⟩⟩ := Target.sends_cases ht
    · have hd : Receiver.dispatch q = .lookup ⟨q.itt,q.burst.ttt,q.burst.off,q.burst.len⟩ 50 := by
        rw [Receiver.dispatch,ho]
        rfl
      rw [hd]
      exact .solicit q x y hidle hx hy
    · have hd : Receiver.dispatch q = .takeData q := by rw [Receiver.dispatch,ho]
      rw [hd]
      exact .good q x hidle hx hc hs
  · cases h

theorem handleWrite_step {stat : BitVec 32} (h : s.handle p.negotiated stat = some t) :
    WriteStep p ws s (.handle stat) t := by
  unfold Writing.handle at h
  split at h
  · rename_i q hr
    cases h
    exact .takeData q stat hr
  · rename_i q r hr
    cases h
    exact .takeSender q r stat hr
  · rename_i q r tx hr
    cases h
    exact .deliver q r tx stat hr
  · rename_i q hr
    cases h
    exact .free q stat hr
  · rename_i itt hr
    cases h
    exact .removeWriteData itt stat hr
  · rename_i r tries hr
    split at h
    · rename_i data hd
      cases h
      exact .found r tries data stat hr hd
    · rename_i hd
      cases h
      exact .missed r tries stat hr hd
  · rename_i r data hr
    cases h
    exact .loadStat r data stat hr
  · rename_i r data stat' sent dataSn hr
    split at h
    · rename_i hlt
      simp only [Target.dataOut,Option.bind_eq_bind,Option.bind_eq_some_iff] at h
      obtain ⟨q,hq,target,⟨x,hx,y,hy,ht⟩,h⟩ := h
      cases h
      cases ht
      exact .dataOut r data stat' stat sent dataSn q x y hr hlt hq hx hy
    · rename_i hge
      cases h
      exact .answered r data stat' stat sent dataSn hr (by omega)
  · cases h

theorem write_step (h : writeStep p ws s l = some t) : WriteStep p ws s l t := by
  cases l with
  | submit k itt cmdSn expStatSn =>
    obtain ⟨w,hw,h⟩ := Option.bind_eq_some_iff.mp h
    exact submit_step hw h
  | register k =>
    obtain ⟨w,hw,h⟩ := Option.bind_eq_some_iff.mp h
    unfold Writing.register at h
    split at h
    · rename_i itt hk
      cases h
      exact .register k itt w hw hk
    · cases h
  | receive q => exact receive_step h
  | handle stat => exact handleWrite_step h
  | finish k =>
    simp only [writeStep,Writing.finish] at h
    split at h
    · rename_i r hk hr
      cases h
      exact .finish k r hk hr
    · cases h

end Steps

end IscsiFuse.Iscsi
