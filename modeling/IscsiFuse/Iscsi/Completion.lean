import IscsiFuse.Iscsi.Receiver
import IscsiFuse.Iscsi.ScsiWrite
set_option autoImplicit false

namespace IscsiFuse.Iscsi
open Session

/-- What `scsi_write` returns when its commands come to the outcomes `os`. -/
def scsiWriteOutcome (os : List Outcome) : Option (Except Error Unit) :=
  match os with
  | [o] => some (scsiWriteSingleInner o)
  | os => joinWrites (os.map (fun o => some (scsiWriteSingleInner o)))

def scsiSynchronizeCache (o : Outcome) : Except Error Unit := do
  let response ← awaitReply "submit SYNCHRONIZE CACHE" "SYNCHRONIZE CACHE" o
  checkScsiStatus "SYNCHRONIZE CACHE" response

/-- The target reports that the command was completed, with GOOD status, and that no data of
the transfer are left over or missing. -/
structure FullCompletion (header : Bytes.Sized 48) : Prop where
  response : header.1.getD 2 0 = 0x00
  status : header.1.getD 3 0 = 0x00
  noOverflow : header.1.getD 1 0 &&& 0x04 = 0
  noUnderflow : header.1.getD 1 0 &&& 0x02 = 0

structure Session.Awaits (s : Session) (p : Pdu) (k : Nat) : Prop where
  opcode : p.bhs.opcode = .scsiResponse
  tag : p.itt < 128
  sender : s.pool.completions p.itt = some k
  call : s.calls k ≠ .finished

/-- A SCSI Response with this header completes a command of the session with `r`. -/
def Session.Completes (s : Session) (header : Bytes.Sized 48) (r : PduResponse) : Prop :=
  ∃ k data b t, Bhs.parse header = .ok b ∧ s.Awaits ⟨b,none,data⟩ k ∧
    (s.receive ⟨b,none,data⟩).Finishes t ∧
    t.log = (s.receive ⟨b,none,data⟩).log ++ [.delivered k r]

def Completed (header : Bytes.Sized 48) (r : PduResponse) : Prop :=
  ∃ s : Session, s.Completes header r

theorem handleScsiResponse_delivers {s : Session} {p : Pdu} {k : Nat} (h : s.Awaits p k) :
    ∃ t, (∀ u, (s.receive p).Finishes u ↔ u = t) ∧
      t.log = (s.receive p).log ++ [.delivered k (p.response (s.dataAccumulator p.itt))] := by
  have hr : (s.receive p).receiver = .takeData p := by
    show Receiver.dispatch p = _
    rw [Receiver.dispatch,h.opcode]
  obtain ⟨t,ht,_,_,_,_,_,hdel⟩ := finishes_takeData hr h.tag
  exact ⟨t,ht,hdel k h.sender h.call⟩

theorem Completed.status {header : Bytes.Sized 48} {r : PduResponse} (h : Completed header r) :
    r.status = .ofByte (header.1.getD 3 0) := by
  obtain ⟨s,k,data,b,t,hp,ha,hf,hl⟩ := h
  obtain ⟨u,hu,hul⟩ := handleScsiResponse_delivers ha
  obtain rfl := (hu t).mp hf
  rw [hul] at hl
  have hr := List.append_cancel_left hl
  simp only [List.cons.injEq,SessionEvent.delivered.injEq,true_and,and_true] at hr
  rw [← hr,← Bhs.parse_raw hp]
  rfl

theorem ofByte_eq_good {v : UInt8} : ScsiStatus.ofByte v = .good ↔ v = 0 := by
  unfold ScsiStatus.ofByte
  split
  · simp_all
  · rename_i h
    repeat' split
    all_goals simp [h]

theorem scsiWriteSingleInner_eq_ok {r : PduResponse} {u : Unit} :
    scsiWriteSingleInner (.response r) = .ok u ↔ r.status = .good := checkScsiStatus_eq_ok "SCSI WRITE"

theorem scsiSynchronizeCache_eq_ok {r : PduResponse} {u : Unit} :
    scsiSynchronizeCache (.response r) = .ok u ↔ r.status = .good :=
  checkScsiStatus_eq_ok "SYNCHRONIZE CACHE"

theorem joinWrites_eq_ok {rs : List PduResponse} :
    joinWrites ((rs.map Outcome.response).map (fun o => some (scsiWriteSingleInner o))) =
      some (.ok ()) ↔ ∀ r ∈ rs, r.status = .good := by
  induction rs with
  | nil => simp [joinWrites]
  | cons r rs ih =>
    rw [List.map_cons,List.map_cons,List.forall_mem_cons,← ih,
      ← scsiWriteSingleInner_eq_ok (u := ())]
    cases scsiWriteSingleInner (.response r) with
    | error e => simp [joinWrites]
    | ok u => simp [joinWrites]

theorem scsiWriteOutcome_eq_ok {rs : List PduResponse} :
    scsiWriteOutcome (rs.map Outcome.response) = some (.ok ()) ↔ ∀ r ∈ rs, r.status = .good := by
  cases rs with
  | nil => simp [scsiWriteOutcome,joinWrites]
  | cons r rs =>
    cases rs with
    | nil => simp [scsiWriteOutcome,scsiWriteSingleInner_eq_ok]
    | cons r' rs => exact @joinWrites_eq_ok (r :: r' :: rs)

/-- The bytes of the header that are not looked at say nothing: Response code 0x00, O and U clear. -/
def Unremarkable (header : Bytes.Sized 48) : Prop :=
  header.1.getD 2 0 = 0x00 ∧ header.1.getD 1 0 &&& 0x06 = 0

theorem byte_residual : ∀ n, n < 256 →
    (UInt8.ofNat n &&& 0x06 = 0 ↔ UInt8.ofNat n &&& 0x04 = 0 ∧ UInt8.ofNat n &&& 0x02 = 0) := by
  decide +kernel

theorem fullCompletion_iff (header : Bytes.Sized 48) :
    FullCompletion header ↔ header.1.getD 3 0 = 0 ∧ Unremarkable header := by
  have hb := byte_residual (header.1.getD 1 0).toNat (UInt8.toNat_lt _)
  rw [UInt8.ofNat_toNat] at hb
  unfold Unremarkable
  rw [hb]
  exact ⟨fun h => ⟨h.status,h.response,h.noOverflow,h.noUnderflow⟩,
    fun ⟨hs,hr,ho,hu⟩ => ⟨hr,hs,ho,hu⟩⟩

theorem statuses_good {headers : List (Bytes.Sized 48)} {rs : List PduResponse}
    (h : List.Forall₂ Completed headers rs) :
    (∀ r ∈ rs, r.status = .good) ↔ ∀ header ∈ headers, header.1.getD 3 0 = 0 := by
  induction h with
  | nil => simp
  | cons hc _ ih => rw [List.forall_mem_cons,List.forall_mem_cons,ih,hc.status,ofByte_eq_good]

/-- A write, or SYNCHRONIZE CACHE, reports success only for commands completed in full exactly
when a status byte is not GOOD or nothing else in the headers speaks against it. -/
theorem success_full_iff {headers : List (Bytes.Sized 48)} {rs : List PduResponse}
    {header : Bytes.Sized 48} {r : PduResponse} (hw : List.Forall₂ Completed headers rs)
    (hs : Completed header r) :
    ((scsiWriteOutcome (rs.map .response) = some (.ok ()) →
      ∀ header ∈ headers, FullCompletion header) ↔
        ((∀ header ∈ headers, header.1.getD 3 0 = 0) → ∀ header ∈ headers, Unremarkable header)) ∧
    ((scsiSynchronizeCache (.response r) = .ok () → FullCompletion header) ↔
      (header.1.getD 3 0 = 0 → Unremarkable header)) := by
  constructor
  · rw [scsiWriteOutcome_eq_ok,statuses_good hw]
    simp only [fullCompletion_iff]
    exact ⟨fun hf hg header hm => (hf hg header hm).2,
      fun hf hg header hm => ⟨hg header hm,hf hg header hm⟩⟩
  · rw [scsiSynchronizeCache_eq_ok,hs.status,ofByte_eq_good,fullCompletion_iff]
    exact ⟨fun hf hg => (hf hg).2,fun hf hg => ⟨hg,hf hg⟩⟩

def responseHeader (response : UInt8) : Bytes.Sized 48 :=
  ⟨[0x21,0x80,response] ++ List.replicate 45 0,by simp⟩

theorem completes_alone (c : Command) {header : Bytes.Sized 48}
    (h : ∃ b, Bhs.parse header = .ok b ∧ b.opcode = .scsiResponse ∧ b.itt.toNat = 0) :
    ∃ ls s r, Machine.run sessionStep (Session.start 1 0 .defaults10g) ls = some s ∧
      s.receiver = .idle ∧ s.Completes header r := by
  obtain ⟨s,hr,_,hi,hs,hc⟩ := run_alone .defaults10g c
  obtain ⟨b,hb,ho,ht⟩ := h
  have ha : s.Awaits ⟨b,none,none⟩ 0 :=
    ⟨ho,by rw [Pdu.itt,ht]; decide,by rw [Pdu.itt,ht]; exact hs,hc⟩
  obtain ⟨t,hf,hl⟩ := handleScsiResponse_delivers ha
  exact ⟨_,s,_,hr,hi,0,none,b,t,hb,ha,(hf t).mpr rfl,hl⟩

theorem success_full_iff_completed : ∃ r, Completed (responseHeader 0x00) r ∧
    (scsiSynchronizeCache (.response r) = .ok () → FullCompletion (responseHeader 0x00)) ∧
    (scsiWriteOutcome [.response r] = some (.ok ()) → FullCompletion (responseHeader 0x00)) := by
  obtain ⟨_,s,r,_,_,h⟩ := @completes_alone
    (Pipeline.new 0 .defaults10g).synchronizeCacheCommand (responseHeader 0x00)
    ⟨_,rfl,rfl,by decide⟩
  have hc : Completed (responseHeader 0x00) r := ⟨s,h⟩
  have hu : Unremarkable (responseHeader 0x00) := ⟨by decide,by decide⟩
  have hcs : List.Forall₂ Completed [responseHeader 0x00] [r] := .cons hc .nil
  obtain ⟨hw,hs⟩ := success_full_iff hcs hc
  exact ⟨r,hc,hs.mpr (fun _ => hu),fun hok =>
    hw.mpr (fun _ header hm => List.mem_singleton.mp hm ▸ hu) hok _ (List.mem_singleton_self _)⟩

/-- Response code 0x01 is Target Failure; the status byte, reserved then, is zero. -/
theorem target_failure_reported_as_success : ∃ ls s r,
    Machine.run sessionStep (Session.start 1 0 .defaults10g) ls = some s ∧ s.receiver = .idle ∧
      s.Completes (responseHeader 0x01) r ∧ scsiSynchronizeCache (.response r) = .ok () ∧
      scsiWriteOutcome [.response r] = some (.ok ()) ∧ ¬ FullCompletion (responseHeader 0x01) := by
  obtain ⟨ls,s,r,hr,hi,hd⟩ := @completes_alone
    (Pipeline.new 0 .defaults10g).synchronizeCacheCommand (responseHeader 0x01)
    ⟨_,rfl,rfl,by decide⟩
  have hg := (ofByte_eq_good.mpr rfl : ScsiStatus.ofByte ((responseHeader 0x01).1.getD 3 0) = .good)
  rw [← Completed.status ⟨s,hd⟩] at hg
  refine ⟨ls,s,r,hr,hi,hd,scsiSynchronizeCache_eq_ok.mpr hg,?_,fun h => absurd h.response (by decide)⟩
  exact (@scsiWriteOutcome_eq_ok [r]).mpr (by simpa using hg)

end IscsiFuse.Iscsi
