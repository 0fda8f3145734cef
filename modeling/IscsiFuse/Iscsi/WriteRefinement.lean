import IscsiFuse.Iscsi.WriteData
import IscsiFuse.Iscsi.EndToEnd
set_option autoImplicit false

namespace IscsiFuse.Iscsi
open Session

structure Attached where
  session : Session
  target : Target

def deliveredTo (log : List SessionEvent) (k : Nat) : Option PduResponse :=
  log.findSome? (fun e => match e with
    | .delivered j r => if j = k then some r else none
    | _ => none)

/-- The call of a command that is out and whose tag is not free yet. -/
def Slot.sent : Slot → Option Nat
  | .opened k | .closing k => some k
  | _ => none

def Call.task (reply : Option PduResponse) : Call → ChunkTask
  | .register itt _ => .submitted itt
  | .waiting _ => .awaiting
  | .finished => match reply with
    | some r => .finished (checkScsiStatus "SCSI WRITE" r)
    | none => .awaiting
  | _ => .submitting

namespace Attached

/-- What a step of the session does to the target. Only the commands of the chunks are
submitted, sends do not fail, and a call is not given up before its response. -/
def targetStep (p : Pipeline) (ws : List WriteCommand) (x : Attached) : Label → Option Target
  | .submit k c => if ws[k]?.bind p.writeCommand = some c then some x.target else none
  | .advance _ | .casFailed _ | .handle => some x.target
  | .sent k => match x.session.calls k with
    | .numbering (.command _ _) (.send q _) =>
      x.target.command p.blockSize p.negotiated.maxSendDataSegmentLength q
    | _ => none
  | .receive q => x.target.sends p.blockSize q
  | .handleSent =>
    x.session.nextDataOut.bind (x.target.dataOut p.negotiated.maxSendDataSegmentLength)
  | .finish k => if (deliveredTo x.session.log k).isSome then some x.target else none
  | _ => none

def step (p : Pipeline) (ws : List WriteCommand) (x : Attached) (l : Label) : Option Attached := do
  let session ← sessionStep x.session l
  let target ← x.targetStep p ws l
  pure ⟨session,target⟩

def start (initialCmdSn initialExpStatSn : BitVec 32) (n : NegotiatedParams) (medium : Image) :
    Attached :=
  ⟨.start initialCmdSn initialExpStatSn n,⟨fun _ => none,medium⟩⟩

/-- What the session and the target are doing for the `scsi_write`. -/
def writing (x : Attached) : Writing where
  tasks := fun k => (x.session.calls k).task (deliveredTo x.session.log k)
  tags := fun i => (x.session.slots i).sent
  writeData := fun i => (x.session.pool.writeData i).map WriteData.data
  replies := deliveredTo x.session.log
  receiver := x.session.receiver
  target := x.target

structure Refining (p : Pipeline) (ws : List WriteCommand) (whole : Patch) (medium : Image)
    (x : Attached) : Prop where
  routes : Routes x.session
  carries : Carries (fun k c => ws[k]?.bind p.writeCommand = some c) p.negotiated x.session
  sound : x.writing.Sound p ws whole medium
  registering : ∀ k i data, x.session.calls k = .register i data →
    ws[k]?.map WriteCommand.data = some data
  finished : ∀ k, x.session.calls k = .finished → (deliveredTo x.session.log k).isSome = true
  payloads : ∀ k, payloads k x.session.log = []
  response : ∀ q, x.session.receiver.completing = some q → q.bhs.opcode = .scsiResponse

end Attached

theorem deliveredTo_append (log m : List SessionEvent) (k : Nat) :
    deliveredTo (log ++ m) k = (deliveredTo log k).or (deliveredTo m k) := List.findSome?_append

theorem deliveredTo_isSome {log : List SessionEvent} {k : Nat} :
    (deliveredTo log k).isSome = true ↔ k ∈ deliveries log := by
  induction log with
  | nil => simp [deliveredTo,deliveries]
  | cons e log ih =>
    have hd : deliveredTo (e :: log) k = (deliveredTo [e] k).or (deliveredTo log k) :=
      deliveredTo_append [e] log k
    have hl : deliveries (e :: log) = deliveries [e] ++ deliveries log := deliveries_append [e] log
    rw [hd,hl,List.mem_append,Option.isSome_or,Bool.or_eq_true,ih]
    cases e with
    | delivered j r =>
      by_cases hj : j = k
      · simp [deliveredTo,deliveries,hj]
      · have hk : k ≠ j := fun h => hj h.symm
        simp [deliveredTo,deliveries,hj,hk]
    | _ => simp [deliveredTo,deliveries]

theorem deliveredTo_silent {e : SessionEvent} (h : ∀ k r, e ≠ .delivered k r)
    (log : List SessionEvent) (k : Nat) : deliveredTo (log ++ [e]) k = deliveredTo log k := by
  have he : deliveredTo [e] k = none := by
    cases e with
    | delivered j r => exact absurd rfl (h j r)
    | _ => rfl
  rw [deliveredTo_append,he,Option.or_none]

namespace Attached

variable {p : Pipeline} {ws : List WriteCommand} {whole : Patch} {medium : Image} {s t : Session}
  {u : Target} {l : Label}

theorem still (hr : t.receiver = s.receiver) (hs : ∀ i, (t.slots i).sent = (s.slots i).sent)
    (hw : t.pool.writeData = s.pool.writeData)
    (hd : ∀ k, deliveredTo t.log k = deliveredTo s.log k)
    (hc : ∀ k, (t.calls k).task (deliveredTo s.log k) = (s.calls k).task (deliveredTo s.log k)) :
    writing ⟨t,u⟩ = writing ⟨s,u⟩ := by
  refine Writing.ext ?_ ?_ ?_ ?_ hr rfl
  · funext k
    simp only [writing,hd,hc]
  · funext i
    exact hs i
  · funext i
    simp only [writing,hw]
  · funext k
    exact hd k

theorem task_setCall {k : Nat} {c : Call} (ht : t.calls = Function.update s.calls k c)
    (hc : ∀ r, c.task r = (s.calls k).task r) (j : Nat) :
    (t.calls j).task (deliveredTo s.log j) = (s.calls j).task (deliveredTo s.log j) := by
  rw [ht]
  by_cases hj : j = k
  · rw [hj,Function.update_self]
    exact hc _
  · rw [Function.update_of_ne hj]

theorem task_reply {c : Call} (h : c ≠ .finished) (a b : Option PduResponse) : c.task a = c.task b := by
  cases c <;> first | rfl | exact absurd rfl h

theorem slot_sent {i : Nat} {x : Slot} (hs : (s.slots i).sent = none) (hx : x.sent = none) (j : Nat) :
    ((Function.update s.slots i x) j).sent = (s.slots j).sent := by
  by_cases hj : j = i
  · rw [hj,Function.update_self,hs,hx]
  · rw [Function.update_of_ne hj]

theorem writing_setCall {k : Nat} {c : Call} (hc : ∀ d, c.task d = (s.calls k).task d) :
    writing ⟨s.setCall k c,u⟩ = writing ⟨s,u⟩ :=
  still rfl (fun _ => rfl) rfl (fun _ => rfl) (task_setCall rfl hc)

theorem advance_refines {k : Nat} (h : Tagged s) (hs : s.advance k = some t)
    (hreg : ∀ i data, s.calls k = .register i data → ws[k]?.map WriteCommand.data = some data) :
    writing ⟨t,u⟩ = writing ⟨s,u⟩ ∨
      writeStep p ws (writing ⟨s,u⟩) (.register k) = some (writing ⟨t,u⟩) := by
  unfold advance at hs
  split at hs
  · rename_i c hc
    cases hs
    exact Or.inl (writing_setCall (fun _ => by rw [hc]; rfl))
  · rename_i c cmdSn hc
    cases hs
    refine Or.inl (writing_setCall (fun _ => ?_))
    rw [hc]
    split <;> rfl
  · rename_i c half hc
    cases hs
    exact Or.inl (writing_setCall (fun _ => by rw [hc]; rfl))
  · rename_i c half current hc
    simp only at hs
    split at hs
    · rename_i hb
      split at hs
      · rename_i hcur
        cases hs
        subst hcur
        have hfree := h.claim_free hb
        exact Or.inl (still rfl (slot_sent (by rw [hfree]; rfl) rfl) rfl (fun _ => rfl)
          (task_setCall rfl (fun _ => by rw [hc]; rfl)))
      · cases hs
        exact Or.inl (writing_setCall (fun _ => by rw [hc]; rfl))
    · cases hs
      exact Or.inl (writing_setCall (fun _ => by rw [hc]; rfl))
  · rename_i c itt hc
    cases hs
    have hslot : s.slots itt = .claimed k := h.place k itt _ (by rw [hc]; rfl)
    exact Or.inl (still rfl (slot_sent (by rw [hslot]; rfl) rfl) rfl (fun _ => rfl)
      (task_setCall rfl (fun _ => by rw [hc]; rfl)))
  · rename_i w hc
    cases hs
    obtain ⟨hpool,hslots,hrec,_⟩ := takeNumber_tables s k w
    refine Or.inl (still hrec (fun i => by rw [← hslots]; rfl)
      (congrArg IttPool.writeData hpool) (fun j => ?_)
      (task_setCall (congrArg (Function.update · k _) (takeNumber_calls s k w))
        (fun _ => by rw [hc]; rfl)))
    show deliveredTo (s.takeNumber k w).log j = _
    unfold takeNumber
    split
    · exact deliveredTo_silent (fun _ _ he => by cases he) _ j
    · rfl
  · rename_i w cmdSn turn hc
    cases hs
    exact Or.inl (writing_setCall (fun _ => by rw [hc]; rfl))
  · rename_i itt data hc
    cases hs
    obtain ⟨w,hw,hdata⟩ := Option.map_eq_some_iff.mp (hreg itt data hc)
    refine Or.inr ?_
    have htask : (writing ⟨s,u⟩).tasks k = .submitted itt := by
      simp only [writing,hc]
      rfl
    simp only [writeStep,hw,Option.bind_some,Writing.register,htask,Option.some.injEq]
    refine Writing.ext ?_ rfl ?_ rfl rfl rfl
    · funext j
      by_cases hj : j = k
      · rw [hj]
        simp [Writing.setTask,writing,Session.setCall,Call.task]
      · simp [Writing.setTask,writing,Session.setCall,hj]
    · funext i
      by_cases hi : i = itt
      · simp [writing,Session.setCall,IttPool.putWriteData,hi,hdata]
      · simp [writing,Session.setCall,IttPool.putWriteData,hi]
  · cases hs

theorem sent_refines {k : Nat} {v : Target} (h : Tagged s)
    (hca : Carries (fun k c => ws[k]?.bind p.writeCommand = some c) p.negotiated s)
    (hs : s.sent k = some t) (hu : targetStep p ws ⟨s,u⟩ (.sent k) = some v) :
    ∃ itt cmdSn expStatSn, writeStep p ws (writing ⟨s,u⟩) (.submit k itt cmdSn expStatSn) =
      some (writing ⟨t,v⟩) := by
  simp only [targetStep] at hu
  split at hu
  · rename_i c itt q turn hc
    rw [Session.sent,hc] at hs
    cases hs
    obtain ⟨cmdSn,expStatSn,rfl⟩ := hca.built k _ q turn hc
    obtain ⟨w,hw,hwc⟩ := Option.bind_eq_some_iff.mp (hca.call k c (by rw [hc]; rfl))
    obtain ⟨_,hcw⟩ := Pipeline.writeCommand_eq_some hwc
    have hdata : c.writeData = some w.data := by rw [hcw]
    have hslot : s.slots itt = .ready k := h.place k itt _ (by rw [hc]; rfl)
    have hlt : itt < 128 := (h.taken itt (by rw [hslot]; simp)).1
    have htask : (writing ⟨s,u⟩).tasks k = .submitting := by
      simp only [writing,hc]
      rfl
    have htag : (writing ⟨s,u⟩).tags itt = none := by
      simp only [writing,hslot]
      rfl
    have hd := deliveredTo_silent (e := .sent (some k) (.command c itt)
      ((Sender.command c itt).pdu cmdSn expStatSn)) (fun _ _ he => by cases he) s.log
    refine ⟨itt,cmdSn,expStatSn,?_⟩
    have htarget : (writing ⟨s,u⟩).target.command p.blockSize p.negotiated.maxSendDataSegmentLength
        ((Sender.command c itt).pdu cmdSn expStatSn) = some v := hu
    simp only [writeStep,hw,Option.bind_some,Writing.submit,htask,htag,if_pos hlt,hwc,
      Option.bind_eq_bind,htarget,Option.pure_def,Option.some.injEq,hdata]
    refine Writing.ext ?_ ?_ rfl ?_ rfl rfl
    · funext j
      by_cases hj : j = k
      · rw [hj]
        simp [Writing.setTask,writing,Session.setCall,Call.task]
      · simp [Writing.setTask,writing,Session.setCall,Session.setSlot,Session.observe,hj,hd]
    · funext i
      by_cases hi : i = itt
      · simp [writing,Session.setCall,Session.setSlot,Slot.sent,hi]
      · simp [writing,Session.setCall,Session.setSlot,Session.observe,hi]
    · funext j
      exact (hd j).symm
  · cases hu

theorem deliveredTo_delivered {log : List SessionEvent} {k : Nat} {r : PduResponse}
    (h : deliveredTo log k = none) (j : Nat) : deliveredTo (log ++ [.delivered k r]) j =
      Function.update (deliveredTo log) k (some r) j := by
  rw [deliveredTo_append]
  by_cases hj : j = k
  · rw [hj,h,Function.update_self]
    simp [deliveredTo]
  · have hkj : k ≠ j := fun hx => hj hx.symm
    rw [Function.update_of_ne hj]
    simp [deliveredTo,hkj]

theorem undelivered (h : Refining p ws whole medium ⟨s,u⟩) {q : Pdu} {r : PduResponse}
    {tx : Option Nat} (hr : s.receiver = .deliver q r tx) :
    ∃ k, tx = some k ∧ deliveredTo s.log k = none ∧ s.calls k ≠ .finished := by
  obtain ⟨k,fin,hk,_,hstage,_⟩ := h.routes.closing_at (p := q) (by simp only [hr]; rfl)
  simp only [hr] at hstage
  obtain ⟨_,rfl,hdel,_⟩ := hstage
  have hdel : deliveredTo s.log k = none := by
    cases hd : deliveredTo s.log k with
    | none => rfl
    | some r => exact absurd (deliveredTo_isSome.mp (by rw [hd]; rfl)) hdel
  refine ⟨k,rfl,hdel,fun hf => ?_⟩
  have hd := h.finished k hf
  simp only [hdel] at hd
  cases hd

theorem handle_refines (h : Refining p ws whole medium ⟨s,u⟩)
    (hws : ∀ w ∈ ws, p.ChunkOf whole w) (hm : 0 < p.negotiated.maxSendDataSegmentLength)
    (hs : s.handle = some t) :
    writeStep p ws (writing ⟨s,u⟩) (.handle s.state.expStatSn) = some (writing ⟨t,u⟩) := by
  have hst := h.sound.stage
  have hrec : (writing ⟨s,u⟩).receiver = s.receiver := rfl
  rw [hrec] at hst
  simp only [writeStep,Writing.handle,hrec]
  unfold Session.handle at hs
  split at hs
  · rename_i q data hr
    rw [hr] at hst
    cases hst
  · rename_i q hr
    cases hs
    obtain ⟨k,fin,_,_,hstage,_⟩ := h.routes.closing_at (p := q) (by simp only [hr]; rfl)
    simp only [hr] at hstage
    obtain ⟨_,_,_,ps,hps,hacc⟩ := hstage
    have hnil : ps = [] := (List.append_eq_nil_iff.mp (hps.symm.trans (h.payloads k))).1
    have hnone : s.dataAccumulator q.itt = none := by
      rw [hacc,hnil]
      rfl
    rw [hr,hnone]
    rfl
  · rename_i q r hr
    obtain ⟨k,fin,hk,_,hstage,_⟩ := h.routes.closing_at (p := q) (by simp only [hr]; rfl)
    simp only [hr] at hstage
    have hlt : q.itt < 128 := (h.routes.tagged.taken q.itt (by rw [hk]; simp)).1
    have htag : (s.slots q.itt).sent = some k := congrArg Slot.sent hk
    rw [if_pos hlt] at hs
    cases hs
    rw [hr,hstage.2.1,← htag]
    rfl
  · rename_i q r tx hr
    obtain ⟨k,rfl,hdel,hcall⟩ := undelivered h hr
    simp only [if_neg hcall] at hs
    cases hs
    have hnew := deliveredTo_delivered (r := r) hdel
    rw [hr]
    refine congrArg some (Writing.ext ?_ rfl rfl ?_ rfl rfl)
    · funext j
      simp only [writing,observe_log,hnew]
      by_cases hj : j = k
      · rw [hj]
        exact task_reply hcall ..
      · rw [Function.update_of_ne hj]
        rfl
    · funext j
      exact (hnew j).symm
  · rename_i q hr
    cases hs
    have ho := h.response q (by simp only [hr]; rfl)
    rw [hr]
    refine congrArg some (Writing.ext rfl ?_ rfl rfl ?_ rfl)
    · funext i
      by_cases hi : i = q.itt
      · simp [writing,Session.setSlot,Slot.sent,hi]
      · simp [writing,Session.setSlot,hi]
    · exact (if_pos ho).symm
  · rename_i itt hr
    cases hs
    rw [hr]
    refine congrArg some (Writing.ext rfl rfl ?_ rfl rfl rfl)
    funext i
    by_cases hi : i = itt
    · simp [writing,IttPool.putWriteData,hi]
    · simp [writing,IttPool.putWriteData,hi]
  · rename_i r tries hr
    split at hs
    · rename_i d hd
      cases hs
      have hdata : (writing ⟨s,u⟩).writeData r.itt = some d.data := congrArg (Option.map _) hd
      rw [hr]
      simp only [hdata]
      rfl
    · rename_i hd
      cases hs
      have hdata : (writing ⟨s,u⟩).writeData r.itt = none := congrArg (Option.map _) hd
      rw [hr]
      simp only [hdata]
      rfl
  · rename_i r data hr
    cases hs
    rw [hr]
    rfl
  · rename_i r data stat sent dataSn hr
    split at hs
    · rename_i hlt
      obtain ⟨x,q,_,hq,_⟩ := h.sound.next hws hm hr hlt
      rw [h.carries.negotiated,hq] at hs
      cases hs
    · rename_i hge
      cases hs
      simp only [hr,if_neg hge]
      rfl
  · rename_i ttt hr
    rw [hr] at hst
    cases hst
  · rename_i ttt cmdSn turn hr
    rw [hr] at hst
    cases hst
  · cases hs

theorem handleSent_refines {v : Target} (h : Refining p ws whole medium ⟨s,u⟩)
    (hs : s.handleSent = some t) (hu : targetStep p ws ⟨s,u⟩ .handleSent = some v) :
    FindsOwn ws (writing ⟨s,u⟩) (.handle 0) ∧
      writeStep p ws (writing ⟨s,u⟩) (.handle 0) = some (writing ⟨t,v⟩) := by
  have hst := h.sound.stage
  have hrec : (writing ⟨s,u⟩).receiver = s.receiver := rfl
  rw [hrec] at hst
  unfold Session.handleSent at hs
  split at hs
  · rename_i ttt q turn hr
    rw [hr] at hst
    cases hst
  · rename_i r data stat sent dataSn hr
    obtain ⟨q,hq,rfl⟩ := Option.map_eq_some_iff.mp hs
    have hd := deliveredTo_silent (e := .dataOut q) (fun _ _ he => by cases he) s.log
    simp only [targetStep,hq,Option.bind_some] at hu
    unfold nextDataOut at hq
    rw [hr] at hq
    simp only at hq
    split at hq
    · rename_i hlt
      rw [h.carries.negotiated] at hq
      refine ⟨by simp [FindsOwn,hrec,hr],?_⟩
      have hu : (writing ⟨s,u⟩).target.dataOut p.negotiated.maxSendDataSegmentLength q = some v := hu
      simp only [writeStep,Writing.handle,hrec,hr,if_pos hlt,hq,Option.bind_eq_bind,
        Option.bind_some,hu,Option.pure_def,Option.some.injEq]
      refine Writing.ext ?_ rfl rfl ?_ ?_ rfl
      · funext j
        exact congrArg (fun a => (s.calls j).task a) (hd j).symm
      · funext j
        exact (hd j).symm
      · rw [← h.carries.negotiated]
        rfl
    · cases hq
  · cases hs

theorem receive_refines {q : Pdu} {v : Target} (hr : s.receiver = .idle)
    (hu : u.sends p.blockSize q = some v) :
    writeStep p ws (writing ⟨s,u⟩) (.receive q) = some (writing ⟨s.receive q,v⟩) := by
  have hrec : (writing ⟨s,u⟩).receiver = .idle := hr
  have hd := deliveredTo_silent (e := .received (s.slots q.itt).opener q)
    (fun _ _ he => by cases he) s.log
  have hu : (writing ⟨s,u⟩).target.sends p.blockSize q = some v := hu
  simp only [writeStep,if_pos hrec,hu,Option.map_some,Option.some.injEq]
  refine Writing.ext ?_ ?_ rfl ?_ rfl rfl
  · funext j
    exact congrArg (fun a => (s.calls j).task a) (hd j).symm
  · funext i
    have hslot : (s.closeSlot q i).sent = (s.slots i).sent := by
      rcases closeSlot_cases s q i with ⟨k,_,_,ho,hc⟩ | ⟨hc,_⟩
      · rw [ho,hc]
        rfl
      · rw [hc]
    exact hslot.symm
  · funext j
    exact (hd j).symm

theorem finish_refines {k : Nat} (hs : sessionStep s (.finish k) = some t)
    (hd : (deliveredTo s.log k).isSome = true) :
    writeStep p ws (writing ⟨s,u⟩) (.finish k) = some (writing ⟨t,u⟩) := by
  obtain ⟨r,hr⟩ := Option.isSome_iff_exists.mp hd
  simp only [sessionStep] at hs
  split at hs
  · rename_i itt hc
    cases hs
    have htask : (writing ⟨s,u⟩).tasks k = .awaiting := by
      simp only [writing,hc]
      rfl
    have hrep : (writing ⟨s,u⟩).replies k = some r := hr
    simp only [writeStep,Writing.finish,htask,hrep,Option.some.injEq]
    refine Writing.ext ?_ rfl rfl rfl rfl rfl
    funext j
    by_cases hj : j = k
    · rw [hj]
      simp [Writing.setTask,writing,Session.setCall,Call.task,hr]
    · simp [Writing.setTask,writing,Session.setCall,hj]
  · cases hs

theorem findsOwn_handle {w : Writing} (a b : BitVec 32) :
    FindsOwn ws w (.handle a) ↔ FindsOwn ws w (.handle b) := by
  unfold FindsOwn
  cases w.receiver <;> exact Iff.rfl

/-- R2Ts find the data of their own command. -/
def OwnData (ws : List WriteCommand) (x : Attached) (l : Label) : Prop :=
  l = .handle → FindsOwn ws x.writing (.handle 0)

instance (ws : List WriteCommand) (x : Attached) (l : Label) : Decidable (OwnData ws x l) :=
  inferInstanceAs (Decidable (_ → _))

theorem step_refines {x y : Attached} (hws : ∀ w ∈ ws, p.ChunkOf whole w)
    (hm : 0 < p.negotiated.maxSendDataSegmentLength) (h : Refining p ws whole medium x)
    (hok : OwnData ws x l) (hs : step p ws x l = some y) :
    y.writing = x.writing ∨
      ∃ l', FindsOwn ws x.writing l' ∧ writeStep p ws x.writing l' = some y.writing := by
  obtain ⟨s,u⟩ := x
  simp only [step,Option.bind_eq_bind,Option.bind_eq_some_iff] at hs
  obtain ⟨t,ht,v,hv,hs⟩ := hs
  cases hs
  cases l with
  | submit k c =>
    simp only [targetStep] at hv
    split at hv <;> cases hv
    simp only [sessionStep] at ht
    split at ht <;> cases ht
    rename_i hidle
    exact Or.inl (still rfl (fun _ => rfl) rfl (fun _ => rfl)
      (task_setCall rfl (fun _ => by rw [hidle]; rfl)))
  | advance k =>
    cases hv
    rcases advance_refines (u := u) h.routes.tagged ht (h.registering k) with hst | hst
    · exact Or.inl hst
    · exact Or.inr ⟨_,findsOwn_other (by simp),hst⟩
  | casFailed k =>
    cases hv
    simp only [sessionStep] at ht
    split at ht
    · rename_i c half current hc
      split at ht <;> cases ht
      exact Or.inl (still rfl (fun _ => rfl) rfl (fun _ => rfl)
        (task_setCall rfl (fun _ => by rw [hc]; rfl)))
    · cases ht
  | sent k =>
    obtain ⟨itt,cmdSn,expStatSn,hst⟩ := sent_refines h.routes.tagged h.carries ht hv
    exact Or.inr ⟨_,findsOwn_other (by simp),hst⟩
  | receive q =>
    simp only [sessionStep] at ht
    split at ht <;> cases ht
    rename_i hidle
    exact Or.inr ⟨_,findsOwn_other (by simp),receive_refines hidle hv⟩
  | handle =>
    cases hv
    exact Or.inr ⟨_,(findsOwn_handle ..).mp (hok rfl),handle_refines h hws hm ht⟩
  | handleSent => exact Or.inr ⟨_,handleSent_refines h ht hv⟩
  | finish k =>
    simp only [targetStep] at hv
    split at hv <;> cases hv
    rename_i hd
    exact Or.inr ⟨_,findsOwn_other (by simp),finish_refines ht hd⟩
  | nopOut k | logout k | sendFailed k | handleFailed => cases hv

def Proceeds (s t : Session) (l : Label) (k : Nat) : Prop :=
  (∀ i data, t.calls k = .register i data → s.calls k = .register i data ∨
    ∃ c q turn, s.calls k = .numbering (.command c i) (.send q turn) ∧ c.writeData = some data) ∧
  (t.calls k = .finished → s.calls k = .finished ∨ l = .finish k)

theorem step_proceeds {v : Target} (hs : sessionStep s l = some t)
    (hu : targetStep p ws ⟨s,u⟩ l = some v) (j : Nat) : Proceeds s t l j := by
  rcases own_step hs j with hj | ⟨hl,hj⟩
  · exact ⟨fun i data h => Or.inl (hj ▸ h),fun h => Or.inl (hj ▸ h)⟩
  · unfold Proceeds
    generalize t.calls j = y at hj
    generalize hx : s.calls j = x at hj
    cases hj with
    | sentData k c itt q turn data hw =>
      refine ⟨fun i data' h => Or.inr ?_,fun h => by cases h⟩
      cases h
      exact ⟨c,q,turn,rfl,hw⟩
    | sentOther k w q turn hw =>
      -- the target does not take a NOP-Out or a Logout
      cases hl
      simp only [targetStep,hx] at hu
      cases w with
      | command c itt => cases hw
      | _ => cases hu
    | sendFailed => cases hu
    | finish k itt =>
      cases hl
      exact ⟨fun i data h => (by cases h),fun _ => Or.inr rfl⟩
    | _ => exact ⟨fun i data h => (by cases h),fun h => by cases h⟩

theorem step_log (hs : SessionStep s l t) : ∃ m, t.log = s.log ++ m ∧
    ((∃ q, l = .receive q ∧ m = [.received (s.slots q.itt).opener q]) ∨ ∀ k, payloads k m = []) := by
  cases hs with
  | receive q hr => exact ⟨_,rfl,Or.inl ⟨q,rfl,rfl⟩⟩
  | number k w hc =>
    show ∃ m, (s.takeNumber k w).log = s.log ++ m ∧ _
    unfold takeNumber
    split
    · exact ⟨_,rfl,Or.inr (fun _ => rfl)⟩
    · exact ⟨[],(List.append_nil _).symm,Or.inr (fun _ => rfl)⟩
  | deliver q r k hr hk => exact ⟨_,rfl,Or.inr (fun _ => rfl)⟩
  | sentCommand k c itt q turn hc => exact ⟨_,rfl,Or.inr (fun _ => rfl)⟩
  | sentOther k w q turn hw hc => exact ⟨_,rfl,Or.inr (fun _ => rfl)⟩
  | dataOut q x hq hx => exact ⟨_,rfl,Or.inr (fun _ => rfl)⟩
  | pongSent ttt q turn hr => exact ⟨_,rfl,Or.inr (fun _ => rfl)⟩
  | _ => exact ⟨[],(List.append_nil _).symm,Or.inr (fun _ => rfl)⟩

theorem step_completing (hs : SessionStep s l t) {q : Pdu} (hq : t.receiver.completing = some q) :
    s.receiver.completing = some q ∨ (l = .receive q ∧ q.isFinal = true) := by
  cases hs with
  | receive q' hr =>
    have hd : (if q'.isFinal then some q' else none) = some q := dispatch_completing q' ▸ hq
    split at hd <;> cases hd
    rename_i hf
    exact Or.inr ⟨rfl,hf⟩
  | number k w hc =>
    have hrec := (takeNumber_tables s k w).2.2.1
    exact Or.inl (hrec ▸ hq)
  | accumulate q' data hr =>
    simp only at hq
    split at hq
    · rename_i hf
      rw [hr,Receiver.completing,if_pos hf]
      exact Or.inl hq
    · cases hq
  | takeData q' hr | takeSender q' r hr hi | deliver q' r k hr hk | undelivered q' r tx hr =>
    rw [hr]
    exact Or.inl hq
  | free q' hr =>
    simp only at hq
    split at hq <;> cases hq
  | answer l x y hy hx =>
    rcases hx with hx | rfl | rfl
    · have hn := r2t_completing hx
      cases hn.symm.trans hq
    · cases hq
    · cases hq
  | dataOut q' x hq' hx =>
    obtain ⟨y,hy⟩ := nextDataOut_r2t hq'
    have hn := r2t_completing (hx.trans hy)
    cases hn.symm.trans hq
  | removeWriteData itt hr | found r tries d hr hd | pongNumber ttt hr | pongStat ttt cmdSn turn hr
  | pongSent ttt q' turn hr | stop l hr => cases hq
  | _ => exact Or.inl hq

theorem sends_compliant {q : Pdu} {v : Target} (h : Refining p ws whole medium ⟨s,u⟩)
    (hr : s.receiver = .idle) (hu : u.sends p.blockSize q = some v) :
    Compliant s (.receive q) ∧ q.payload = [] ∧ (q.isFinal = true → q.bhs.opcode = .scsiResponse) := by
  obtain ⟨x,hx,hsent⟩ := Target.sends_cases hu
  have hop : q.bhs.opcode = .r2t ∨ q.bhs.opcode = .scsiResponse := by
    rcases hsent with ⟨ho,_⟩ | ⟨ho,_⟩
    · exact Or.inl ho
    · exact Or.inr ho
  refine ⟨?_,?_,fun hf => ?_⟩
  · obtain ⟨k,_,hk,_⟩ := h.sound.transfer q.itt x hx
    have hopened : outstanding s.log q.itt = some k := by
      rw [h.routes.tagged.outstanding]
      have hk : (s.slots q.itt).sent = some k := hk
      cases hslot : s.slots q.itt with
      | opened j =>
        rw [hslot] at hk
        exact hk
      | closing j =>
        obtain ⟨_,hc,_⟩ := h.routes.tagged.closing q.itt j hslot
        rw [hr] at hc
        cases hc
      | _ =>
        rw [hslot] at hk
        cases hk
    simp only [Compliant,Label.answer]
    split
    · simp [hopened]
    · rfl
  · unfold Pdu.payload
    rcases hop with ho | ho <;> rw [ho]
  · rcases hop with ho | ho
    · simp [Pdu.isFinal,ho] at hf
    · exact ho

theorem refining_step {x y : Attached} (hws : ∀ w ∈ ws, p.ChunkOf whole w)
    (hm : 0 < p.negotiated.maxSendDataSegmentLength)
    (hf : p.negotiated.firstBurstLength ≤ p.negotiated.maxSendDataSegmentLength)
    (h : Refining p ws whole medium x) (hok : OwnData ws x l) (hs : step p ws x l = some y) :
    Refining p ws whole medium y := by
  have hsound : y.writing.Sound p ws whole medium := by
    rcases step_refines hws hm h hok hs with hst | ⟨l',hown,hst⟩
    · exact hst ▸ h.sound
    · exact Writing.sound_step hws hm hf h.sound hown (write_step hst)
  obtain ⟨s,u⟩ := x
  simp only [step,Option.bind_eq_bind,Option.bind_eq_some_iff] at hs
  obtain ⟨t,ht,v,hv,hs⟩ := hs
  cases hs
  have hstep := session_step ht
  obtain ⟨m,hlog,hpay⟩ := step_log hstep
  have hrec : ∀ q, l = .receive q → Compliant s (.receive q) ∧ q.payload = [] ∧
      (q.isFinal = true → q.bhs.opcode = .scsiResponse) := by
    intro q hl
    subst hl
    simp only [sessionStep] at ht
    split at ht
    · rename_i hidle
      exact sends_compliant h hidle hv
    · cases ht
  refine ⟨routes_step h.routes ?_ hstep,carries_step h.carries ?_ ht,hsound,fun k i data hc => ?_,
    fun k hc => ?_,fun k => ?_,fun q hq => ?_⟩
  · cases l with
    | receive q => exact (hrec q rfl).1
    | _ => rfl
  · cases l with
    | submit k c =>
      simp only [targetStep] at hv
      split at hv
      · assumption
      · cases hv
    | _ => trivial
  · rcases (step_proceeds ht hv k).1 i data hc with hc | ⟨c,q,turn,hc,hdata⟩
    · exact h.registering k i data hc
    · obtain ⟨w,hw,hwc⟩ := Option.bind_eq_some_iff.mp (h.carries.call k c (by rw [hc]; rfl))
      obtain ⟨_,rfl⟩ := Pipeline.writeCommand_eq_some hwc
      rw [hw]
      exact hdata
  · have hdel : (deliveredTo s.log k).isSome = true := by
      rcases (step_proceeds ht hv k).2 hc with hc | rfl
      · exact h.finished k hc
      · simp only [targetStep] at hv
        split at hv
        · assumption
        · cases hv
    show (deliveredTo t.log k).isSome = true
    rw [hlog,deliveredTo_append,Option.isSome_or,hdel]
    rfl
  · show payloads k t.log = []
    rw [hlog,payloads_append,h.payloads k]
    rcases hpay with ⟨q,hl,rfl⟩ | hpay
    · obtain ⟨_,hp,_⟩ := hrec q hl
      cases ho : (s.slots q.itt).opener with
      | none => rfl
      | some j => simp [payloads,hp]
    · exact hpay k
  · rcases step_completing hstep hq with hq | ⟨hl,hfin⟩
    · exact h.response q hq
    · exact (hrec q hl).2.2 hfin

theorem refining_start (initialCmdSn initialExpStatSn : BitVec 32) :
    Refining p ws whole medium (.start initialCmdSn initialExpStatSn p.negotiated medium) where
  routes := routes_start ..
  carries := carries_start ..
  sound := Writing.sound_start
  registering := fun _ _ _ h => by cases h
  finished := fun _ h => by cases h
  payloads := fun _ => rfl
  response := fun _ h => by cases h

section Runs

variable {initialCmdSn initialExpStatSn : BitVec 32} {ls : List Label} {y : Attached}

theorem refining_run (hws : ∀ w ∈ ws, p.ChunkOf whole w)
    (hm : 0 < p.negotiated.maxSendDataSegmentLength)
    (hf : p.negotiated.firstBurstLength ≤ p.negotiated.maxSendDataSegmentLength)
    (hok : Machine.Meets (step p ws) (OwnData ws)
      (.start initialCmdSn initialExpStatSn p.negotiated medium) ls)
    (hr : Machine.run (step p ws) (.start initialCmdSn initialExpStatSn p.negotiated medium) ls =
      some y) :
    Refining p ws whole medium y ∧
      ∃ ks, Machine.run (writeStep p ws) (.start medium) ks = some y.writing ∧
        Machine.Meets (writeStep p ws) (FindsOwn ws) (.start medium) ks :=
  Machine.run_refines (I := Refining p ws whole medium)
    (fun _ _ _ h hok hs => ⟨refining_step hws hm hf h hok hs,step_refines hws hm h hok hs⟩)
    (refining_start initialCmdSn initialExpStatSn) hok hr

/-- Every run of the session with the target is a run of `Writing`, and once the calls are back
the payload is on the medium. -/
theorem session_writes {lba : Nat} {data : Bytes} (h : p.writeCommands lba data = some ws)
    (hd : p.blockSize ∣ data.length) (hlt : data.length < 2^32)
    (hl : lba+data.length/p.blockSize < 2^64) (hb : p.negotiated.maxBurstLength < 2^24)
    (hf : p.negotiated.firstBurstLength ≤ p.negotiated.maxSendDataSegmentLength)
    (hm : 0 < p.negotiated.maxSendDataSegmentLength)
    (hok : Machine.Meets (step p ws) (OwnData ws)
      (.start initialCmdSn initialExpStatSn p.negotiated medium) ls)
    (hr : Machine.run (step p ws) (.start initialCmdSn initialExpStatSn p.negotiated medium) ls =
      some y) :
    (∃ ks, Machine.run (writeStep p ws) (.start medium) ks = some y.writing ∧
      Machine.Meets (writeStep p ws) (FindsOwn ws) (.start medium) ks) ∧
    ∀ r, y.writing.result ws = some r →
      r = .ok () ∧ y.target.medium = medium.write (lba*p.blockSize) data := by
  have hws : ∀ w ∈ ws, p.ChunkOf ⟨lba*p.blockSize,data⟩ w :=
    fun w hw => chunkOf_writeCommands h hd hlt hl hb hw
  obtain ⟨hy,hks⟩ := refining_run hws hm hf hok hr
  refine ⟨hks,fun r hres => ?_⟩
  obtain ⟨hret,hall⟩ := hy.sound.result_eq.1 r hres
  exact ⟨hret,hy.sound.medium_eq (fun q hq => chunks_cover h hd hlt hq) hws hall⟩

def oneChunk (c : Command) : List Label :=
  let answers : List Label := [.receive ⟨Bhs.buildR2t 0 7 0 0 0 0 1 1,none,none⟩,.handle,.handle,
    .handleSent,.handle,.receive ⟨Bhs.buildScsiResponse 0 0 1 0 0,none,none⟩]
  Label.prepare 0 c ++ Label.transmit 0 ++ .advance 0 :: answers ++ List.replicate 5 .handle ++
    [.finish 0]

example : (narrowDisk.writeCommand ⟨3,1,[1,2]⟩).bind (fun c =>
    (Machine.run (step narrowDisk [⟨3,1,[1,2]⟩]) (.start 0 0 narrowDisk.negotiated (fun _ => 0))
      (oneChunk c)).bind (fun y => y.writing.result [⟨3,1,[1,2]⟩])) = some (.ok ()) := by
  decide +kernel

end Runs

end Attached

end IscsiFuse.Iscsi
