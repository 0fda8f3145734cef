import IscsiFuse.Iscsi.SessionSteps
set_option autoImplicit false

namespace IscsiFuse.Iscsi
open Session

/-- The PDUs received that bear a status. -/
def statuses (log : List SessionEvent) : List Pdu :=
  log.filterMap (fun e => match e with
    | .received _ p => if p.isFinal then some p else none
    | _ => none)

def nextStatSn (init : BitVec 32) (log : List SessionEvent) : BitVec 32 :=
  match (statuses log).getLast? with
  | some p => p.bhs.statSn+1
  | none => init

/-- ExpStatSN acknowledges the statuses received and no other. -/
structure StatSnTracked (init : BitVec 32) (s : Session) : Prop where
  last : s.state.expStatSn = nextStatSn init s.log
  count : s.state.expStatSn = init+BitVec.ofNat 32 (statuses s.log).length

def Pdu.compliantStatSn (next : BitVec 32) (p : Pdu) : Bool :=
  match p.bhs.opcode with
  | .scsiResponse | .r2t => p.bhs.statSn = next
  | .scsiDataIn => !p.bhs.statusFlag || p.bhs.statSn = next
  | .nopIn => p.bhs.itt = 0xFFFFFFFF && p.bhs.statSn = next
  | _ => false

def Pdu.repeatsStatSn (next : BitVec 32) (p : Pdu) : Bool :=
  match p.bhs.opcode with
  | .r2t | .nopIn => false
  | .scsiDataIn => p.bhs.statusFlag || p.bhs.statSn+1 = next
  | _ => true

def StatSnCompliant (init : BitVec 32) (s : Session) (l : Label) : Prop :=
  l.pdu.all (fun p => p.compliantStatSn (nextStatSn init s.log)) = true

def StatSnRepeated (init : BitVec 32) (s : Session) (l : Label) : Prop :=
  l.pdu.all (fun p => p.repeatsStatSn (nextStatSn init s.log)) = true

instance (init : BitVec 32) (s : Session) (l : Label) : Decidable (StatSnCompliant init s l) :=
  inferInstanceAs (Decidable (_ = true))

instance (init : BitVec 32) (s : Session) (l : Label) : Decidable (StatSnRepeated init s l) :=
  inferInstanceAs (Decidable (_ = true))

@[simp] theorem statuses_append (l m : List SessionEvent) :
    statuses (l ++ m) = statuses l ++ statuses m := List.filterMap_append

theorem nextStatSn_status {init : BitVec 32} {log : List SessionEvent} {k : Option Nat} {p : Pdu}
    (h : p.isFinal = true) : nextStatSn init (log ++ [.received k p]) = p.bhs.statSn+1 := by
  simp [nextStatSn,statuses,h]

theorem statuses_other {log : List SessionEvent} {k : Option Nat} {p : Pdu}
    (h : p.isFinal = false) : statuses (log ++ [.received k p]) = statuses log := by
  simp [statuses,h]

theorem nextStatSn_congr {init : BitVec 32} {l m : List SessionEvent}
    (h : statuses m = statuses l) : nextStatSn init m = nextStatSn init l := by
  rw [nextStatSn,h,nextStatSn]

theorem takeNumber_statSn (s : Session) (k : Nat) (w : Sender) :
    (s.takeNumber k w).state.expStatSn = s.state.expStatSn ∧
      statuses (s.takeNumber k w).log = statuses s.log := by
  unfold takeNumber
  split
  · exact ⟨rfl,by simp [statuses]⟩
  · exact ⟨rfl,rfl⟩

theorem statSn_step {s t : Session} {l : Label} (h : sessionStep s l = some t) :
    (∃ p, l = .receive p ∧ t = s.receive p) ∨ l.pdu = none ∧
      t.state.expStatSn = s.state.expStatSn ∧ statuses t.log = statuses s.log := by
  have hs := session_step h
  cases hl : l.pdu with
  | some p =>
    cases l with
    | receive q =>
      refine Or.inl ⟨q,rfl,?_⟩
      simp only [sessionStep] at h
      split at h
      · exact (Option.some.inj h).symm
      · cases h
    | _ => cases hl
  | none =>
    refine Or.inr ⟨rfl,?_⟩
    cases hs with
    | receive p hp => cases hl
    | number k w hc => exact takeNumber_statSn s k w
    | sentCommand k c itt p turn hc => exact ⟨rfl,by simp [Session.setCall,Session.setSlot,statuses]⟩
    | sentOther k w p turn hw hc => exact ⟨rfl,by simp [Session.setCall,statuses]⟩
    | deliver p r k hp hk => exact ⟨rfl,by simp [statuses]⟩
    | dataOut p x hp hx => exact ⟨rfl,by simp [statuses]⟩
    | pongSent ttt p turn hp => exact ⟨rfl,by simp [statuses]⟩
    | _ => exact ⟨rfl,rfl⟩

theorem statSn_of_final {next : BitVec 32} {p : Pdu} (hc : p.compliantStatSn next = true)
    (hf : p.isFinal = true) : p.bhs.statSn = next := by
  unfold Pdu.isFinal at hf
  unfold Pdu.compliantStatSn at hc
  cases ho : p.bhs.opcode <;> simp_all

theorem repeats_of_final {next : BitVec 32} {p : Pdu} (hf : p.isFinal = true) :
    p.repeatsStatSn next = true := by
  unfold Pdu.isFinal at hf
  unfold Pdu.repeatsStatSn
  cases ho : p.bhs.opcode <;> simp_all

theorem repeats_of_not_final {next : BitVec 32} {p : Pdu} (hc : p.compliantStatSn next = true)
    (hf : p.isFinal = false) : p.repeatsStatSn next = true ↔ p.bhs.statSn+1 = next := by
  have hne : next+1 ≠ next := by bv_omega
  unfold Pdu.isFinal at hf
  unfold Pdu.compliantStatSn at hc
  unfold Pdu.repeatsStatSn
  cases ho : p.bhs.opcode <;> simp_all

variable {init : BitVec 32} {s t : Session} {l : Label}

def StatSnCounted (init : BitVec 32) (s : Session) : Prop :=
  nextStatSn init s.log = init+BitVec.ofNat 32 (statuses s.log).length

theorem StatSnCounted.congr (h : StatSnCounted init s) (hlog : statuses t.log = statuses s.log) :
    StatSnCounted init t := by
  rw [StatSnCounted,nextStatSn_congr hlog,hlog]
  exact h

theorem statSn_counted_step (h : StatSnCounted init s) (hc : StatSnCompliant init s l)
    (hs : sessionStep s l = some t) : StatSnCounted init t := by
  rcases statSn_step hs with ⟨p,rfl,rfl⟩ | ⟨_,_,hlog⟩
  · cases hf : p.isFinal with
    | true =>
      have hlog : statuses (s.receive p).log = statuses s.log ++ [p] := by
        simp [Session.receive,statuses,hf]
      have hnext : nextStatSn init (s.receive p).log = p.bhs.statSn+1 := nextStatSn_status hf
      rw [StatSnCounted,hnext,statSn_of_final hc hf,hlog,List.length_append]
      rw [StatSnCounted] at h
      rw [h,List.length_singleton,BitVec.ofNat_add,BitVec.add_assoc]
      rfl
    | false => exact h.congr (statuses_other hf)
  · exact h.congr hlog

theorem statSn_tracked_step (hj : StatSnCounted init t) (h : StatSnTracked init s)
    (hc : StatSnCompliant init s l) (hs : sessionStep s l = some t) :
    StatSnTracked init t ↔ StatSnRepeated init s l := by
  have ht : StatSnTracked init t ↔ t.state.expStatSn = nextStatSn init t.log :=
    ⟨fun h => h.last,fun h => ⟨h,h.trans hj⟩⟩
  rw [ht]
  rcases statSn_step hs with ⟨p,rfl,rfl⟩ | ⟨hl,hstat,hlog⟩
  · have hp : (s.receive p).state.expStatSn = p.bhs.statSn+1 := rfl
    rw [hp]
    cases hf : p.isFinal with
    | true =>
      have hnext : nextStatSn init (s.receive p).log = p.bhs.statSn+1 := nextStatSn_status hf
      rw [hnext]
      exact ⟨fun _ => repeats_of_final hf,fun _ => rfl⟩
    | false =>
      have hlog : statuses (s.receive p).log = statuses s.log := statuses_other hf
      rw [nextStatSn_congr hlog]
      exact (repeats_of_not_final hc hf).symm
  · rw [hstat,nextStatSn_congr hlog,h.last,StatSnRepeated,hl]
    exact ⟨fun _ => rfl,fun _ => rfl⟩

/-- ExpStatSN follows the statuses through a run exactly when no R2T and no ping comes and
Data-In without the S bit repeats the last StatSN. -/
theorem expStatSn_tracked_iff {cmdSn init : BitVec 32} {n : NegotiatedParams} {ls : List Label}
    {t : Session} (hc : Machine.Meets sessionStep (StatSnCompliant init) (.start cmdSn init n) ls)
    (hr : Machine.run sessionStep (.start cmdSn init n) ls = some t) :
    Machine.Always sessionStep (StatSnTracked init) (.start cmdSn init n) ls ↔
      Machine.Meets sessionStep (StatSnRepeated init) (.start cmdSn init n) ls :=
  Machine.always_iff_meets (J := StatSnCounted init)
    (fun _ _ _ hj hg hs => statSn_counted_step hj hg hs)
    (fun _ _ _ hj hp hg hs => statSn_tracked_step (statSn_counted_step hj hg hs) hp hg hs)
    (by simp [StatSnCounted,Session.start,nextStatSn,statuses])
    ⟨rfl,by simp [Session.start,SessionState.new,statuses]⟩ hc hr

def statusThenData : List Label :=
  [.receive ⟨.buildScsiResponse 0 0 0xFFFFFFFF 1 9,none,none⟩,.handle,.handle,.handle,.handle,
    .handle,.receive ⟨(Bhs.buildDataIn 1 0 0 0 false 0 0 1 9).setRawU32 24 0xFFFFFFFF Bhs.statSn_fits,
      none,none⟩]

/-- Two statuses around a Data-In, over the wrap of StatSN. -/
theorem expStatSn_tracked_responses :
    Machine.Always sessionStep (StatSnTracked 0xFFFFFFFF) (.start 1 0xFFFFFFFF .defaults10g)
      (statusThenData ++ [.receive ⟨.buildScsiResponse 1 0 0 1 9,none,none⟩]) := by
  have hc : Machine.Meets sessionStep (StatSnCompliant 0xFFFFFFFF)
      (.start 1 0xFFFFFFFF .defaults10g)
      (statusThenData ++ [.receive ⟨.buildScsiResponse 1 0 0 1 9,none,none⟩]) :=
    Machine.meets_of_check (by decide)
  exact (expStatSn_tracked_iff hc rfl).mpr (Machine.meets_of_check (by decide))

/-- After a ping the initiator acknowledges a status that the target has not sent. -/
theorem expStatSn_ahead_after_ping :
    Machine.Meets sessionStep (StatSnCompliant 7) (.start 1 7 .defaults10g)
      [.receive ⟨.buildNopIn 0xFFFFFFFF 42 7 1 9,none,none⟩,.handle,.handle,.handleSent] ∧
    ∃ t, Machine.run sessionStep (.start 1 7 .defaults10g)
        [.receive ⟨.buildNopIn 0xFFFFFFFF 42 7 1 9,none,none⟩,.handle,.handle,.handleSent] = some t ∧
      t.state.expStatSn = 8 ∧ statuses t.log = [] ∧ ¬ StatSnTracked 7 t := by
  refine ⟨Machine.meets_of_check (by decide),_,rfl,by decide,by decide,fun h => ?_⟩
  have hl := h.last
  revert hl
  decide

end IscsiFuse.Iscsi
