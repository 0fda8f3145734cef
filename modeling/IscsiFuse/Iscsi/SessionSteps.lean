import IscsiFuse.Iscsi.Session
set_option autoImplicit false

namespace IscsiFuse.Iscsi
open Session

def Call.early : Call → Bool
  | .idle | .window _ | .inWindow _ _ | .load _ _ | .cas _ _ _ => true
  | .numbering (.nop _) .number | .numbering .logout .number => true
  | _ => false

def Sender.isCommand : Sender → Bool
  | .command _ _ => true
  | _ => false

/-- The R2T being answered, and the data to answer it with once that is found. -/
def Receiver.r2t : Receiver → Option (R2t × Option Bytes)
  | .lookup r _ => some (r,none)
  | .loadStat r data => some (r,some data)
  | .dataOut r data _ _ _ => some (r,some data)
  | _ => none

def Receiver.mayStop : Receiver → Bool
  | .takeSender p _ => 128 ≤ p.itt
  | .dataOut _ _ _ _ _ | .pong _ _ => true
  | _ => false

inductive SessionStep (s : Session) : Label → Session → Prop
  | wander (l : Label) (k : Nat) (c : Call) : (s.calls k).early = true → c.early = true →
      SessionStep s l (s.setCall k c)
  | claim (k : Nat) (c : Command) (h : Half) : s.calls k = .cas c h (s.pool.slots h) →
      IttPool.freeBit (s.pool.slots h) < 64 →
      SessionStep s (.advance k)
        ({ s.setSlot (h.base+IttPool.freeBit (s.pool.slots h)) (.claimed k) with
            pool := s.pool.claim h (IttPool.freeBit (s.pool.slots h)) }.setCall k
          (.store c (h.base+IttPool.freeBit (s.pool.slots h))))
  | store (k : Nat) (c : Command) (itt : Nat) : s.calls k = .store c itt →
      SessionStep s (.advance k)
        ({ s.setSlot itt (.ready k) with pool := s.pool.putSender itt (some k) }.setCall k
          (.numbering (.command c itt) .number))
  | number (k : Nat) (w : Sender) : s.calls k = .numbering w .number →
      SessionStep s (.advance k) ((s.takeNumber k w).setCall k
        (.numbering w (.stat s.state.cmdSn (takers s.log).length)))
  | stat (k : Nat) (w : Sender) (cmdSn : BitVec 32) (turn : Nat) :
      s.calls k = .numbering w (.stat cmdSn turn) →
      SessionStep s (.advance k)
        (s.setCall k (.numbering w (.send (w.pdu cmdSn s.state.expStatSn) turn)))
  | sentCommand (k : Nat) (c : Command) (itt : Nat) (p : Pdu) (turn : Nat) :
      s.calls k = .numbering (.command c itt) (.send p turn) →
      SessionStep s (.sent k)
        (((s.observe (.sent (some k) (.command c itt) p)).setSlot itt (.opened k)).setCall k
          (match c.writeData with
            | some data => .register itt data
            | none => .waiting itt))
  | sentOther (k : Nat) (w : Sender) (p : Pdu) (turn : Nat) : w.isCommand = false →
      s.calls k = .numbering w (.send p turn) →
      SessionStep s (.sent k) ((s.observe (.sent (some k) w p)).setCall k .finished)
  | register (k itt : Nat) (data : Bytes) : s.calls k = .register itt data →
      SessionStep s (.advance k)
        ({ s with pool := s.pool.putWriteData itt (some ⟨k,data⟩) }.setCall k (.waiting itt))
  | leave (l : Label) (k : Nat) :
      (∃ itt, s.calls k = .waiting itt) ∨ (∃ w p turn, s.calls k = .numbering w (.send p turn)) →
      SessionStep s l (s.setCall k .finished)
  | receive (p : Pdu) : s.receiver = .idle → SessionStep s (.receive p) (s.receive p)
  | accumulate (p : Pdu) (data : Bytes) : s.receiver = .accumulate p data →
      SessionStep s .handle { s with
        dataAccumulator := Function.update s.dataAccumulator p.itt
          (some (accumulate ((s.dataAccumulator p.itt).getD []) p.bhs.bufferOffset.toNat data))
        receiver := if p.bhs.statusFlag then .takeData p else .idle }
  | takeData (p : Pdu) : s.receiver = .takeData p →
      SessionStep s .handle { s with
        dataAccumulator := Function.update s.dataAccumulator p.itt none
        receiver := .takeSender p (p.response (s.dataAccumulator p.itt)) }
  | takeSender (p : Pdu) (r : PduResponse) : s.receiver = .takeSender p r → p.itt < 128 →
      SessionStep s .handle { s with
        pool := s.pool.putSender p.itt none
        receiver := .deliver p r (s.pool.completions p.itt) }
  | deliver (p : Pdu) (r : PduResponse) (k : Nat) : s.receiver = .deliver p r (some k) →
      s.calls k ≠ .finished →
      SessionStep s .handle { s.observe (.delivered k r) with receiver := .free p }
  | undelivered (p : Pdu) (r : PduResponse) (tx : Option Nat) : s.receiver = .deliver p r tx →
      SessionStep s .handle { s with receiver := .free p }
  | free (p : Pdu) : s.receiver = .free p →
      SessionStep s .handle { s.setSlot p.itt .free with
        pool := s.pool.free p.itt
        receiver := if p.bhs.opcode = .scsiResponse then .removeWriteData p.itt else .idle }
  | removeWriteData (itt : Nat) : s.receiver = .removeWriteData itt →
      SessionStep s .handle { s with pool := s.pool.putWriteData itt none, receiver := .idle }
  | found (r : R2t) (tries : Nat) (d : WriteData) : s.receiver = .lookup r tries →
      s.pool.writeData r.itt = some d →
      SessionStep s .handle { s with receiver := .loadStat r d.data }
  | answer (l : Label) (x : Receiver) (y : R2t × Option Bytes) : s.receiver.r2t = some y →
      x.r2t = some y ∨ x = .idle ∨ x = .stopped → SessionStep s l { s with receiver := x }
  | dataOut (p : Pdu) (x : Receiver) : s.nextDataOut = some p → x.r2t = s.receiver.r2t →
      SessionStep s .handleSent { s.observe (.dataOut p) with receiver := x }
  | pongNumber (ttt : BitVec 32) : s.receiver = .pong ttt .number →
      SessionStep s .handle { s with
        receiver := .pong ttt (.stat s.state.cmdSn (takers s.log).length) }
  | pongStat (ttt cmdSn : BitVec 32) (turn : Nat) : s.receiver = .pong ttt (.stat cmdSn turn) →
      SessionStep s .handle { s with
        receiver := .pong ttt (.send ((Sender.nop ttt).pdu cmdSn s.state.expStatSn) turn) }
  | pongSent (ttt : BitVec 32) (p : Pdu) (turn : Nat) : s.receiver = .pong ttt (.send p turn) →
      SessionStep s .handleSent { s.observe (.sent none (.nop ttt) p) with receiver := .idle }
  | stop (l : Label) : s.receiver.mayStop = true → SessionStep s l { s with receiver := .stopped }

variable {s t : Session}

theorem nextDataOut_r2t {p : Pdu} (h : s.nextDataOut = some p) : ∃ y, s.receiver.r2t = some y := by
  unfold nextDataOut at h
  split at h
  · rename_i hr
    rw [hr]
    exact ⟨_,rfl⟩
  · cases h

theorem advance_step {k : Nat} (h : s.advance k = some t) : SessionStep s (.advance k) t := by
  unfold advance at h
  split at h
  · rename_i c hc
    cases h
    exact .wander _ k _ (by rw [hc]; rfl) rfl
  · rename_i c cmdSn hc
    cases h
    exact .wander _ k _ (by rw [hc]; rfl) (by split <;> rfl)
  · rename_i c half hc
    cases h
    exact .wander _ k _ (by rw [hc]; rfl) rfl
  · rename_i c half current hc
    simp only at h
    split at h
    · rename_i hb
      split at h
      · rename_i hcur
        cases h
        subst hcur
        exact .claim k c half hc hb
      · cases h
        exact .wander _ k _ (by rw [hc]; rfl) rfl
    · cases h
      exact .wander _ k _ (by rw [hc]; rfl) rfl
  · rename_i c itt hc
    cases h
    exact .store k c itt hc
  · rename_i w hc
    cases h
    exact .number k w hc
  · rename_i w cmdSn turn hc
    cases h
    exact .stat k w cmdSn turn hc
  · rename_i itt data hc
    cases h
    exact .register k itt data hc
  · cases h

theorem sent_step {k : Nat} (h : s.sent k = some t) : SessionStep s (.sent k) t := by
  unfold Session.sent at h
  split at h
  · rename_i c itt p turn hc
    cases h
    exact .sentCommand k c itt p turn hc
  · rename_i w p turn hne hc
    cases h
    refine .sentOther k w p turn ?_ hc
    cases w with
    | command c itt => exact absurd rfl (hne c itt)
    | _ => rfl
  · cases h

theorem handle_step (h : s.handle = some t) : SessionStep s .handle t := by
  unfold handle at h
  split at h
  · rename_i p data hr
    cases h
    exact .accumulate p data hr
  · rename_i p hr
    cases h
    exact .takeData p hr
  · rename_i p r hr
    split at h
    · rename_i hi
      cases h
      exact .takeSender p r hr hi
    · rename_i hi
      cases h
      exact .stop _ (by rw [hr]; simpa [Receiver.mayStop] using hi)
  · rename_i p r tx hr
    cases tx with
    | none =>
      cases h
      exact .undelivered p r none hr
    | some k =>
      simp only at h
      split at h
      · cases h
        exact .undelivered p r (some k) hr
      · rename_i hk
        cases h
        exact .deliver p r k hr hk
  · rename_i p hr
    cases h
    exact .free p hr
  · rename_i itt hr
    cases h
    exact .removeWriteData itt hr
  · rename_i r tries hr
    split at h
    · rename_i d hd
      cases h
      exact .found r tries d hr hd
    · cases h
      refine .answer _ _ (r,none) (by rw [hr]; rfl) ?_
      split
      · exact Or.inr (Or.inl rfl)
      · exact Or.inl rfl
  · rename_i r data hr
    cases h
    exact .answer _ _ (r,some data) (by rw [hr]; rfl) (Or.inl rfl)
  · rename_i r data stat sent dataSn hr
    split at h
    · split at h
      · cases h
      · cases h
        exact .stop _ (by rw [hr]; rfl)
    · cases h
      exact .answer _ _ (r,some data) (by rw [hr]; rfl) (Or.inr (Or.inl rfl))
  · rename_i ttt hr
    cases h
    exact .pongNumber ttt hr
  · rename_i ttt cmdSn turn hr
    cases h
    exact .pongStat ttt cmdSn turn hr
  · cases h

theorem session_step {l : Label} (h : sessionStep s l = some t) : SessionStep s l t := by
  cases l with
  | submit k c =>
    simp only [sessionStep] at h
    split at h
    · rename_i hc
      cases h
      exact .wander _ k _ (by rw [hc]; rfl) rfl
    · cases h
  | nopOut k =>
    simp only [sessionStep] at h
    split at h
    · rename_i hc
      cases h
      exact .wander _ k _ (by rw [hc]; rfl) rfl
    · cases h
  | logout k =>
    simp only [sessionStep] at h
    split at h
    · rename_i hc
      cases h
      exact .wander _ k _ (by rw [hc]; rfl) rfl
    · cases h
  | advance k => exact advance_step h
  | casFailed k =>
    simp only [sessionStep] at h
    split at h
    · rename_i c half current hc
      split at h
      · cases h
        exact .wander _ k _ (by rw [hc]; rfl) rfl
      · cases h
    · cases h
  | sent k => exact sent_step h
  | sendFailed k =>
    simp only [sessionStep] at h
    split at h
    · rename_i w p turn hc
      cases h
      exact .leave _ k (Or.inr ⟨w,p,turn,hc⟩)
    · cases h
  | finish k =>
    simp only [sessionStep] at h
    split at h
    · rename_i itt hc
      cases h
      exact .leave _ k (Or.inl ⟨itt,hc⟩)
    · cases h
  | receive p =>
    simp only [sessionStep] at h
    split at h
    · rename_i hr
      cases h
      exact .receive p hr
    · cases h
  | handle => exact handle_step h
  | handleSent =>
    simp only [sessionStep,Session.handleSent] at h
    split at h
    · rename_i ttt p turn hr
      cases h
      exact .pongSent ttt p turn hr
    · rename_i r data stat sent dataSn hr
      obtain ⟨p,hp,rfl⟩ := Option.map_eq_some_iff.mp h
      exact .dataOut p _ hp (by rw [hr]; rfl)
    · cases h
  | handleFailed =>
    simp only [sessionStep,Session.handleFailed] at h
    split at h
    · rename_i hr
      cases h
      exact .stop _ (by rw [hr]; rfl)
    · rename_i hr
      obtain ⟨p,hp,rfl⟩ := Option.map_eq_some_iff.mp h
      exact .stop _ (by rw [hr]; rfl)
    · cases h

theorem handle_calls (h : s.handle = some t) : t.calls = s.calls := by
  unfold handle at h
  split at h
  · cases h; rfl
  · cases h; rfl
  · split at h <;> cases h <;> rfl
  · cases h
    simp only
    split
    · split <;> rfl
    · rfl
  · cases h; rfl
  · cases h; rfl
  · split at h <;> cases h <;> rfl
  · cases h; rfl
  · split at h
    · split at h <;> cases h
      rfl
    · cases h; rfl
  · cases h; rfl
  · cases h; rfl
  · cases h

/-- The call that a step is of. -/
def Label.call : Label → Option Nat
  | .submit k _ | .nopOut k | .logout k => some k
  | .advance k | .casFailed k | .sent k | .sendFailed k | .finish k => some k
  | _ => none

inductive CallStep (s : Session) : Label → Call → Call → Prop
  | submit (k : Nat) (c : Command) : CallStep s (.submit k c) .idle (.window c)
  | nopOut (k : Nat) : CallStep s (.nopOut k) .idle (.numbering (.nop 0xFFFFFFFF) .number)
  | logout (k : Nat) : CallStep s (.logout k) .idle (.numbering .logout .number)
  | loadCmdSn (k : Nat) (c : Command) :
      CallStep s (.advance k) (.window c) (.inWindow c s.state.cmdSn)
  | admitted (k : Nat) (c : Command) (cmdSn : BitVec 32) :
      CallStep s (.advance k) (.inWindow c cmdSn) (.load c .lo)
  | shut (k : Nat) (c : Command) (cmdSn : BitVec 32) :
      CallStep s (.advance k) (.inWindow c cmdSn) (.window c)
  | load (k : Nat) (c : Command) (h : Half) :
      CallStep s (.advance k) (.load c h) (.cas c h (s.pool.slots h))
  | claim (k : Nat) (c : Command) (h : Half) : IttPool.freeBit (s.pool.slots h) < 64 →
      CallStep s (.advance k) (.cas c h (s.pool.slots h))
        (.store c (h.base+IttPool.freeBit (s.pool.slots h)))
  | reload (l : Label) (c : Command) (h h' : Half) (current : BitVec 64) :
      CallStep s l (.cas c h current) (.load c h')
  | store (k : Nat) (c : Command) (itt : Nat) :
      CallStep s (.advance k) (.store c itt) (.numbering (.command c itt) .number)
  | number (k : Nat) (w : Sender) : CallStep s (.advance k) (.numbering w .number)
      (.numbering w (.stat s.state.cmdSn (takers s.log).length))
  | stat (k : Nat) (w : Sender) (cmdSn : BitVec 32) (turn : Nat) :
      CallStep s (.advance k) (.numbering w (.stat cmdSn turn))
        (.numbering w (.send (w.pdu cmdSn s.state.expStatSn) turn))
  | register (k itt : Nat) (data : Bytes) :
      CallStep s (.advance k) (.register itt data) (.waiting itt)
  | sentData (k : Nat) (c : Command) (itt : Nat) (p : Pdu) (turn : Nat) (data : Bytes) :
      c.writeData = some data →
      CallStep s (.sent k) (.numbering (.command c itt) (.send p turn)) (.register itt data)
  | sentCommand (k : Nat) (c : Command) (itt : Nat) (p : Pdu) (turn : Nat) :
      CallStep s (.sent k) (.numbering (.command c itt) (.send p turn)) (.waiting itt)
  | sentOther (k : Nat) (w : Sender) (p : Pdu) (turn : Nat) : w.isCommand = false →
      CallStep s (.sent k) (.numbering w (.send p turn)) .finished
  | sendFailed (k : Nat) (w : Sender) (p : Pdu) (turn : Nat) :
      CallStep s (.sendFailed k) (.numbering w (.send p turn)) .finished
  | finish (k itt : Nat) : CallStep s (.finish k) (.waiting itt) .finished

theorem advance_call {k : Nat} (h : s.advance k = some t) :
    ∃ c, t.calls = Function.update s.calls k c ∧ CallStep s (.advance k) (s.calls k) c := by
  unfold advance at h
  split at h
  · rename_i c hc
    cases h
    exact ⟨_,rfl,hc ▸ .loadCmdSn k c⟩
  · rename_i c cmdSn hc
    cases h
    refine ⟨_,rfl,?_⟩
    rw [hc]
    split
    · exact .admitted k c cmdSn
    · exact .shut k c cmdSn
  · rename_i c half hc
    cases h
    exact ⟨_,rfl,hc ▸ .load k c half⟩
  · rename_i c half current hc
    simp only at h
    split at h
    · rename_i hb
      split at h
      · rename_i hcur
        cases h
        subst hcur
        exact ⟨_,rfl,hc ▸ .claim k c half hb⟩
      · cases h
        exact ⟨_,rfl,hc ▸ .reload _ c half _ current⟩
    · cases h
      exact ⟨_,rfl,hc ▸ .reload _ c half _ current⟩
  · rename_i c itt hc
    cases h
    exact ⟨_,rfl,hc ▸ .store k c itt⟩
  · rename_i w hc
    cases h
    exact ⟨_,congrArg (Function.update · k _) (takeNumber_calls s k w),hc ▸ .number k w⟩
  · rename_i w cmdSn turn hc
    cases h
    exact ⟨_,rfl,hc ▸ .stat k w cmdSn turn⟩
  · rename_i itt data hc
    cases h
    exact ⟨_,rfl,hc ▸ .register k itt data⟩
  · cases h

theorem sent_call {k : Nat} (h : s.sent k = some t) :
    ∃ c, t.calls = Function.update s.calls k c ∧ CallStep s (.sent k) (s.calls k) c := by
  unfold Session.sent at h
  split at h
  · rename_i c itt p turn hc
    cases h
    refine ⟨_,rfl,?_⟩
    rw [hc]
    cases hw : c.writeData with
    | none => exact .sentCommand k c itt p turn
    | some data => exact .sentData k c itt p turn data hw
  · rename_i w p turn hne hc
    cases h
    refine ⟨_,rfl,hc ▸ .sentOther k w p turn ?_⟩
    cases w with
    | command c itt => exact absurd rfl (hne c itt)
    | _ => rfl
  · cases h

theorem call_step {l : Label} (h : sessionStep s l = some t) :
    (l.call = none ∧ t.calls = s.calls) ∨ ∃ k c, l.call = some k ∧
      t.calls = Function.update s.calls k c ∧ CallStep s l (s.calls k) c := by
  cases l with
  | advance k =>
    obtain ⟨c,hc⟩ := advance_call h
    exact Or.inr ⟨k,c,rfl,hc⟩
  | sent k =>
    obtain ⟨c,hc⟩ := sent_call h
    exact Or.inr ⟨k,c,rfl,hc⟩
  | submit k c =>
    simp only [sessionStep] at h
    split at h
    · rename_i hc
      cases h
      exact Or.inr ⟨k,_,rfl,rfl,hc ▸ .submit k c⟩
    · cases h
  | nopOut k =>
    simp only [sessionStep] at h
    split at h
    · rename_i hc
      cases h
      exact Or.inr ⟨k,_,rfl,rfl,hc ▸ .nopOut k⟩
    · cases h
  | logout k =>
    simp only [sessionStep] at h
    split at h
    · rename_i hc
      cases h
      exact Or.inr ⟨k,_,rfl,rfl,hc ▸ .logout k⟩
    · cases h
  | casFailed k =>
    simp only [sessionStep] at h
    split at h
    · rename_i c half current hc
      split at h <;> cases h
      exact Or.inr ⟨k,_,rfl,rfl,hc ▸ .reload _ c half half current⟩
    · cases h
  | sendFailed k =>
    simp only [sessionStep] at h
    split at h
    · rename_i w p turn hc
      cases h
      exact Or.inr ⟨k,_,rfl,rfl,hc ▸ .sendFailed k w p turn⟩
    · cases h
  | finish k =>
    simp only [sessionStep] at h
    split at h
    · rename_i itt hc
      cases h
      exact Or.inr ⟨k,_,rfl,rfl,hc ▸ .finish k itt⟩
    · cases h
  | receive p =>
    simp only [sessionStep] at h
    split at h <;> cases h
    exact Or.inl ⟨rfl,rfl⟩
  | handle => exact Or.inl ⟨rfl,handle_calls h⟩
  | handleSent =>
    refine Or.inl ⟨rfl,?_⟩
    simp only [sessionStep,Session.handleSent] at h
    split at h
    · cases h
      rfl
    · obtain ⟨p,_,rfl⟩ := Option.map_eq_some_iff.mp h
      rfl
    · cases h
  | handleFailed =>
    refine Or.inl ⟨rfl,?_⟩
    simp only [sessionStep,Session.handleFailed] at h
    split at h
    · cases h
      rfl
    · obtain ⟨p,_,rfl⟩ := Option.map_eq_some_iff.mp h
      rfl
    · cases h

theorem own_step {l : Label} (h : sessionStep s l = some t) (j : Nat) :
    t.calls j = s.calls j ∨ (l.call = some j ∧ CallStep s l (s.calls j) (t.calls j)) := by
  rcases call_step h with ⟨_,hc⟩ | ⟨k,c,hl,hc,hk⟩
  · exact Or.inl (congrFun hc j)
  · by_cases hj : j = k
    · subst hj
      rw [hc,Function.update_self]
      exact Or.inr ⟨hl,hk⟩
    · rw [hc,Function.update_of_ne hj]
      exact Or.inl rfl

theorem step_calls {l : Label} {j : Nat} (h : sessionStep s l = some t) (hj : l.call ≠ some j) :
    t.calls j = s.calls j :=
  (own_step h j).resolve_right (fun hx => hj hx.1)

end IscsiFuse.Iscsi
