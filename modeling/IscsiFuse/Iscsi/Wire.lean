import IscsiFuse.Iscsi.SessionSteps
set_option autoImplicit false

namespace IscsiFuse.Iscsi
open Session

/-- The command that a call carries. -/
def Call.command : Call → Option Command
  | .window c | .inWindow c _ | .load c _ | .cas c _ _ | .store c _ => some c
  | .numbering (.command c _) _ => some c
  | _ => none

/-- Every command submitted meets `Q`. -/
def Label.Submitted (Q : Nat → Command → Prop) : Label → Prop
  | .submit k c => Q k c
  | _ => True

def Requested (log : List SessionEvent) (r : R2t) : Prop :=
  ∃ k q, .received k q ∈ log ∧ q.bhs.opcode = .r2t ∧
    r = ⟨q.itt,q.bhs.ttt,q.bhs.r2tBufferOffset.toNat,q.bhs.r2tDesiredLength.toNat⟩

/-- A Data-Out of the answer to an R2T that was received. -/
def Answers (n : NegotiatedParams) (log : List SessionEvent) (p : Pdu) : Prop :=
  ∃ r data stat sent dataSn, Requested log r ∧
    R2t.dataOutPdu r n.maxSegment data stat sent dataSn = some p

structure OnWire (Q : Nat → Command → Prop) (n : NegotiatedParams) (log : List SessionEvent) :
    Prop where
  command : ∀ k c itt p, .sent (some k) (.command c itt) p ∈ log →
    Q k c ∧ ∃ cmdSn expStatSn, p = (Sender.command c itt).pdu cmdSn expStatSn
  dataOut : ∀ p, .dataOut p ∈ log → Answers n log p

structure Carries (Q : Nat → Command → Prop) (n : NegotiatedParams) (s : Session) : Prop where
  negotiated : s.negotiated = n
  call : ∀ k c, (s.calls k).command = some c → Q k c
  built : ∀ k w p turn, s.calls k = .numbering w (.send p turn) →
    ∃ cmdSn expStatSn, p = w.pdu cmdSn expStatSn
  answering : ∀ r o, s.receiver.r2t = some (r,o) → Requested s.log r
  wire : OnWire Q n s.log

variable {Q : Nat → Command → Prop} {n : NegotiatedParams} {s t : Session} {l : Label}

def Hands (s t : Session) (l : Label) (k : Nat) : Prop :=
  (∀ c, (t.calls k).command = some c → (s.calls k).command = some c ∨ l = .submit k c) ∧
    ∀ w p turn, t.calls k = .numbering w (.send p turn) →
      s.calls k = .numbering w (.send p turn) ∨ ∃ cmdSn expStatSn, p = w.pdu cmdSn expStatSn

theorem step_hands (h : sessionStep s l = some t) (j : Nat) : Hands s t l j := by
  rcases own_step h j with hj | ⟨hl,hj⟩
  · exact ⟨fun c hc => Or.inl (hj ▸ hc),fun w p turn hp => Or.inl (hj ▸ hp)⟩
  · unfold Hands
    generalize t.calls j = y at hj
    generalize s.calls j = x at hj
    cases hj with
    | submit k c =>
      cases hl
      exact ⟨fun c' hc => Or.inr (by cases hc; rfl),fun w p turn hp => by cases hp⟩
    | stat k w cmdSn turn =>
      refine ⟨fun c hc => Or.inl ?_,fun w' p turn' hp => Or.inr ?_⟩
      · cases w <;> exact hc
      · cases hp
        exact ⟨_,_,rfl⟩
    | number k w =>
      refine ⟨fun c hc => Or.inl ?_,fun w' p turn' hp => by cases hp⟩
      cases w <;> exact hc
    | sentData | sentCommand | sentOther | sendFailed =>
      exact ⟨fun c hc => (by cases hc),fun w p turn hp => by cases hp⟩
    | _ => exact ⟨fun c hc => Or.inl hc,fun w p turn hp => by cases hp⟩

theorem Requested.append {log : List SessionEvent} {r : R2t} (h : Requested log r)
    (m : List SessionEvent) : Requested (log ++ m) r := by
  obtain ⟨k,q,hq,ho⟩ := h
  exact ⟨k,q,List.mem_append_left m hq,ho⟩

theorem Answers.append {log : List SessionEvent} {p : Pdu} (h : Answers n log p)
    (m : List SessionEvent) : Answers n (log ++ m) p := by
  obtain ⟨r,data,stat,sent,dataSn,hr,hp⟩ := h
  exact ⟨r,data,stat,sent,dataSn,hr.append m,hp⟩

theorem OnWire.snoc {log : List SessionEvent} {e : SessionEvent} (h : OnWire Q n log)
    (hc : ∀ k c itt p, e = .sent (some k) (.command c itt) p →
      Q k c ∧ ∃ cmdSn expStatSn, p = (Sender.command c itt).pdu cmdSn expStatSn)
    (hd : ∀ p, e = .dataOut p → Answers n log p) : OnWire Q n (log ++ [e]) where
  command := by
    intro k c itt p hm
    rcases List.mem_append.mp hm with hm | hm
    · exact h.command k c itt p hm
    · exact hc k c itt p (List.mem_singleton.mp hm).symm
  dataOut := by
    intro p hm
    rcases List.mem_append.mp hm with hm | hm
    · exact (h.dataOut p hm).append _
    · exact (hd p (List.mem_singleton.mp hm).symm).append _

theorem OnWire.other {log : List SessionEvent} {e : SessionEvent} (h : OnWire Q n log)
    (hc : ∀ k c itt p, e ≠ .sent k (.command c itt) p) (hd : ∀ p, e ≠ .dataOut p) :
    OnWire Q n (log ++ [e]) :=
  h.snoc (fun _ c itt p he => absurd he (hc _ c itt p)) (fun p he => absurd he (hd p))

theorem nextDataOut_built {p : Pdu} (h : s.nextDataOut = some p) :
    ∃ r o data stat sent dataSn, s.receiver.r2t = some (r,o) ∧
      R2t.dataOutPdu r s.negotiated.maxSegment data stat sent dataSn = some p := by
  unfold nextDataOut at h
  split at h
  · rename_i hr
    split at h
    · exact ⟨_,_,_,_,_,_,by rw [hr]; rfl,h⟩
    · cases h
  · cases h

theorem dataOutPdu_eq_some {r : R2t} {m sent dataSn : Nat} {data : Bytes} {stat : BitVec 32}
    {p : Pdu} (h : r.dataOutPdu m data stat sent dataSn = some p) : ∃ chunk,
      slice data (r.bufferOffset+sent)
        (min (r.bufferOffset+sent+min (r.desiredLength-sent) m) data.length) = some chunk ∧
      p.data = some chunk ∧ p.bhs.dataSegmentLength = BitVec.ofNat 32 chunk.length ∧
      p.bhs.raw = (Bhs.buildDataOut 0 (BitVec.ofNat 32 r.itt) r.ttt stat
        (BitVec.ofNat 32 dataSn) (BitVec.ofNat 32 (r.bufferOffset+sent))).raw := by
  simp only [R2t.dataOutPdu,Option.bind_eq_bind,Option.bind_eq_some_iff] at h
  obtain ⟨chunk,hc,hp⟩ := h
  obtain rfl := Option.some.inj hp
  exact ⟨chunk,hc,rfl,rfl,rfl⟩

theorem dispatch_requested {p : Pdu} {r : R2t} {o : Option Bytes}
    (h : (Receiver.dispatch p).r2t = some (r,o)) : p.bhs.opcode = .r2t ∧
      r = ⟨p.itt,p.bhs.ttt,p.bhs.r2tBufferOffset.toNat,p.bhs.r2tDesiredLength.toNat⟩ := by
  unfold Receiver.dispatch at h
  split at h
  · cases h
  · split at h
    · cases h
    · split at h <;> cases h
  · rename_i ho
    cases h
    exact ⟨ho,rfl⟩
  · split at h <;> cases h
  · cases h

theorem takeNumber_wire (h : OnWire Q n s.log) (k : Nat) (w : Sender) :
    OnWire Q n (s.takeNumber k w).log ∧ (s.takeNumber k w).negotiated = s.negotiated ∧
      ∃ m, (s.takeNumber k w).log = s.log ++ m := by
  unfold takeNumber
  split
  · exact ⟨h.other (fun _ _ _ _ he => by cases he) (fun _ he => by cases he),rfl,_,rfl⟩
  · exact ⟨h,rfl,[],by simp⟩

theorem wire_step (h : Carries Q n s) (hs : SessionStep s l t) :
    OnWire Q n t.log ∧ t.negotiated = n := by
  cases hs with
  | number k w hc =>
    obtain ⟨hw,hn,_⟩ := takeNumber_wire h.wire k w
    exact ⟨hw,hn.trans h.negotiated⟩
  | sentCommand k c itt p turn hc =>
    refine ⟨h.wire.snoc (fun k' c' itt' p' he => ?_) (fun _ he => by cases he),h.negotiated⟩
    cases he
    exact ⟨h.call k c (by rw [hc]; rfl),h.built k _ p turn hc⟩
  | sentOther k w p turn hw hc =>
    refine ⟨h.wire.other (fun _ _ _ _ he => ?_) (fun _ he => by cases he),h.negotiated⟩
    cases he
    cases hw
  | receive p hp =>
    exact ⟨h.wire.other (fun _ _ _ _ he => by cases he) (fun _ he => by cases he),h.negotiated⟩
  | deliver p r k hp hk =>
    exact ⟨h.wire.other (fun _ _ _ _ he => by cases he) (fun _ he => by cases he),h.negotiated⟩
  | dataOut p x hp hx =>
    refine ⟨h.wire.snoc (fun _ _ _ _ he => by cases he) (fun q he => ?_),h.negotiated⟩
    cases he
    obtain ⟨r,o,data,stat,sent,dataSn,hr,hb⟩ := nextDataOut_built hp
    exact ⟨r,data,stat,sent,dataSn,h.answering r o hr,h.negotiated ▸ hb⟩
  | pongSent ttt p turn hp =>
    exact ⟨h.wire.other (fun _ _ _ _ he => by cases he) (fun _ he => by cases he),h.negotiated⟩
  | _ => exact ⟨h.wire,h.negotiated⟩

theorem answering_step (h : Carries Q n s) (hs : SessionStep s l t) (r : R2t) (o : Option Bytes)
    (hr : t.receiver.r2t = some (r,o)) : Requested t.log r := by
  cases hs with
  | number k w hc =>
    obtain ⟨_,_,m,hm⟩ := takeNumber_wire h.wire k w
    have hrec := (takeNumber_tables s k w).2.2.1
    have hlog : ((s.takeNumber k w).setCall k (.numbering w (.stat s.state.cmdSn
      (takers s.log).length))).log = s.log ++ m := hm
    rw [hlog]
    exact (h.answering r o (hrec ▸ hr)).append m
  | receive p hp =>
    obtain ⟨ho,hq⟩ := dispatch_requested hr
    exact ⟨_,p,List.mem_append_right _ (List.mem_singleton_self _),ho,hq⟩
  | accumulate p data hp =>
    simp only at hr
    split at hr <;> cases hr
  | free p hp =>
    simp only at hr
    split at hr <;> cases hr
  | found r' tries d hp hd =>
    cases hr
    exact h.answering r none (by rw [hp]; rfl)
  | answer l x y hy hx =>
    rcases hx with hx | rfl | rfl
    · have hxr : x.r2t = some (r,o) := hr
      rw [hx] at hxr
      exact h.answering r o (hy.trans hxr)
    · cases hr
    · cases hr
  | dataOut p x hp hx => exact (h.answering r o (hx.symm.trans hr)).append _
  | sentCommand k c itt p turn hc => exact (h.answering r o hr).append _
  | sentOther k w p turn hw hc => exact (h.answering r o hr).append _
  | wander l k c hc hc' => exact h.answering r o hr
  | claim k c half hc hb => exact h.answering r o hr
  | store k c itt hc => exact h.answering r o hr
  | stat k w cmdSn turn hc => exact h.answering r o hr
  | register k itt data hc => exact h.answering r o hr
  | leave l k hc => exact h.answering r o hr
  | _ => cases hr

theorem carries_step (h : Carries Q n s) (hq : l.Submitted Q) (hs : sessionStep s l = some t) :
    Carries Q n t := by
  obtain ⟨hw,hn⟩ := wire_step h (session_step hs)
  refine ⟨hn,fun k c hc => ?_,fun k w p turn hp => ?_,answering_step h (session_step hs),hw⟩
  · rcases (step_hands hs k).1 c hc with hc | rfl
    · exact h.call k c hc
    · exact hq
  · rcases (step_hands hs k).2 w p turn hp with hp | hp
    · exact h.built k w p turn hp
    · exact hp

theorem carries_start (Q : Nat → Command → Prop) (n : NegotiatedParams) (init stat : BitVec 32) :
    Carries Q n (Session.start init stat n) where
  negotiated := rfl
  call := fun k c h => by cases h
  built := fun k w p turn h => by cases h
  answering := fun r o h => by cases h
  wire := ⟨fun k c itt p h => (by cases h),fun p h => (by cases h)⟩

theorem onWire_run {init stat : BitVec 32} {ls : List Label} (hq : ∀ l ∈ ls, l.Submitted Q)
    (hr : Machine.run sessionStep (Session.start init stat n) ls = some t) : OnWire Q n t.log :=
  (Machine.run_invariant_of (I := Carries Q n) (fun _ _ _ h hl hs => carries_step h hl hs)
    (carries_start Q n init stat) hq hr).wire

theorem command_raw (c : Command) (itt : Nat) (cmdSn expStatSn : BitVec 32) :
    ((Sender.command c itt).pdu cmdSn expStatSn).bhs.raw = (Bhs.buildScsiCommand c.lun
      (BitVec.ofNat 32 itt) cmdSn expStatSn c.cdb.bytes c.cdb.size c.edtl c.read c.write).raw := by
  simp only [Sender.pdu]
  split <;> rfl

theorem advance_cas {s : Session} {k bit : Nat} {c : Command} {h : Half} {current : BitVec 64}
    (hc : s.calls k = .cas c h current) (hs : s.pool.slots h = current)
    (hb : IttPool.freeBit current = bit) (hlt : bit < 64) : s.advance k =
      some ({ s.setSlot (h.base+bit) (.claimed k) with pool := s.pool.claim h bit }.setCall k
        (.store c (h.base+bit))) := by
  unfold advance
  rw [hc]
  simp only [hb,hlt,hs,if_true]

theorem run_alone (n : NegotiatedParams) (c : Command) : ∃ t,
    Machine.run sessionStep (Session.start 1 0 n) (Label.prepare 0 c ++ Label.transmit 0) = some t ∧
      (∃ p, .sent (some 0) (.command c 0) p ∈ t.log) ∧
      t.receiver = .idle ∧ t.pool.completions 0 = some 0 ∧ t.calls 0 ≠ .finished := by
  obtain ⟨s,h₁,hc,hs,hi⟩ : ∃ s, Machine.run sessionStep (Session.start 1 0 n) [.submit 0 c,.advance 0,
    .advance 0,.advance 0] = some s ∧ s.calls 0 = .cas c .lo 0 ∧ s.pool.slots .lo = 0 ∧
      s.receiver = .idle := ⟨_,rfl,rfl,rfl,rfl⟩
  have hbit : IttPool.freeBit 0 = 0 := by decide +kernel
  have h₂ : sessionStep s (.advance 0) = some _ := advance_cas hc hs hbit (by decide)
  have h₃ := Machine.run_trans h₁ (Machine.run_one h₂)
  have hr : Machine.run sessionStep (Session.start 1 0 n)
    (([.submit 0 c,.advance 0,.advance 0,.advance 0] ++ [.advance 0]) ++
      [.advance 0,.advance 0,.advance 0,.sent 0]) = some _ := Machine.run_trans h₃ rfl
  refine ⟨_,hr,⟨_,List.mem_append_right _ (List.mem_singleton_self _)⟩,hi,rfl,?_⟩
  rw [setCall_self]
  split <;> simp

theorem sent_alone (n : NegotiatedParams) (c : Command) : ∃ t,
    Machine.run sessionStep (Session.start 1 0 n) (Label.prepare 0 c ++ Label.transmit 0) = some t ∧
      ∃ p, .sent (some 0) (.command c 0) p ∈ t.log := by
  obtain ⟨t,hr,hp,_⟩ := run_alone n c
  exact ⟨t,hr,hp⟩

theorem submitted_alone {Q : Nat → Command → Prop} {c : Command} (h : Q 0 c) :
    ∀ l ∈ Label.prepare 0 c ++ Label.transmit 0, l.Submitted Q := by
  intro l hl
  simp only [Label.prepare,Label.transmit,List.replicate,List.cons_append,List.nil_append,
    List.mem_cons,List.not_mem_nil,or_false] at hl
  rcases hl with rfl | rfl | rfl | rfl | rfl | rfl | rfl | rfl | rfl <;> first | exact h | trivial

end IscsiFuse.Iscsi
