import IscsiFuse.Library.Framing
import IscsiFuse.Iscsi.Replies
import IscsiFuse.Iscsi.Submit
import IscsiFuse.Iscsi.Transport
import IscsiFuse.Iscsi.Wire
set_option autoImplicit false

/-!
The session with its connection. The target's bytes arrive in pieces of any size, and what the
session sends goes out as bytes.
-/

namespace IscsiFuse.Iscsi
open Session

structure Connection where
  session : Session
  incoming : Bytes
  outgoing : Bytes

def Connection.new (init stat : BitVec 32) (n : NegotiatedParams) : Connection :=
  ⟨.start init stat n,[],[]⟩

/-- Bytes arrive, `recv_pdu` returns, or the session takes another step. A send that fails may
have written some bytes. -/
inductive ConnectionLabel where
  | arrive (b : Bytes)
  | recv
  | session (l : Label) (cut : Nat)
  deriving DecidableEq

def Label.fails : Label → Bool
  | .sendFailed _ | .handleFailed => true
  | _ => false

def Call.outbound : Call → Option Pdu
  | .numbering _ (.send p _) => some p
  | _ => none

def Receiver.pongOut : Receiver → Option Pdu
  | .pong _ (.send p _) => some p
  | _ => none

def Session.sends (s : Session) : Label → Option Pdu
  | .sent k | .sendFailed k => (s.calls k).outbound
  | .handleSent | .handleFailed => s.receiver.pongOut.or s.nextDataOut
  | _ => none

def SessionEvent.outbound : SessionEvent → Option Pdu
  | .sent _ _ p | .dataOut p => some p
  | _ => none

def SessionEvent.inbound : SessionEvent → Option Pdu
  | .received _ p => some p
  | _ => none

variable (c : Crc32c) (digests : DigestConfig)

def Connection.written (s : Connection) (l : Label) (cut : Nat) : Bytes :=
  (s.session.sends l).elim [] (fun p =>
    if l.fails then (sendPdu c digests p).take cut else sendPdu c digests p)

def connectionStep (s : Connection) : ConnectionLabel → Option Connection
  | .arrive b => some { s with incoming := s.incoming ++ b }
  | .recv => (recvPdu c digests s.incoming).toOption.bind (fun r =>
      (sessionStep s.session (.receive r.1)).map (fun t =>
        { s with session := t, incoming := r.2 }))
  | .session l cut => if l.pdu.isSome then none else (sessionStep s.session l).map (fun t =>
      { s with session := t, outgoing := s.outgoing ++ s.written c digests l cut })

def ConnectionLabel.bytes : ConnectionLabel → Bytes
  | .arrive b => b
  | _ => []

def OfPipeline (_ : Nat) (x : Command) : Prop :=
  ∃ p : Pipeline, p.negotiated.firstBurstLength < 2^24 ∧ p.Submits x

/-- No send fails, and the commands are those of pipelines. -/
def ConnectionLabel.Proper : ConnectionLabel → Prop
  | .session l _ => l.fails = false ∧ l.Submitted OfPipeline
  | _ => True

def Receiver.loading : Receiver → Option (R2t × Bytes)
  | .loadStat r data => some (r,data)
  | _ => none

/-- The R2T about to be answered is for bytes that there are. -/
def Session.InRange (s : Session) : Prop :=
  ∀ y ∈ s.receiver.loading, y.1.bufferOffset+y.1.desiredLength ≤ y.2.length

instance (s : Session) : Decidable s.InRange :=
  inferInstanceAs (Decidable (∀ y ∈ s.receiver.loading, _ ≤ _))

variable {c digests}

theorem pdu_framing (c : Crc32c) (digests : DigestConfig) :
    Framing (sendPdu c digests) (fun s => (recvPdu c digests s).toOption) Pdu.Framed Pdu.Same where
  extend := by
    intro s p rest h t
    cases hr : recvPdu c digests s with
    | error e =>
      simp only [hr] at h
      cases h
    | ok r =>
      simp only [hr] at h
      cases h
      simp only [recvPdu_extend hr t]
      rfl
  read := by
    intro p hp s
    obtain ⟨q,hq,hsame⟩ := recvPdu_send c digests hp s
    exact ⟨q,by simp only [hq]; rfl,hsame⟩
  empty := rfl

section Framed

variable {s t : Session} {l : Label} {n : NegotiatedParams}

theorem immediateData_framed {p : Pipeline} {data d : Bytes}
    (hb : p.negotiated.firstBurstLength < 2^24) (h : p.immediateData data = some d) :
    d ≠ [] ∧ d.length < 2^24 := by
  have hlen := (Pipeline.immediateData_eq_some h).2
  unfold Pipeline.immediateData at h
  split at h
  · simp only at h
    split at h
    · rename_i hpos
      exact ⟨List.ne_nil_of_length_pos (by omega),by omega⟩
    · cases h
  · cases h

theorem command_framed {p : Pipeline} {x : Command} (hb : p.negotiated.firstBurstLength < 2^24)
    (h : p.Submits x) (itt : Nat) (cmdSn stat : BitVec 32) :
    ((Sender.command x itt).pdu cmdSn stat).Framed := by
  cases h with
  | write w x hw =>
    obtain ⟨_,rfl⟩ := Pipeline.writeCommand_eq_some hw
    cases hd : p.immediateData w.data with
    | none => exact ⟨rfl,rfl⟩
    | some d =>
      obtain ⟨hne,hlt⟩ := immediateData_framed hb hd
      refine ⟨rfl,hne,?_,hlt⟩
      show d.length = (BitVec.ofNat 32 d.length).toNat
      rw [BitVec.toNat_ofNat,Nat.mod_eq_of_lt (by omega)]
  | _ => exact ⟨rfl,rfl⟩

theorem dataOut_framed {r : R2t} {m sent dataSn : Nat} {data : Bytes} {stat : BitVec 32} {p : Pdu}
    (h : r.dataOutPdu m data stat sent dataSn = some p) (hm : 0 < m) (hlt : m < 2^24)
    (hin : r.bufferOffset+r.desiredLength ≤ data.length) (hs : sent < r.desiredLength) :
    p.Framed := by
  simp only [R2t.dataOutPdu,Option.bind_eq_bind,Option.bind_eq_some_iff] at h
  obtain ⟨chunk,hc,hp⟩ := h
  obtain rfl := Option.some.inj hp
  obtain ⟨_,rfl⟩ := slice_eq_some.mp hc
  have hlen : ((data.drop (r.bufferOffset+sent)).take (min (r.bufferOffset+sent+
      min (r.desiredLength-sent) m) data.length-(r.bufferOffset+sent))).length =
        min (r.desiredLength-sent) m := by
    rw [List.length_take,List.length_drop]
    omega
  refine ⟨rfl,List.ne_nil_of_length_pos (by omega),?_,by omega⟩
  show _ = (BitVec.ofNat 32 _).toNat
  rw [BitVec.toNat_ofNat,Nat.mod_eq_of_lt (by omega)]

theorem silent_log (h : SessionStep s l t) (hsent : ∀ k, l ≠ .sent k) (hs : l ≠ .handleSent)
    (hp : l.pdu = none) :
    t.log.filterMap SessionEvent.outbound = s.log.filterMap SessionEvent.outbound ∧
      t.log.filterMap SessionEvent.inbound = s.log.filterMap SessionEvent.inbound := by
  cases h with
  | sentCommand k | sentOther k => exact absurd rfl (hsent k)
  | dataOut | pongSent => exact absurd rfl hs
  | receive => cases hp
  | number k w _ =>
    show (s.takeNumber k w).log.filterMap _ = _ ∧ (s.takeNumber k w).log.filterMap _ = _
    unfold takeNumber
    split
    · simp [observe,SessionEvent.outbound,SessionEvent.inbound]
    · exact ⟨rfl,rfl⟩
  | deliver => simp [observe,SessionEvent.outbound,SessionEvent.inbound]
  | _ => exact ⟨rfl,rfl⟩

theorem wire_log (h : sessionStep s l = some t) :
    t.log.filterMap SessionEvent.outbound = s.log.filterMap SessionEvent.outbound ++
      (if l.fails then none else s.sends l).toList ∧
    t.log.filterMap SessionEvent.inbound = s.log.filterMap SessionEvent.inbound ++ l.pdu.toList := by
  cases l with
  | sent k =>
    simp only [sessionStep,Session.sent] at h
    split at h
    · rename_i hc
      cases h
      simp [setCall,setSlot,observe,SessionEvent.outbound,SessionEvent.inbound,Label.fails,Label.pdu,
        Session.sends,hc,Call.outbound]
    · rename_i hc
      cases h
      simp [setCall,observe,SessionEvent.outbound,SessionEvent.inbound,Label.fails,Label.pdu,
        Session.sends,hc,Call.outbound]
    · cases h
  | handleSent =>
    simp only [sessionStep,handleSent] at h
    split at h
    · rename_i hr
      cases h
      simp [observe,SessionEvent.outbound,SessionEvent.inbound,Label.fails,Label.pdu,Session.sends,hr,
        Receiver.pongOut]
    · rename_i hr
      obtain ⟨q,hq,rfl⟩ := Option.map_eq_some_iff.mp h
      simp [observe,SessionEvent.outbound,SessionEvent.inbound,Label.fails,Label.pdu,Session.sends,hr,
        hq,Receiver.pongOut]
    · cases h
  | receive p =>
    simp only [sessionStep] at h
    split at h
    · cases h
      simp [receive,observe,SessionEvent.outbound,SessionEvent.inbound,Label.fails,Label.pdu,
        Session.sends]
    · cases h
  | _ =>
    obtain ⟨ho,hi⟩ := silent_log (session_step h) (by simp) (by simp) rfl
    simp [ho,hi,Label.fails,Label.pdu,Session.sends]

structure Sendable (s : Session) : Prop where
  pong : ∀ q, s.receiver.pongOut = some q → q.Framed
  range : ∀ r data stat sent dataSn, s.receiver = .dataOut r data stat sent dataSn →
    r.bufferOffset+r.desiredLength ≤ data.length

theorem dispatch_sendable (p : Pdu) : (Receiver.dispatch p).pongOut = none ∧
    ∀ r data stat sent dataSn, Receiver.dispatch p ≠ .dataOut r data stat sent dataSn := by
  unfold Receiver.dispatch
  split
  · exact ⟨rfl,by simp⟩
  · split
    · exact ⟨rfl,by simp⟩
    · split <;> exact ⟨rfl,by simp⟩
  · exact ⟨rfl,by simp⟩
  · split <;> exact ⟨rfl,by simp⟩
  · exact ⟨rfl,by simp⟩

theorem Sendable.step (h : Sendable s) (hin : s.InRange) (hs : sessionStep s l = some t) :
    Sendable t := by
  rcases receiver_step (W := fun _ _ => True) (fun _ _ _ => trivial) hs with
    ⟨_,ha⟩ | ⟨e,b,_,hr,_⟩
  · exact ⟨ha.receiver ▸ h.pong,ha.receiver ▸ h.range⟩
  · obtain ⟨hpong,hrange⟩ := h
    unfold InRange at hin
    generalize s.receiver = x at hr hpong hrange hin
    suffices hy : (∀ q, t.receiver.pongOut = some q → q.Framed) ∧
        ∀ r data stat sent dataSn, t.receiver = .dataOut r data stat sent dataSn →
          r.bufferOffset+r.desiredLength ≤ data.length from ⟨hy.1,hy.2⟩
    generalize t.receiver = y at hr ⊢
    cases hr with
    | receive p =>
      obtain ⟨hp,hd⟩ := dispatch_sendable p
      exact ⟨fun q hq => (by rw [hp] at hq; cases hq),fun _ _ _ _ _ h => absurd h (hd _ _ _ _ _)⟩
    | loaded r data stat =>
      refine ⟨fun q hq => (by cases hq),fun _ _ _ _ _ h => ?_⟩
      cases h
      exact hin (r,data) rfl
    | dataOut r data stat sent dataSn q =>
      refine ⟨fun q hq => (by cases hq),fun _ _ _ _ _ h => ?_⟩
      cases h
      exact hrange r data stat sent dataSn rfl
    | stat ttt cmdSn expStatSn turn =>
      refine ⟨fun q hq => ?_,fun _ _ _ _ _ h => (by cases h)⟩
      cases hq
      exact ⟨rfl,rfl⟩
    | accumulate | free | missed =>
      split <;> exact ⟨fun _ h => (by cases h),fun _ _ _ _ _ h => (by cases h)⟩
    | _ => exact ⟨fun _ h => (by cases h),fun _ _ _ _ _ h => (by cases h)⟩

theorem sends_framed {p : Pdu} (hc : Carries OfPipeline n s) (h : Sendable s)
    (hm : n.maxSegment < 2^24) (hs : s.sends l = some p) : p.Framed := by
  have hcall : ∀ k, (s.calls k).outbound = some p → p.Framed := by
    intro k hk
    unfold Call.outbound at hk
    split at hk
    · rename_i w q turn hw
      cases hk
      obtain ⟨cmdSn,stat,rfl⟩ := hc.built k w p turn hw
      cases w with
      | command x itt =>
        obtain ⟨pipeline,hb,hx⟩ := hc.call k x (by rw [hw]; rfl)
        exact command_framed hb hx itt cmdSn stat
      | nop | logout => exact ⟨rfl,rfl⟩
    · cases hk
  have hreceiver : s.receiver.pongOut.or s.nextDataOut = some p → p.Framed := by
    intro hp
    rcases Option.or_eq_some_iff.mp hp with hp | ⟨_,hp⟩
    · exact h.pong p hp
    · unfold nextDataOut at hp
      split at hp
      · rename_i r data stat sent dataSn hr
        split at hp
        · rename_i hlt
          rw [hc.negotiated] at hp
          exact dataOut_framed hp (maxSegment_pos n) hm (h.range r data stat sent dataSn hr) hlt
        · cases hp
      · cases hp
  cases l with
  | sent k | sendFailed k => exact hcall k hs
  | handleSent | handleFailed => exact hreceiver hs
  | _ => cases hs

end Framed

structure Connection.Faithful (c : Crc32c) (digests : DigestConfig) (n : NegotiatedParams)
    (s : Connection) : Prop where
  carries : Carries OfPipeline n s.session
  sendable : Sendable s.session
  framed : ∀ p ∈ s.session.log.filterMap SessionEvent.outbound, p.Framed
  outgoing : s.outgoing =
    (s.session.log.filterMap SessionEvent.outbound).flatMap (sendPdu c digests)

section Run

variable {s t : Connection} {l : ConnectionLabel} {n : NegotiatedParams}

theorem connection_cases (h : connectionStep c digests s l = some t) :
    (∃ b, l = .arrive b ∧ t = { s with incoming := s.incoming ++ b }) ∨
    (∃ p rest u, l = .recv ∧ (recvPdu c digests s.incoming).toOption = some (p,rest) ∧
      sessionStep s.session (.receive p) = some u ∧
      t = { s with session := u, incoming := rest }) ∨
    ∃ m cut u, l = .session m cut ∧ m.pdu = none ∧ sessionStep s.session m = some u ∧
      t = { s with session := u, outgoing := s.outgoing ++ s.written c digests m cut } := by
  cases l with
  | arrive b =>
    cases h
    exact Or.inl ⟨b,rfl,rfl⟩
  | recv =>
    obtain ⟨⟨p,rest⟩,hp,h⟩ := Option.bind_eq_some_iff.mp h
    obtain ⟨u,hu,rfl⟩ := Option.map_eq_some_iff.mp h
    exact Or.inr (Or.inl ⟨p,rest,u,rfl,hp,hu,rfl⟩)
  | session m cut =>
    simp only [connectionStep] at h
    split at h
    · cases h
    · rename_i hm
      obtain ⟨u,hu,rfl⟩ := Option.map_eq_some_iff.mp h
      exact Or.inr (Or.inr ⟨m,cut,u,rfl,Option.not_isSome_iff_eq_none.mp hm,hu,rfl⟩)

theorem Connection.Faithful.step (h : s.Faithful c digests n) (hm : n.maxSegment < 2^24)
    (hl : l.Proper) (hin : s.session.InRange) (hs : connectionStep c digests s l = some t) :
    t.Faithful c digests n := by
  rcases connection_cases hs with ⟨b,rfl,rfl⟩ | ⟨p,rest,u,rfl,_,hu,rfl⟩ |
      ⟨m,cut,u,rfl,hp,hu,rfl⟩
  · exact ⟨h.carries,h.sendable,h.framed,h.outgoing⟩
  · have hlog := (wire_log hu).1
    rw [show (Label.receive p).fails = false from rfl] at hlog
    have hlog : u.log.filterMap SessionEvent.outbound =
        s.session.log.filterMap SessionEvent.outbound := hlog.trans (List.append_nil _)
    exact ⟨carries_step (l := .receive p) h.carries trivial hu,h.sendable.step hin hu,
      fun q hq => h.framed q (hlog ▸ hq),h.outgoing.trans (by rw [hlog])⟩
  · obtain ⟨hfails,hsub⟩ := hl
    have hlog := (wire_log hu).1
    simp only [hfails,Bool.false_eq_true,if_false] at hlog
    refine ⟨carries_step h.carries hsub hu,h.sendable.step hin hu,fun q hq => ?_,?_⟩
    · rw [hlog] at hq
      rcases List.mem_append.mp hq with hq | hq
      · exact h.framed q hq
      · exact sends_framed h.carries h.sendable hm (Option.mem_toList.mp hq)
    · show s.outgoing ++ s.written c digests m cut = _
      rw [hlog,List.flatMap_append,h.outgoing,Connection.written,hfails]
      cases s.session.sends m <;> simp

theorem Connection.Faithful.new (c : Crc32c) (digests : DigestConfig) (init stat : BitVec 32)
    (n : NegotiatedParams) : (Connection.new init stat n).Faithful c digests n where
  carries := carries_start OfPipeline n init stat
  sendable := ⟨fun _ h => (by cases h),fun _ _ _ _ _ h => (by cases h)⟩
  framed := fun _ h => by cases h
  outgoing := rfl

theorem reading_step {ps : List Pdu} {rest : Bytes} (hps : ∀ p ∈ ps, p.Framed)
    (h : Framing.Reading (sendPdu c digests) Pdu.Same ps
      (s.session.log.filterMap SessionEvent.inbound) s.incoming (l.bytes ++ rest))
    (hs : connectionStep c digests s l = some t) :
    Framing.Reading (sendPdu c digests) Pdu.Same ps
      (t.session.log.filterMap SessionEvent.inbound) t.incoming rest := by
  rcases connection_cases hs with ⟨b,rfl,rfl⟩ | ⟨p,rest',u,rfl,hr,hu,rfl⟩ |
      ⟨m,cut,u,rfl,hp,hu,rfl⟩
  · exact h.arrive
  · show Framing.Reading _ _ _ (u.log.filterMap _) rest' rest
    rw [(wire_log hu).2]
    exact Framing.Reading.receive (pdu_framing c digests) hps h hr
  · show Framing.Reading _ _ _ (u.log.filterMap _) s.incoming rest
    rw [(wire_log hu).2,hp]
    simpa [ConnectionLabel.bytes] using h

theorem reading_run {init stat : BitVec 32} {ls : List ConnectionLabel} {ps : List Pdu}
    (hps : ∀ p ∈ ps, p.Framed)
    (hr : Machine.run (connectionStep c digests) (.new init stat n) ls = some t) (rest : Bytes)
    (harrive : ls.flatMap ConnectionLabel.bytes ++ rest = ps.flatMap (sendPdu c digests)) :
    Framing.Reading (sendPdu c digests) Pdu.Same ps
      (t.session.log.filterMap SessionEvent.inbound) t.incoming rest := by
  refine Machine.run_history (P := fun ls t => ∀ rest,
    ls.flatMap ConnectionLabel.bytes ++ rest = ps.flatMap (sendPdu c digests) →
      Framing.Reading (sendPdu c digests) Pdu.Same ps
        (t.session.log.filterMap SessionEvent.inbound) t.incoming rest)
    (fun ls l s u _ ih hs rest hrest => ?_) (fun rest hrest => ?_) hr rest harrive
  · refine reading_step hps (ih _ ?_) hs
    rw [← hrest]
    simp
  · obtain rfl : rest = _ := hrest
    exact .start _ ps

theorem connection_session {init stat : BitVec 32} {ls : List ConnectionLabel}
    (hr : Machine.run (connectionStep c digests) (.new init stat n) ls = some t) :
    ∃ ms, Machine.run sessionStep (Session.start init stat n) ms = some t.session := by
  have hmeets : Machine.Meets (connectionStep c digests) (fun _ _ => True) (.new init stat n) ls :=
    Machine.meets_of_forall (fun _ _ _ => trivial)
  have hrun : ∃ ms, Machine.run sessionStep (Session.start init stat n) ms = some t.session ∧
      Machine.Meets sessionStep (fun _ _ => True) (Session.start init stat n) ms := by
    refine (Machine.run_refines (I := fun _ => True) (f := Connection.session)
      (fun s l u _ _ hs => ⟨trivial,?_⟩) trivial hmeets hr).2
    rcases connection_cases hs with ⟨b,rfl,rfl⟩ | ⟨p,rest,w,rfl,_,hw,rfl⟩ |
        ⟨m,cut,w,rfl,_,hw,rfl⟩
    · exact Or.inl rfl
    · exact Or.inr ⟨_,trivial,hw⟩
    · exact Or.inr ⟨_,trivial,hw⟩
  obtain ⟨ms,hms,_⟩ := hrun
  exact ⟨ms,hms⟩

end Run

/-- However the target's bytes arrive, the session takes steps of its own and receives the
target's PDUs in order, each one whole; and what it sends is what the target reads. -/
theorem connection_faithful {init stat : BitVec 32} {n : NegotiatedParams}
    {ls : List ConnectionLabel} {ps : List Pdu} {rest : Bytes} {t : Connection}
    (hm : n.maxSegment < 2^24) (hps : ∀ p ∈ ps, p.Framed)
    (harrive : ls.flatMap ConnectionLabel.bytes ++ rest = ps.flatMap (sendPdu c digests))
    (hl : ∀ l ∈ ls, l.Proper)
    (hin : Machine.Meets (connectionStep c digests) (fun s _ => s.session.InRange)
      (.new init stat n) ls)
    (hr : Machine.run (connectionStep c digests) (.new init stat n) ls = some t) :
    (∃ ms, Machine.run sessionStep (Session.start init stat n) ms = some t.session) ∧
    (∃ done, done <+: ps ∧
      List.Forall₂ Pdu.Same done (t.session.log.filterMap SessionEvent.inbound)) ∧
    (rest = [] → (recvPdu c digests t.incoming).toOption = none →
      List.Forall₂ Pdu.Same ps (t.session.log.filterMap SessionEvent.inbound)) ∧
    ∃ qs, recvPdus c digests (t.session.log.filterMap SessionEvent.outbound).length t.outgoing =
        .ok (qs,[]) ∧
      List.Forall₂ Pdu.Same (t.session.log.filterMap SessionEvent.outbound) qs := by
  have hread := reading_run hps hr rest harrive
  have hfaith : t.Faithful c digests n := Machine.invariant
    (fun s l u h hok hs => h.step hm hok.2 hok.1 hs) (.new c digests init stat n)
    (Machine.meets_and hin (Machine.meets_of_forall (fun l hmem _ => hl l hmem))) hr
  refine ⟨connection_session hr,hread.got_prefix,fun hrest hwait => ?_,?_⟩
  · subst hrest
    exact hread.complete (pdu_framing c digests) hps hwait
  · have hs := recvPdus_send c digests _ hfaith.framed []
    rwa [List.append_nil,← List.flatMap_def,← hfaith.outgoing] at hs

/-- The R2T for a write arrives in two pieces. -/
def splitR2t : List ConnectionLabel :=
  (Label.prepare 0 (writeBlock [1,2]) ++ Label.transmit 0 ++ [Label.advance 0]).map
    (ConnectionLabel.session · 0) ++
    [.arrive ((sendPdu .castagnoli ⟨false,false⟩ (readyToTransfer 0 7 0 2)).take 20),
      .arrive ((sendPdu .castagnoli ⟨false,false⟩ (readyToTransfer 0 7 0 2)).drop 20),.recv,
      .session .handle 0,.session .handle 0,.session .handleSent 0]

def tinyPipeline : Pipeline := ⟨0,2,16,{ NegotiatedParams.defaults10g with immediateData := false }⟩

theorem connection_faithful_write : ∃ t,
    Machine.run (connectionStep .castagnoli ⟨false,false⟩) (.new 5 0 .defaults10g) splitR2t =
      some t ∧
    List.Forall₂ Pdu.Same [readyToTransfer 0 7 0 2]
      (t.session.log.filterMap SessionEvent.inbound) ∧
    ∃ qs, recvPdus .castagnoli ⟨false,false⟩ 2 t.outgoing = .ok (qs,[]) ∧
      List.Forall₂ Pdu.Same (t.session.log.filterMap SessionEvent.outbound) qs := by
  have hrun : ∃ t, Machine.run (connectionStep .castagnoli ⟨false,false⟩) (.new 5 0 .defaults10g)
      splitR2t = some t ∧ t.incoming = [] ∧
      (t.session.log.filterMap SessionEvent.outbound).length = 2 := ⟨_,rfl,rfl,rfl⟩
  obtain ⟨t,hr,hwait,hlen⟩ := hrun
  have hframed : ∀ p ∈ [readyToTransfer 0 7 0 2], p.Framed := by
    intro p hp
    rw [List.mem_singleton.mp hp]
    exact ⟨rfl,rfl⟩
  have harrive : splitR2t.flatMap ConnectionLabel.bytes ++ [] =
      [readyToTransfer 0 7 0 2].flatMap (sendPdu .castagnoli ⟨false,false⟩) := by
    rw [List.append_nil,List.flatMap_singleton]
    exact List.take_append_drop 20 _
  have hproper : ∀ l ∈ splitR2t, l.Proper := by
    have hpipeline : OfPipeline 0 (writeBlock [1,2]) :=
      ⟨tinyPipeline,by decide,.write ⟨9,1,[1,2]⟩ _ rfl⟩
    have hsent : ∀ m ∈ Label.prepare 0 (writeBlock [1,2]) ++ Label.transmit 0, m.fails = false := by
      decide
    intro l hl
    rcases List.mem_append.mp hl with hl | hl
    · obtain ⟨m,hm,rfl⟩ := List.mem_map.mp hl
      rcases List.mem_append.mp hm with hm | hm
      · exact ⟨hsent m hm,submitted_alone (Q := OfPipeline) hpipeline m hm⟩
      · rw [List.mem_singleton.mp hm]
        exact ⟨rfl,trivial⟩
    · simp only [List.mem_cons,List.not_mem_nil,or_false] at hl
      rcases hl with rfl | rfl | rfl | rfl | rfl | rfl <;> trivial
  have hin : Machine.Meets (connectionStep .castagnoli ⟨false,false⟩)
      (fun s _ => s.session.InRange) (.new 5 0 .defaults10g) splitR2t :=
    Machine.meets_of_check (by decide +kernel)
  obtain ⟨_,_,hall,hout⟩ := connection_faithful (by decide) hframed harrive hproper hin hr
  rw [hlen] at hout
  exact ⟨t,hr,hall rfl (by rw [hwait]; rfl),hout⟩

end IscsiFuse.Iscsi
