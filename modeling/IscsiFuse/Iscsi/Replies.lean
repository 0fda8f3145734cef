import IscsiFuse.Iscsi.Burst
set_option autoImplicit false

/-!
What the receiver task sends by itself. It serves the PDUs one by one: a ping gets its NOP-Out
and an R2T its Data-Outs before the next PDU is received.
-/

namespace IscsiFuse.Iscsi
open Session

def Pdu.isPing (p : Pdu) : Bool := p.bhs.opcode = .nopIn && p.bhs.ttt ≠ 0xFFFFFFFF

def SentUnder (log : List SessionEvent) (itt : Nat) (data : Bytes) : Prop :=
  ∃ k c p, SessionEvent.sent (some k) (.command c itt) p ∈ log ∧ c.writeData = some data

namespace Session

def misses (s : Session) : Label → Bool
  | .handle => match s.receiver with
    | .lookup r _ => (s.pool.writeData r.itt).isNone
    | _ => false
  | _ => false

/-- Before or after some step of the run, the data of a write that went out under the tag are
registered. -/
def Finds (s : Session) (ls : List Label) (itt : Nat) (data : Bytes) : Prop :=
  ∃ ms u w, ms <+: ls ∧ Machine.run sessionStep s ms = some u ∧ u.pool.writeData itt = some w ∧
    w.data = data ∧ SentUnder u.log itt data

end Session

/-- What the receiver sends for a PDU that it received in `s`, when it has served it by `ls`. -/
inductive Replies (s : Session) (ls : List Label) (p : Pdu) : List Pdu → Prop
  | nothing : p.bhs.opcode ≠ .r2t → p.isPing = false → Replies s ls p []
  | pong (cmdSn expStatSn : BitVec 32) : p.isPing = true →
      Replies s ls p [(Sender.nop p.bhs.ttt).pdu cmdSn expStatSn]
  | unregistered : p.bhs.opcode = .r2t → Machine.count sessionStep misses s ls = 50 →
      Replies s ls p []
  | answer (data : Bytes) (qs : List Pdu) : p.bhs.opcode = .r2t → s.Finds ls p.itt data →
      DataOuts p s.negotiated.maxSegment data p.bhs.r2tDesiredLength.toNat qs → Replies s ls p qs

/-- The PDUs that the receiver received, and those that it sent. -/
def SessionEvent.ofReceiver : SessionEvent → Option (Pdu ⊕ Pdu)
  | .received _ p => some (.inl p)
  | .dataOut q | .sent none _ q => some (.inr q)
  | _ => none

/-- The replies are under way, or the receiver ended in the middle of them. -/
def Begins (s : Session) (ls : List Label) (p : Pdu) (qs : List Pdu) : Prop :=
  qs = [] ∨ ∃ data sent, p.bhs.opcode = .r2t ∧ s.Finds ls p.itt data ∧
    DataOuts p s.negotiated.maxSegment data sent qs

/-- A step of the receiver, with what it receives or sends and whether it misses the data of an
R2T; `W` are the data that it can find under a tag. -/
inductive ReceiverStep (m : Nat) (W : Nat → Bytes → Prop) :
    Receiver → Option (Pdu ⊕ Pdu) → Bool → Receiver → Prop
  | receive (p : Pdu) : ReceiverStep m W .idle (some (.inl p)) false (.dispatch p)
  | accumulate (p : Pdu) (data : Bytes) : ReceiverStep m W (.accumulate p data) none false
      (if p.bhs.statusFlag then .takeData p else .idle)
  | takeData (p : Pdu) (r : PduResponse) :
      ReceiverStep m W (.takeData p) none false (.takeSender p r)
  | takeSender (p : Pdu) (r : PduResponse) (tx : Option Nat) :
      ReceiverStep m W (.takeSender p r) none false (.deliver p r tx)
  | deliver (p : Pdu) (r : PduResponse) (tx : Option Nat) :
      ReceiverStep m W (.deliver p r tx) none false (.free p)
  | free (p : Pdu) : ReceiverStep m W (.free p) none false
      (if p.bhs.opcode = .scsiResponse then .removeWriteData p.itt else .idle)
  | removed (itt : Nat) : ReceiverStep m W (.removeWriteData itt) none false .idle
  | found (r : R2t) (tries : Nat) (data : Bytes) : W r.itt data →
      ReceiverStep m W (.lookup r tries) none false (.loadStat r data)
  | missed (r : R2t) (tries : Nat) : ReceiverStep m W (.lookup r tries) none true
      (if tries ≤ 1 then .idle else .lookup r (tries-1))
  | loaded (r : R2t) (data : Bytes) (stat : BitVec 32) :
      ReceiverStep m W (.loadStat r data) none false (.dataOut r data stat 0 0)
  | dataOut (r : R2t) (data : Bytes) (stat : BitVec 32) (sent dataSn : Nat) (q : Pdu) :
      sent < r.desiredLength → r.dataOutPdu m data stat sent dataSn = some q →
      ReceiverStep m W (.dataOut r data stat sent dataSn) (some (.inr q)) false
        (.dataOut r data stat (sent+min (r.desiredLength-sent) m) (dataSn+1))
  | sentAll (r : R2t) (data : Bytes) (stat : BitVec 32) (sent dataSn : Nat) :
      r.desiredLength ≤ sent → ReceiverStep m W (.dataOut r data stat sent dataSn) none false .idle
  | number (ttt cmdSn : BitVec 32) (turn : Nat) :
      ReceiverStep m W (.pong ttt .number) none false (.pong ttt (.stat cmdSn turn))
  | stat (ttt cmdSn expStatSn : BitVec 32) (turn : Nat) :
      ReceiverStep m W (.pong ttt (.stat cmdSn turn)) none false
        (.pong ttt (.send ((Sender.nop ttt).pdu cmdSn expStatSn) turn))
  | pong (ttt : BitVec 32) (q : Pdu) (turn : Nat) :
      ReceiverStep m W (.pong ttt (.send q turn)) (some (.inr q)) false .idle
  | stop (x : Receiver) : x.mayStop = true → ReceiverStep m W x none false .stopped

variable {s t : Session} {W : Nat → Bytes → Prop}

theorem takeNumber_receiver (s : Session) (k : Nat) (w : Sender) :
    (s.takeNumber k w).log.filterMap SessionEvent.ofReceiver =
      s.log.filterMap SessionEvent.ofReceiver ∧ (s.takeNumber k w).negotiated = s.negotiated := by
  unfold takeNumber
  split
  · exact ⟨by simp [observe,SessionEvent.ofReceiver],rfl⟩
  · exact ⟨rfl,rfl⟩

theorem handle_receiver (hw : ∀ i d, s.pool.writeData i = some d → W i d.data)
    (h : s.handle = some t) :
    ∃ b, s.misses .handle = b ∧
      ReceiverStep s.negotiated.maxSegment W s.receiver none b t.receiver ∧
      t.log.filterMap SessionEvent.ofReceiver = s.log.filterMap SessionEvent.ofReceiver ∧
      t.negotiated = s.negotiated := by
  unfold handle at h
  split at h
  · rename_i p data hr
    cases h
    exact ⟨false,by rw [misses,hr],hr ▸ .accumulate p data,rfl,rfl⟩
  · rename_i p hr
    cases h
    exact ⟨false,by rw [misses,hr],hr ▸ .takeData p _,rfl,rfl⟩
  · rename_i p r hr
    split at h
    · cases h
      exact ⟨false,by rw [misses,hr],hr ▸ .takeSender p r _,rfl,rfl⟩
    · rename_i hi
      cases h
      refine ⟨false,by rw [misses,hr],.stop _ ?_,rfl,rfl⟩
      rw [hr]
      simpa [Receiver.mayStop] using hi
  · rename_i p r tx hr
    have hm : s.misses .handle = false := by rw [misses,hr]
    have hd : ReceiverStep s.negotiated.maxSegment W s.receiver none false (.free p) :=
      hr ▸ .deliver p r tx
    cases tx with
    | none =>
      cases h
      exact ⟨false,hm,hd,rfl,rfl⟩
    | some k =>
      simp only at h
      split at h
      · cases h
        exact ⟨false,hm,hd,rfl,rfl⟩
      · cases h
        exact ⟨false,hm,hd,by simp [observe,SessionEvent.ofReceiver],rfl⟩
  · rename_i p hr
    cases h
    exact ⟨false,by rw [misses,hr],hr ▸ .free p,rfl,rfl⟩
  · rename_i itt hr
    cases h
    exact ⟨false,by rw [misses,hr],hr ▸ .removed itt,rfl,rfl⟩
  · rename_i r tries hr
    split at h
    · rename_i d hd
      cases h
      exact ⟨false,by simp only [misses,hr,hd,Option.isNone_some],
        hr ▸ .found r tries d.data (hw r.itt d hd),rfl,rfl⟩
    · rename_i hd
      cases h
      exact ⟨true,by simp only [misses,hr,hd,Option.isNone_none],hr ▸ .missed r tries,rfl,rfl⟩
  · rename_i r data hr
    cases h
    exact ⟨false,by rw [misses,hr],hr ▸ .loaded r data _,rfl,rfl⟩
  · rename_i r data stat sent dataSn hr
    split at h
    · split at h
      · cases h
      · cases h
        exact ⟨false,by rw [misses,hr],.stop _ (by rw [hr]; rfl),rfl,rfl⟩
    · rename_i hlt
      cases h
      exact ⟨false,by rw [misses,hr],hr ▸ .sentAll r data stat sent dataSn (not_lt.mp hlt),rfl,rfl⟩
  · rename_i ttt hr
    cases h
    exact ⟨false,by rw [misses,hr],hr ▸ .number ttt _ _,rfl,rfl⟩
  · rename_i ttt cmdSn turn hr
    cases h
    exact ⟨false,by rw [misses,hr],hr ▸ .stat ttt cmdSn _ turn,rfl,rfl⟩
  · cases h

theorem handleSent_receiver (h : s.handleSent = some t) :
    ∃ q, ReceiverStep s.negotiated.maxSegment W s.receiver (some (.inr q)) false t.receiver ∧
      t.log.filterMap SessionEvent.ofReceiver =
        s.log.filterMap SessionEvent.ofReceiver ++ [.inr q] ∧ t.negotiated = s.negotiated := by
  unfold handleSent at h
  split at h
  · rename_i ttt q turn hr
    cases h
    exact ⟨q,hr ▸ .pong ttt q turn,by simp [observe,SessionEvent.ofReceiver],rfl⟩
  · rename_i r data stat sent dataSn hr
    obtain ⟨q,hq,rfl⟩ := Option.map_eq_some_iff.mp h
    unfold nextDataOut at hq
    rw [hr] at hq
    simp only at hq
    split at hq
    · rename_i hlt
      exact ⟨q,hr ▸ .dataOut r data stat sent dataSn q hlt hq,
        by simp [observe,SessionEvent.ofReceiver],rfl⟩
    · cases hq
  · cases h

structure WithoutReceiver (s t : Session) : Prop where
  receiver : t.receiver = s.receiver
  log : t.log.filterMap SessionEvent.ofReceiver = s.log.filterMap SessionEvent.ofReceiver
  negotiated : t.negotiated = s.negotiated

theorem advance_withoutReceiver {k : Nat} (h : s.advance k = some t) : WithoutReceiver s t := by
  unfold advance at h
  split at h
  · cases h
    exact ⟨rfl,rfl,rfl⟩
  · cases h
    exact ⟨rfl,rfl,rfl⟩
  · cases h
    exact ⟨rfl,rfl,rfl⟩
  · simp only at h
    split at h
    · split at h <;> cases h <;> exact ⟨rfl,rfl,rfl⟩
    · cases h
      exact ⟨rfl,rfl,rfl⟩
  · cases h
    exact ⟨rfl,rfl,rfl⟩
  · rename_i w _
    cases h
    obtain ⟨hl,hn⟩ := takeNumber_receiver s k w
    exact ⟨(takeNumber_tables s k w).2.2.1,hl,hn⟩
  · cases h
    exact ⟨rfl,rfl,rfl⟩
  · cases h
    exact ⟨rfl,rfl,rfl⟩
  · cases h

theorem sent_withoutReceiver {k : Nat} (h : s.sent k = some t) : WithoutReceiver s t := by
  unfold Session.sent at h
  split at h
  · cases h
    exact ⟨rfl,by simp [setCall,setSlot,observe,SessionEvent.ofReceiver],rfl⟩
  · cases h
    exact ⟨rfl,by simp [setCall,observe,SessionEvent.ofReceiver],rfl⟩
  · cases h

theorem receiver_step (hw : ∀ i d, s.pool.writeData i = some d → W i d.data) {l : Label}
    (h : sessionStep s l = some t) : (s.misses l = false ∧ WithoutReceiver s t) ∨
    ∃ e b, s.misses l = b ∧ ReceiverStep s.negotiated.maxSegment W s.receiver e b t.receiver ∧
      t.log.filterMap SessionEvent.ofReceiver =
        s.log.filterMap SessionEvent.ofReceiver ++ e.toList ∧ t.negotiated = s.negotiated ∧
      ∀ p, e = some (.inl p) → l = .receive p := by
  cases l with
  | advance k => exact Or.inl ⟨rfl,advance_withoutReceiver h⟩
  | sent k => exact Or.inl ⟨rfl,sent_withoutReceiver h⟩
  | submit k | nopOut k | logout k =>
    simp only [sessionStep] at h
    split at h <;> cases h
    exact Or.inl ⟨rfl,rfl,rfl,rfl⟩
  | casFailed k =>
    simp only [sessionStep] at h
    split at h
    · split at h <;> cases h
      exact Or.inl ⟨rfl,rfl,rfl,rfl⟩
    · cases h
  | sendFailed k | finish k =>
    simp only [sessionStep] at h
    split at h <;> cases h
    exact Or.inl ⟨rfl,rfl,rfl,rfl⟩
  | receive p =>
    simp only [sessionStep] at h
    split at h
    · rename_i hr
      cases h
      exact Or.inr ⟨some (.inl p),false,rfl,hr ▸ .receive p,
        by simp [receive,observe,SessionEvent.ofReceiver],rfl,fun _ h => by cases h; rfl⟩
    · cases h
  | handle =>
    obtain ⟨b,hb,hs,hl,hn⟩ := handle_receiver hw h
    exact Or.inr ⟨none,b,hb,hs,by simp [hl],hn,by simp⟩
  | handleSent =>
    obtain ⟨q,hs,hl,hn⟩ := handleSent_receiver h
    exact Or.inr ⟨some (.inr q),false,rfl,hs,hl,hn,by simp⟩
  | handleFailed =>
    simp only [sessionStep,handleFailed] at h
    split at h
    · rename_i hr
      cases h
      exact Or.inr ⟨none,false,rfl,.stop _ (by rw [hr]; rfl),by simp,rfl,by simp⟩
    · rename_i hr
      obtain ⟨q,_,rfl⟩ := Option.map_eq_some_iff.mp h
      exact Or.inr ⟨none,false,rfl,.stop _ (by rw [hr]; rfl),by simp,rfl,by simp⟩
    · cases h

/-- What the receiver has sent for the PDU that it received in `s`, after the labels `ls`. -/
def Receiver.Serves (s : Session) (ls : List Label) (p : Pdu) (qs : List Pdu) : Receiver → Prop
  | .idle => Replies s ls p qs
  | .lookup r tries => p.bhs.opcode = .r2t ∧ r = p.toR2t ∧ qs = [] ∧ 0 < tries ∧
      Machine.count sessionStep misses s ls+tries = 50
  | .loadStat r data => p.bhs.opcode = .r2t ∧ r = p.toR2t ∧ qs = [] ∧ s.Finds ls p.itt data
  | .dataOut r data _ sent dataSn => p.bhs.opcode = .r2t ∧ r = p.toR2t ∧ dataSn = qs.length ∧
      s.Finds ls p.itt data ∧ DataOuts p s.negotiated.maxSegment data sent qs
  | .pong ttt n => p.isPing = true ∧ ttt = p.bhs.ttt ∧ qs = [] ∧ ∀ q turn, n = .send q turn →
      ∃ cmdSn expStatSn, q = (Sender.nop ttt).pdu cmdSn expStatSn
  | .stopped => Begins s ls p qs
  | _ => qs = [] ∧ p.bhs.opcode ≠ .r2t ∧ p.isPing = false

section Serves

variable {ls : List Label} {p : Pdu} {qs : List Pdu} {x : Receiver}

theorem serves_begins (h : x.Serves s ls p qs) (hx : x ≠ .idle) : Begins s ls p qs := by
  cases x with
  | idle => exact absurd rfl hx
  | lookup | loadStat | pong => exact Or.inl h.2.2.1
  | dataOut r data stat sent dataSn => exact Or.inr ⟨data,sent,h.1,h.2.2.2⟩
  | stopped => exact h
  | accumulate | takeData | takeSender | deliver | free | removeWriteData => exact Or.inl h.1

theorem serves_dispatch (s : Session) (p : Pdu) : (Receiver.dispatch p).Serves s [] p [] := by
  have hquiet : ∀ o, p.bhs.opcode = o → o ≠ .r2t → o ≠ .nopIn →
      p.bhs.opcode ≠ .r2t ∧ p.isPing = false := by
    intro o ho hr hn
    exact ⟨ho ▸ hr,by simp [Pdu.isPing,ho,hn]⟩
  unfold Receiver.dispatch
  split
  · rename_i ho
    exact ⟨rfl,hquiet _ ho (by simp) (by simp)⟩
  · rename_i ho
    have hq := hquiet _ ho (by simp) (by simp)
    split
    · exact ⟨rfl,hq⟩
    · split
      · exact ⟨rfl,hq⟩
      · exact .nothing hq.1 hq.2
  · rename_i ho
    exact ⟨ho,rfl,rfl,by decide,rfl⟩
  · rename_i ho
    split
    · rename_i ht
      exact ⟨by simpa [Pdu.isPing,ho] using ht,rfl,rfl,fun _ _ h => by cases h⟩
    · rename_i ht
      exact .nothing (by rw [ho]; simp) (by simp [Pdu.isPing,not_not.mp ht])
  · rename_i h₁ h₂ h₃ h₄
    have hq := hquiet _ rfl h₃ h₄
    exact .nothing hq.1 hq.2

theorem Session.Finds.mono {itt : Nat} {data : Bytes} (h : s.Finds ls itt data) (l : Label) :
    s.Finds (ls ++ [l]) itt data := by
  obtain ⟨ms,u,w,hm,hf⟩ := h
  exact ⟨ms,u,w,hm.trans (List.prefix_append ls [l]),hf⟩

theorem Receiver.Serves.mono {l : Label} (h : x.Serves s ls p qs)
    (hc : Machine.count sessionStep misses s (ls ++ [l]) =
      Machine.count sessionStep misses s ls) : x.Serves s (ls ++ [l]) p qs := by
  cases x with
  | idle =>
    cases h with
    | nothing ho hp => exact .nothing ho hp
    | pong cmdSn expStatSn hp => exact .pong cmdSn expStatSn hp
    | unregistered ho hn => exact .unregistered ho (hc.trans hn)
    | answer data qs ho hf hd => exact .answer data qs ho (hf.mono l) hd
  | lookup r tries =>
    show _ ∧ _ ∧ _ ∧ _ ∧ Machine.count sessionStep misses s (ls ++ [l])+tries = 50
    rw [hc]
    exact h
  | loadStat r data => exact ⟨h.1,h.2.1,h.2.2.1,h.2.2.2.mono l⟩
  | dataOut r data stat sent dataSn =>
    exact ⟨h.1,h.2.1,h.2.2.1,h.2.2.2.1.mono l,h.2.2.2.2⟩
  | stopped =>
    rcases h with h | ⟨data,sent,ho,hf,hd⟩
    · exact Or.inl h
    · exact Or.inr ⟨data,sent,ho,hf.mono l,hd⟩
  | _ => exact h

theorem serves_step {y : Receiver} {e : Option (Pdu ⊕ Pdu)} {b : Bool} {l : Label}
    (h : x.Serves s ls p qs) (hx : x ≠ .idle)
    (hs : ReceiverStep s.negotiated.maxSegment (s.Finds ls) x e b y)
    (hc : Machine.count sessionStep misses s (ls ++ [l]) =
      Machine.count sessionStep misses s ls+(if b then 1 else 0)) :
    (e = none ∧ y.Serves s (ls ++ [l]) p qs) ∨
      ∃ q, e = some (.inr q) ∧ y.Serves s (ls ++ [l]) p (qs ++ [q]) := by
  cases hs with
  | receive => exact absurd rfl hx
  | accumulate | free =>
    refine Or.inl ⟨rfl,?_⟩
    obtain ⟨rfl,ho,hp⟩ := h
    split
    · exact ⟨rfl,ho,hp⟩
    · exact .nothing ho hp
  | takeData | takeSender | deliver => exact Or.inl ⟨rfl,h⟩
  | removed => exact Or.inl ⟨rfl,h.1 ▸ .nothing h.2.1 h.2.2⟩
  | found r tries data hf =>
    obtain ⟨ho,rfl,hq,_⟩ := h
    exact Or.inl ⟨rfl,ho,rfl,hq,hf.mono l⟩
  | missed r tries =>
    obtain ⟨ho,hr,rfl,hpos,hn⟩ := h
    rw [if_pos rfl] at hc
    refine Or.inl ⟨rfl,?_⟩
    split
    · exact .unregistered ho (by omega)
    · exact ⟨ho,hr,rfl,by omega,by omega⟩
  | loaded r data stat =>
    obtain ⟨ho,hr,rfl,hf⟩ := h
    exact Or.inl ⟨rfl,ho,hr,rfl,hf.mono l,.start p data (maxSegment_pos _)⟩
  | dataOut r data stat sent dataSn q hlt hq =>
    obtain ⟨ho,rfl,rfl,hf,hd⟩ := h
    exact Or.inr ⟨q,rfl,ho,rfl,by simp,hf.mono l,hd.next hlt hq⟩
  | sentAll r data stat sent dataSn hle =>
    obtain ⟨ho,rfl,_,hf,hd⟩ := h
    have hsent : sent = p.bhs.r2tDesiredLength.toNat :=
      Nat.le_antisymm (hd.covered.trans_le (Nat.min_le_left _ _)) hle
    exact Or.inl ⟨rfl,.answer data qs ho (hf.mono l) (hsent ▸ hd)⟩
  | number => exact Or.inl ⟨rfl,h.1,h.2.1,h.2.2.1,fun _ _ h => by cases h⟩
  | stat ttt cmdSn expStatSn turn =>
    refine Or.inl ⟨rfl,h.1,h.2.1,h.2.2.1,fun _ _ h => ?_⟩
    cases h
    exact ⟨cmdSn,expStatSn,rfl⟩
  | pong ttt q turn =>
    obtain ⟨hp,rfl,rfl,hq⟩ := h
    obtain ⟨cmdSn,expStatSn,rfl⟩ := hq q turn rfl
    exact Or.inr ⟨_,rfl,.pong cmdSn expStatSn hp⟩
  | stop _ _ =>
    refine Or.inl ⟨rfl,?_⟩
    rcases serves_begins h hx with hq | ⟨data,sent,ho,hf,hd⟩
    · exact Or.inl hq
    · exact Or.inr ⟨data,sent,ho,hf.mono l,hd⟩

end Serves

/-- What is registered under a tag, or about to be, went out under it. -/
structure Stocked (s : Session) : Prop where
  entry : ∀ i d, s.pool.writeData i = some d → SentUnder s.log i d.data
  registering : ∀ k i data, s.calls k = .register i data → SentUnder s.log i data

theorem SentUnder.mono {l l' : List SessionEvent} {i : Nat} {data : Bytes} (h : SentUnder l i data)
    (hl : l ⊆ l') : SentUnder l' i data := by
  obtain ⟨k,c,p,hm,hd⟩ := h
  exact ⟨k,c,p,hl hm,hd⟩

theorem log_subset {l : Label} (hs : SessionStep s l t) : s.log ⊆ t.log := by
  cases hs with
  | number k w hk =>
    show s.log ⊆ (s.takeNumber k w).log
    unfold takeNumber
    split
    · exact List.subset_append_left _ _
    · exact fun _ h => h
  | sentCommand | sentOther | receive | deliver | dataOut | pongSent =>
    exact List.subset_append_left _ _
  | _ => exact fun _ h => h

theorem Stocked.keep (h : Stocked s) (hl : s.log ⊆ t.log)
    (hw : t.pool.writeData = s.pool.writeData)
    (hc : ∀ k i data, t.calls k = .register i data → s.calls k = .register i data) : Stocked t :=
  ⟨fun i d hd => (h.entry i d (hw ▸ hd)).mono hl,
    fun k i data hk => (h.registering k i data (hc k i data hk)).mono hl⟩

theorem Stocked.step (h : Stocked s) {l : Label} (hs : SessionStep s l t) : Stocked t := by
  have hl := log_subset hs
  cases hs with
  | wander l k c _ he =>
    refine h.keep hl rfl (registering_setCall rfl ?_)
    cases c <;> first | rfl | cases he
  | claim | store | stat | sentOther | leave => exact h.keep hl rfl (registering_setCall rfl rfl)
  | number k w hk =>
    exact h.keep hl (congrArg IttPool.writeData (takeNumber_tables s k w).1)
      (registering_setCall (congrArg (Function.update · k _) (takeNumber_calls s k w)) rfl)
  | sentCommand k c itt p turn hk =>
    refine ⟨fun i d hd => (h.entry i d hd).mono hl,fun j i data hj => ?_⟩
    by_cases hjk : j = k
    · rw [hjk,setCall_self] at hj
      cases hd : c.writeData with
      | none =>
        rw [hd] at hj
        cases hj
      | some d =>
        rw [hd] at hj
        cases hj
        exact ⟨k,c,p,List.mem_append_right _ (List.mem_singleton_self _),hd⟩
    · rw [setCall_other hjk] at hj
      exact (h.registering j i data hj).mono hl
  | register k itt data hk =>
    refine ⟨fun i d hd => ?_,fun j i x hj => ?_⟩
    · by_cases hi : i = itt
      · subst hi
        have hd : Function.update s.pool.writeData i (some ⟨k,data⟩) i = some d := hd
        rw [Function.update_self] at hd
        cases hd
        exact h.registering k i data hk
      · exact h.entry i d ((Function.update_of_ne hi _ _).symm.trans hd)
    · exact h.registering j i x (registering_setCall rfl rfl j i x hj)
  | removeWriteData itt hp =>
    refine ⟨fun i d hd => ?_,h.registering⟩
    have hd : Function.update s.pool.writeData itt none i = some d := hd
    by_cases hi : i = itt
    · rw [hi,Function.update_self] at hd
      cases hd
    · rw [Function.update_of_ne hi] at hd
      exact h.entry i d hd
  | _ => exact h.keep hl rfl (fun _ _ _ hk => hk)

/-- The receiver serves `p`, which it received in `s`, or has served it and waits. -/
def InService (s : Session) (p : Pdu) (ls : List Label) (t : Session) : Prop :=
  ∃ qs, t.log.filterMap SessionEvent.ofReceiver =
      s.log.filterMap SessionEvent.ofReceiver ++ qs.map .inr ∧
    t.negotiated = s.negotiated ∧ t.receiver.Serves s ls p qs

theorem InService.step {s u t : Session} {p : Pdu} {ls : List Label} {l : Label}
    (h : InService s p ls u) (hw : Stocked u) (hr : Machine.run sessionStep s ls = some u)
    (hl : ∀ q, l ≠ .receive q) (hs : sessionStep u l = some t) : InService s p (ls ++ [l]) t := by
  obtain ⟨qs,hlog,hn,hx⟩ := h
  have hcount := Machine.count_snoc (p := misses) l hr
  have hfinds : ∀ i d, u.pool.writeData i = some d → s.Finds ls i d.data :=
    fun i d hd => ⟨ls,u,d,List.prefix_refl ls,hr,hd,rfl,hw.entry i d hd⟩
  rcases receiver_step hfinds hs with ⟨hb,ha⟩ | ⟨e,b,hb,hr,hlog',hn',hp⟩
  · rw [hb] at hcount
    exact ⟨qs,ha.log.trans hlog,ha.negotiated.trans hn,ha.receiver ▸ hx.mono hcount⟩
  · rw [hb] at hcount
    rw [hn] at hr
    by_cases hi : u.receiver = .idle
    · rw [hi] at hr
      generalize t.receiver = y at hr
      cases hr with
      | receive q => exact absurd (hp q rfl) (hl q)
      | stop _ hm => cases hm
    · rcases serves_step hx hi hr hcount with ⟨rfl,hy⟩ | ⟨q,rfl,hy⟩
      · exact ⟨qs,(hlog'.trans (List.append_nil _)).trans hlog,hn'.trans hn,hy⟩
      · exact ⟨qs ++ [q],by rw [hlog',hlog]; simp,hn'.trans hn,hy⟩

theorem idle_step {l : Label} (hi : s.receiver = .idle) (hl : ∀ q, l ≠ .receive q)
    (hs : sessionStep s l = some t) : t.receiver = .idle ∧
      t.log.filterMap SessionEvent.ofReceiver = s.log.filterMap SessionEvent.ofReceiver := by
  rcases receiver_step (W := fun _ _ => True) (fun _ _ _ => trivial) hs with
    ⟨_,ha⟩ | ⟨e,b,_,hr,_,_,hp⟩
  · exact ⟨ha.receiver.trans hi,ha.log⟩
  · rw [hi] at hr
    generalize t.receiver = y at hr
    cases hr with
    | receive q => exact absurd (hp q rfl) (hl q)
    | stop _ hm => cases hm

theorem stocked_run {init stat : BitVec 32} {n : NegotiatedParams} {ls : List Label}
    (hr : Machine.run sessionStep (Session.start init stat n) ls = some t) : Stocked t :=
  Machine.run_invariant (fun _ _ _ h hs => h.step (session_step hs))
    ⟨fun _ _ h => (by cases h),fun _ _ _ h => (by cases h)⟩ hr

/-- In every run the receiver serves each PDU to the end before it receives the next one. It
answers a ping with one NOP-Out that echoes its TTT and an R2T with the Data-Outs of its range, as
far as the data go that were registered under its tag in the meantime, unless 50 lookups found
none; it answers nothing else, and it sends nothing before the first PDU. -/
theorem replies_before_next {init stat : BitVec 32} {n : NegotiatedParams} {ls : List Label}
    (hr : Machine.run sessionStep (Session.start init stat n) ls = some t) :
    ((∀ p, Label.receive p ∉ ls) → t.log.filterMap SessionEvent.ofReceiver = []) ∧
    ∀ ms p ns, ls = ms ++ .receive p :: ns → (∀ q, Label.receive q ∉ ns) →
      ∃ s qs, Machine.run sessionStep (Session.start init stat n) ms = some s ∧
        s.receiver = .idle ∧
        t.log.filterMap SessionEvent.ofReceiver =
          s.log.filterMap SessionEvent.ofReceiver ++ .inl p :: qs.map .inr ∧
        (t.receiver = .idle → Replies (s.receive p) ns p qs) ∧
        (t.receiver ≠ .idle → Begins (s.receive p) ns p qs) := by
  constructor
  · intro hls
    have hinv := Machine.run_invariant_of (p := fun l => ∀ q, l ≠ Label.receive q)
      (I := fun s => s.receiver = .idle ∧ s.log.filterMap SessionEvent.ofReceiver = [])
      (fun s l u h hl hs => ⟨(idle_step h.1 hl hs).1,(idle_step h.1 hl hs).2.trans h.2⟩) ⟨rfl,rfl⟩
      (fun l hl q hq => hls q (hq ▸ hl)) hr
    exact hinv.2
  · intro ms p ns he hns
    subst he
    rw [Machine.run_append] at hr
    obtain ⟨s,hms,hr⟩ := Option.bind_eq_some_iff.mp hr
    rw [Machine.run_cons] at hr
    obtain ⟨u,hu,hr⟩ := Option.bind_eq_some_iff.mp hr
    obtain ⟨hi,rfl⟩ : s.receiver = .idle ∧ u = s.receive p := by
      simp only [sessionStep] at hu
      split at hu
      · rename_i hi
        exact ⟨hi,(Option.some.inj hu).symm⟩
      · cases hu
    have hstock : Stocked (s.receive p) :=
      (stocked_run hms).step (session_step (l := .receive p) (by simp only [sessionStep,if_pos hi]))
    have hserving : (∀ q, Label.receive q ∉ ns) → Stocked t ∧ InService (s.receive p) p ns t := by
      refine Machine.run_history (P := fun ls t => (∀ q, Label.receive q ∉ ls) →
        Stocked t ∧ InService (s.receive p) p ls t) (fun ls l v w hv h hs hl => ?_)
        (fun _ => ⟨hstock,[],by simp,rfl,serves_dispatch _ p⟩) hr
      obtain ⟨hst,hsv⟩ := h (fun q hq => hl q (List.mem_append_left _ hq))
      refine ⟨hst.step (session_step hs),hsv.step hst hv (fun q hq => hl q ?_) hs⟩
      rw [hq]
      exact List.mem_append_right _ (List.mem_singleton_self _)
    obtain ⟨_,qs,hlog,_,hx⟩ := hserving hns
    refine ⟨s,qs,hms,hi,?_,fun h => ?_,fun h => serves_begins hx h⟩
    · rw [hlog]
      simp [receive,observe,SessionEvent.ofReceiver]
    · rw [h] at hx
      exact hx

/-- A write is sent without an answer of the receiver, and its R2T has one Data-Out. -/
theorem replies_before_next_write :
    (∃ s, Machine.run sessionStep (Session.start 5 0 .defaults10g)
      (Label.prepare 0 (writeBlock [1,2]) ++ Label.transmit 0 ++ [.advance 0]) = some s ∧
      s.log.filterMap SessionEvent.ofReceiver = []) ∧
    ∃ s t q, Machine.run sessionStep (Session.start 5 0 .defaults10g)
        (Label.prepare 0 (writeBlock [1,2]) ++ Label.transmit 0 ++ [.advance 0]) = some s ∧
      Machine.run sessionStep (Session.start 5 0 .defaults10g)
        (Label.prepare 0 (writeBlock [1,2]) ++ Label.transmit 0 ++ [.advance 0] ++
          .receive (readyToTransfer 0 7 0 2) :: [.handle,.handle,.handleSent,.handle]) = some t ∧
      t.log.filterMap SessionEvent.ofReceiver = [.inl (readyToTransfer 0 7 0 2),.inr q] ∧
      Replies (s.receive (readyToTransfer 0 7 0 2)) [.handle,.handle,.handleSent,.handle]
        (readyToTransfer 0 7 0 2) [q] := by
  have hsent : ∃ s, Machine.run sessionStep (Session.start 5 0 .defaults10g)
      (Label.prepare 0 (writeBlock [1,2]) ++ Label.transmit 0 ++ [.advance 0]) = some s := ⟨_,rfl⟩
  have hserved : ∃ t q, Machine.run sessionStep (Session.start 5 0 .defaults10g)
      (Label.prepare 0 (writeBlock [1,2]) ++ Label.transmit 0 ++ [.advance 0] ++
        .receive (readyToTransfer 0 7 0 2) :: [.handle,.handle,.handleSent,.handle]) = some t ∧
      t.receiver = .idle ∧
      t.log.filterMap SessionEvent.ofReceiver = [.inl (readyToTransfer 0 7 0 2),.inr q] :=
    ⟨_,_,rfl,rfl,rfl⟩
  obtain ⟨s,hs⟩ := hsent
  obtain ⟨t,q,ht,hi,hlog⟩ := hserved
  have hquiet := (replies_before_next hs).1 (fun p hp => by
    simp [Label.prepare,Label.transmit] at hp)
  obtain ⟨s',qs,hs',_,hlog',hreplies,_⟩ := (replies_before_next ht).2 _ _ _ rfl (by simp)
  obtain rfl : s = s' := Option.some.inj (hs.symm.trans hs')
  obtain rfl : qs = [q] := by
    rw [hlog,hquiet] at hlog'
    obtain ⟨r,rfl,hr⟩ := List.map_eq_singleton_iff.mp (congrArg List.tail hlog').symm
    rw [Sum.inr.inj hr]
  exact ⟨⟨s,hs,hquiet⟩,s,t,q,hs,ht,hlog,hreplies hi⟩

end IscsiFuse.Iscsi
