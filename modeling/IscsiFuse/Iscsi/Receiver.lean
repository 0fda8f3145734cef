import IscsiFuse.Iscsi.Transport
import IscsiFuse.Iscsi.WriteData
set_option autoImplicit false

/-!
The receiver with one PDU, whatever it says: the handler alone, from any state of the
session, every send with success.
-/

namespace IscsiFuse.Iscsi
open Session

namespace IttPool

theorem free_same {p : IttPool} {itt : Nat} (hi : itt < 128) (h : p.inUse itt = false) :
    (p.free itt).slots = p.slots := by
  simp only [free]
  rw [Function.update_eq_self_iff]
  apply BitVec.eq_of_getLsbD_eq
  intro j hj
  rw [BitVec.getLsbD_and,BitVec.getLsbD_not,getLsbD_mask (sub_base_lt hi)]
  by_cases hji : j = itt-(halfOf itt).base
  · subst hji
    have hb : (p.slots (halfOf itt)).getLsbD (itt-(halfOf itt).base) = false := h
    simp [hb]
  · simp [hji,hj]

end IttPool

namespace Session

def serveStep (s : Session) : Option Session :=
  match s.handle with
  | some t => some t
  | none => s.handleSent

def isIdle (s : Session) : Bool := s.receiver = .idle

/-- The receiver is back at `recv_pdu`. It never is when it ends at an index or a slice out
of range. -/
def Finishes (s t : Session) : Prop := Machine.Settles serveStep isIdle s t

def HasTask (s : Session) (itt : Nat) : Prop :=
  itt < 128 ∧ (s.pool.inUse itt = true ∨ (s.pool.completions itt).isSome)

def expects (s : Session) (itt : Nat) : Nat :=
  match (outstanding s.log itt).bind (commandOf s.log) with
  | some c => if c.read then c.edtl.toNat else 0
  | none => 0

def HasRange (s : Session) (p : Pdu) (data : Bytes) : Prop :=
  s.HasTask p.itt ∧ p.bhs.bufferOffset.toNat+data.length ≤ s.expects p.itt

def HasWriteRange (s : Session) (p : Pdu) (data : Bytes) : Prop :=
  s.HasTask p.itt ∧ p.bhs.r2tBufferOffset.toNat+p.bhs.r2tDesiredLength.toNat ≤ data.length

def Has (s : Session) (p : Pdu) : Prop :=
  match p.bhs.opcode with
  | .scsiResponse => s.HasTask p.itt
  | .scsiDataIn => s.HasTask p.itt ∧ ∀ data, p.data = some data → s.HasRange p data
  | .r2t => ∃ w, s.pool.writeData p.itt = some w ∧ s.HasWriteRange p w.data
  | _ => True

/-- Nothing came of the PDU: no task is completed, nothing is sent or delivered, and no data
are kept. What was left under the tag of no task may be dropped. -/
structure Discards (s : Session) (p : Pdu) (t : Session) : Prop where
  slots : t.pool.slots = s.pool.slots
  completions : t.pool.completions = s.pool.completions
  writeData : ∀ i, t.pool.writeData i = s.pool.writeData i ∨
    i = p.itt ∧ ¬ s.HasTask i ∧ t.pool.writeData i = none
  dataAccumulator : ∀ i, t.dataAccumulator i = s.dataAccumulator i ∨
    i = p.itt ∧ ¬ s.HasTask i ∧ t.dataAccumulator i = none
  log : t.log = (s.receive p).log

/-- The handler of the PDU finishes; a PDU that names what the initiator does not have
is ignored. -/
def Sound (s : Session) (p : Pdu) : Prop :=
  ∃ t, (s.receive p).Finishes t ∧ (¬ s.Has p → s.Discards p t)

def TakesData (s : Session) (p : Pdu) (data : Bytes) : Prop :=
  s.HasRange p data ∨ (p.bhs.statusFlag = true ∧ ¬ s.HasTask p.itt) ∨
    (p.bhs.statusFlag = false ∧ ∃ buf, s.dataAccumulator p.itt = some buf ∧
      accumulate buf p.bhs.bufferOffset.toNat data = buf)

def Safe (s : Session) (p : Pdu) : Prop :=
  match p.bhs.opcode with
  | .scsiResponse => p.itt < 128
  | .scsiDataIn => (p.bhs.statusFlag = true → p.itt < 128) ∧
      ∀ data, p.data = some data → s.TakesData p data
  | .r2t => ∀ w, s.pool.writeData p.itt = some w →
      p.bhs.r2tDesiredLength = 0 ∨ s.HasWriteRange p w.data
  | _ => True

variable {s t u : Session}

theorem isIdle_eq_false (h : s.receiver ≠ .idle) : s.isIdle = false := decide_eq_false h

theorem finishes_idle (h : s.receiver = .idle) : s.Finishes t ↔ t = s :=
  Machine.settles_done (decide_eq_true h)

theorem finishes_step (h : s.receiver ≠ .idle) (hs : s.serveStep = some u) :
    s.Finishes t ↔ u.Finishes t := Machine.settles_step (isIdle_eq_false h) hs

theorem finishes_none (h : s.receiver ≠ .idle) (hs : s.serveStep = none) : ¬ s.Finishes t :=
  Machine.not_settles (isIdle_eq_false h) hs

theorem finishes_handle {x : Receiver} (h : s.receiver = x) (hx : x ≠ .idle)
    (hs : s.handle = some u) : s.Finishes t ↔ u.Finishes t :=
  finishes_step (h ▸ hx) (by rw [serveStep,hs])

theorem deliver_step {p : Pdu} {r : PduResponse} {tx : Option Nat}
    (h : s.receiver = .deliver p r tx) : ∃ u, s.handle = some u ∧ u.receiver = .free p ∧
      u.pool = s.pool ∧ u.dataAccumulator = s.dataAccumulator ∧ (tx = none → u.log = s.log) ∧
      ∀ k, tx = some k → s.calls k ≠ .finished → u.log = s.log ++ [.delivered k r] := by
  refine ⟨_,by rw [handle,h],rfl,?_,?_,?_,?_⟩
  · simp only
    split
    · split <;> rfl
    · rfl
  · simp only
    split
    · split <;> rfl
    · rfl
  · intro ht
    subst ht
    rfl
  · intro k ht hk
    subst ht
    simp only [if_neg hk]
    rfl

theorem finishes_free {p : Pdu} (h : s.receiver = .free p) : ∃ t, (∀ u, s.Finishes u ↔ u = t) ∧
    t.pool.slots = (s.pool.free p.itt).slots ∧ t.pool.completions = s.pool.completions ∧
      (t.pool.writeData = s.pool.writeData ∨
        t.pool.writeData = Function.update s.pool.writeData p.itt none) ∧
      t.dataAccumulator = s.dataAccumulator ∧ t.log = s.log := by
  obtain ⟨a,ha,hra,hpa,hda,hla⟩ : ∃ a, s.handle = some a ∧
      a.receiver = (if p.bhs.opcode = .scsiResponse then .removeWriteData p.itt else .idle) ∧
      a.pool = s.pool.free p.itt ∧ a.dataAccumulator = s.dataAccumulator ∧ a.log = s.log := by
    refine ⟨_,by rw [handle,h],?_,?_,?_,?_⟩ <;> rfl
  by_cases ho : p.bhs.opcode = .scsiResponse
  · rw [if_pos ho] at hra
    refine ⟨{ a with pool := a.pool.putWriteData p.itt none, receiver := .idle },fun u => ?_,?_,?_,
      Or.inr ?_,hda,hla⟩
    · rw [finishes_handle h (by simp) ha,finishes_handle hra (by simp) (by rw [handle,hra]),
        finishes_idle rfl]
    · rw [hpa]
      rfl
    · rw [hpa]
      rfl
    · rw [hpa]
      rfl
  · rw [if_neg ho] at hra
    refine ⟨a,fun u => ?_,by rw [hpa],by rw [hpa]; rfl,Or.inl (by rw [hpa]; rfl),hda,hla⟩
    rw [finishes_handle h (by simp) ha,finishes_idle hra]

theorem finishes_takeData {p : Pdu} (h : s.receiver = .takeData p) (hi : p.itt < 128) :
    ∃ t, (∀ u, s.Finishes u ↔ u = t) ∧ t.pool.slots = (s.pool.free p.itt).slots ∧
      t.pool.completions = Function.update s.pool.completions p.itt none ∧
      (t.pool.writeData = s.pool.writeData ∨
        t.pool.writeData = Function.update s.pool.writeData p.itt none) ∧
      t.dataAccumulator = Function.update s.dataAccumulator p.itt none ∧
      (s.pool.completions p.itt = none → t.log = s.log) ∧
      ∀ k, s.pool.completions p.itt = some k → s.calls k ≠ .finished →
        t.log = s.log ++ [.delivered k (p.response (s.dataAccumulator p.itt))] := by
  obtain ⟨a,ha,hra,hpa,hda,hla,hca⟩ : ∃ a, s.handle = some a ∧
      a.receiver = .takeSender p (p.response (s.dataAccumulator p.itt)) ∧ a.pool = s.pool ∧
      a.dataAccumulator = Function.update s.dataAccumulator p.itt none ∧ a.log = s.log ∧
      a.calls = s.calls := by
    refine ⟨_,by rw [handle,h],?_,?_,?_,?_,?_⟩ <;> rfl
  obtain ⟨b,hb,hrb,hpb,hdb,hlb,hcb⟩ : ∃ b, a.handle = some b ∧
      b.receiver = .deliver p (p.response (s.dataAccumulator p.itt)) (a.pool.completions p.itt) ∧
      b.pool = a.pool.putSender p.itt none ∧ b.dataAccumulator = a.dataAccumulator ∧
      b.log = a.log ∧ b.calls = a.calls := by
    refine ⟨_,by rw [handle,hra]; exact if_pos hi,?_,?_,?_,?_,?_⟩ <;> rfl
  obtain ⟨d,hd,hrd,hpd,hdd,hld,hdel⟩ := deliver_step hrb
  obtain ⟨t,ht,hs,hc,hw,hda',hl⟩ := finishes_free hrd
  rw [hpd,hpb,hpa] at hs hc hw
  refine ⟨t,fun u => ?_,hs,hc,hw,?_,fun hn => ?_,fun k hk hf => ?_⟩
  · rw [finishes_handle h (by simp) ha,finishes_handle hra (by simp) hb,
      finishes_handle hrb (by simp) hd,ht]
  · rw [hda',hdd,hdb,hda]
  · rw [hl,hld (by rw [hpa]; exact hn),hlb,hla]
  · rw [hl,hdel k (by rw [hpa]; exact hk) (by rw [hcb,hca]; exact hf),hlb,hla]

theorem not_finishes_takeData {p : Pdu} (h : s.receiver = .takeData p) (hi : 128 ≤ p.itt) :
    ¬ s.Finishes t := by
  obtain ⟨a,ha,hra⟩ : ∃ a, s.handle = some a ∧
      a.receiver = .takeSender p (p.response (s.dataAccumulator p.itt)) := by
    refine ⟨_,by rw [handle,h],?_⟩
    rfl
  obtain ⟨b,hb,hrb⟩ : ∃ b, a.handle = some b ∧ b.receiver = .stopped := by
    refine ⟨_,by rw [handle,hra]; exact if_neg (Nat.not_lt.mpr hi),?_⟩
    rfl
  rw [finishes_handle h (by simp) ha,finishes_handle hra (by simp) hb]
  exact finishes_none (by simp [hrb]) (by simp [serveStep,handle,handleSent,hrb])

theorem finishes_lookup_none {r : R2t} {tries : Nat} (h : s.receiver = .lookup r tries)
    (hn : s.pool.writeData r.itt = none) : s.Finishes t ↔ t = { s with receiver := .idle } := by
  induction tries generalizing s with
  | zero =>
    rw [finishes_handle h (by simp) (by rw [handle,h]; simp only [hn]; rfl),finishes_idle rfl]
    rfl
  | succ tries ih =>
    rw [finishes_handle h (by simp) (by rw [handle,h]; simp only [hn]; rfl)]
    by_cases ht : tries+1 ≤ 1
    · rw [if_pos ht,finishes_idle rfl]
    · rw [if_neg ht]
      exact ih (s := { s with receiver := .lookup r tries }) rfl hn

theorem finishes_lookup_some {r : R2t} {tries : Nat} {w : WriteData}
    (h : s.receiver = .lookup r tries) (hw : s.pool.writeData r.itt = some w) :
    s.Finishes t ↔ Session.Finishes { s with
      receiver := .dataOut r w.data s.state.expStatSn 0 0 } t := by
  rw [finishes_handle h (by simp) (by rw [handle,h]; simp only [hw]; rfl)]
  exact finishes_handle rfl (by simp) rfl

theorem dataOut_done {r : R2t} {data : Bytes} {stat : BitVec 32} {sent dataSn : Nat}
    (h : s.receiver = .dataOut r data stat sent dataSn) (hd : r.desiredLength ≤ sent) :
    s.Finishes t ↔ t = { s with receiver := .idle } := by
  rw [finishes_handle h (by simp) (by rw [handle,h]; exact if_neg (Nat.not_lt.mpr hd)),
    finishes_idle rfl]

theorem dataOut_sent {r : R2t} {data : Bytes} {stat : BitVec 32} {sent dataSn : Nat} {p : Pdu}
    (h : s.receiver = .dataOut r data stat sent dataSn) (hd : sent < r.desiredLength)
    (hp : r.dataOutPdu s.negotiated.maxSegment data stat sent dataSn = some p) :
    s.Finishes t ↔ Session.Finishes { s.observe (.dataOut p) with
      receiver := .dataOut r data stat (sent+min (r.desiredLength-sent) s.negotiated.maxSegment)
        (dataSn+1) } t := by
  have hn : s.nextDataOut = some p := by
    rw [nextDataOut,h]
    exact (if_pos hd).trans hp
  have hh : s.handle = none := by
    rw [handle,h]
    simp only [if_pos hd,hp]
  refine finishes_step (by rw [h]; simp) ?_
  rw [serveStep,hh,handleSent,h]
  simp only [hn,Option.map_some]

theorem dataOut_cut {r : R2t} {data : Bytes} {stat : BitVec 32} {sent dataSn : Nat}
    (h : s.receiver = .dataOut r data stat sent dataSn) (hd : sent < r.desiredLength)
    (hp : r.dataOutPdu s.negotiated.maxSegment data stat sent dataSn = none) : ¬ s.Finishes t := by
  rw [finishes_handle h (by simp) (by rw [handle,h]; simp only [if_pos hd,hp]; rfl)]
  exact finishes_none (by simp) rfl

end Session

theorem dataOutPdu_isSome {r : R2t} {sent : Nat} {data : Bytes} (m dataSn : Nat) (stat : BitVec 32)
    (h : r.bufferOffset+sent ≤ data.length) : ∃ p, r.dataOutPdu m data stat sent dataSn = some p := by
  have hs := slice_eq_some.mpr ⟨⟨show r.bufferOffset+sent ≤ min (r.bufferOffset+sent+
    min (r.desiredLength-sent) m) data.length by omega,Nat.min_le_right _ _⟩,rfl⟩
  simp only [R2t.dataOutPdu,hs]
  exact ⟨_,rfl⟩

namespace Session

variable {s t : Session}

theorem finishes_dataOut {r : R2t} {data : Bytes} {stat : BitVec 32} {sent dataSn : Nat}
    (h : s.receiver = .dataOut r data stat sent dataSn)
    (hr : r.bufferOffset+r.desiredLength ≤ data.length) : ∃ t, s.Finishes t := by
  -- every Data-Out carries at least one byte of what is left
  induction hm : r.desiredLength-sent using Nat.strongRecOn generalizing s sent dataSn with
  | ind m ih =>
    by_cases hd : sent < r.desiredLength
    · have hin : r.bufferOffset+sent ≤ data.length := by omega
      obtain ⟨p,hp⟩ := dataOutPdu_isSome s.negotiated.maxSegment dataSn stat hin
      have hpos := maxSegment_pos s.negotiated
      simp only [dataOut_sent h hd hp]
      exact ih _ (by omega) rfl rfl
    · exact ⟨_,(dataOut_done h (by omega)).mpr rfl⟩

theorem dataOut_log {r : R2t} {data : Bytes} {stat : BitVec 32} {sent dataSn : Nat}
    (h : s.receiver = .dataOut r data stat sent dataSn) (hf : s.Finishes t) :
    ∃ m, t.log = s.log ++ m := by
  induction hm : r.desiredLength-sent using Nat.strongRecOn generalizing s sent dataSn with
  | ind m ih =>
    by_cases hd : sent < r.desiredLength
    · cases hp : r.dataOutPdu s.negotiated.maxSegment data stat sent dataSn with
      | none => exact absurd hf (dataOut_cut h hd hp)
      | some p =>
        have hpos := maxSegment_pos s.negotiated
        obtain ⟨m,hl⟩ := ih _ (by omega) rfl ((dataOut_sent h hd hp).mp hf) rfl
        exact ⟨_,hl.trans (List.append_assoc ..)⟩
    · rw [dataOut_done h (by omega)] at hf
      exact ⟨[],by rw [hf]; simp⟩

theorem dataOut_not_silent {r : R2t} {data : Bytes} {stat : BitVec 32} {dataSn : Nat}
    (h : s.receiver = .dataOut r data stat 0 dataSn) (hd : 0 < r.desiredLength)
    (hf : s.Finishes t) : t.log ≠ s.log := by
  intro hl
  cases hp : r.dataOutPdu s.negotiated.maxSegment data stat 0 dataSn with
  | none => exact dataOut_cut h hd hp hf
  | some p =>
    obtain ⟨m,hm⟩ := dataOut_log rfl ((dataOut_sent h hd hp).mp hf)
    rw [hl] at hm
    have hlen := congrArg List.length hm
    simp [observe] at hlen

theorem Discards.refl {p : Pdu} (hp : t.pool = s.pool) (hd : t.dataAccumulator = s.dataAccumulator)
    (hl : t.log = (s.receive p).log) : s.Discards p t :=
  ⟨by rw [hp],by rw [hp],fun _ => Or.inl (by rw [hp]),fun _ => Or.inl (by rw [hd]),hl⟩

theorem complete_sound {p : Pdu} {u : Session} (hr : u.receiver = .takeData p)
    (hp : u.pool = s.pool) (hd : ∀ i, i ≠ p.itt → u.dataAccumulator i = s.dataAccumulator i)
    (hl : u.log = (s.receive p).log) (hi : p.itt < 128) :
    ∃ t, u.Finishes t ∧ (s.Discards p t ↔ ¬ s.HasTask p.itt) := by
  obtain ⟨t,ht,hs,hc,hw,hda,hlog,_⟩ := finishes_takeData hr hi
  rw [hp] at hs hc hw hlog
  refine ⟨t,(ht t).mpr rfl,fun h hh => ?_,fun hh => ?_⟩
  · rcases hh.2 with hu | hcs
    · have hx := (h.slots.symm.trans hs)
      have hf := IttPool.free_inUse s.pool hi hi
      simp only [IttPool.inUse,← hx] at hf hu
      rw [hu] at hf
      simp at hf
    · have hx := congrFun (h.completions.symm.trans hc) p.itt
      rw [hx,Function.update_self] at hcs
      cases hcs
  · have hu : s.pool.inUse p.itt = false := by
      by_contra hu
      exact hh ⟨hi,Or.inl (by simpa using hu)⟩
    have hn : s.pool.completions p.itt = none := by
      by_contra hn
      exact hh ⟨hi,Or.inr (Option.isSome_iff_ne_none.mpr hn)⟩
    refine ⟨hs.trans (IttPool.free_same hi hu),?_,fun i => ?_,fun i => ?_,(hlog hn).trans hl⟩
    · rw [hc,← hn,Function.update_eq_self]
    · rcases hw with hw | hw
      · exact Or.inl (congrFun hw i)
      · by_cases hii : i = p.itt
        · subst hii
          exact Or.inr ⟨rfl,hh,by rw [hw,Function.update_self]⟩
        · exact Or.inl (by rw [hw,Function.update_of_ne hii])
    · by_cases hii : i = p.itt
      · subst hii
        exact Or.inr ⟨rfl,hh,by rw [hda,Function.update_self]⟩
      · exact Or.inl (by rw [hda,Function.update_of_ne hii,hd i hii])

theorem sound_complete {p : Pdu} {u : Session} (hf : ∀ t, (s.receive p).Finishes t ↔ u.Finishes t)
    (hr : u.receiver = .takeData p) (hp : u.pool = s.pool)
    (hd : ∀ i, i ≠ p.itt → u.dataAccumulator i = s.dataAccumulator i)
    (hl : u.log = (s.receive p).log) :
    s.Sound p ↔ p.itt < 128 ∧ (s.Has p ∨ ¬ s.HasTask p.itt) := by
  constructor
  · intro ⟨t,ht,hs⟩
    rw [hf] at ht
    have hi : p.itt < 128 := by
      by_contra hi
      exact not_finishes_takeData hr (by omega) ht
    obtain ⟨v,_,_⟩ := finishes_takeData hr hi
    obtain ⟨w,hw,hdw⟩ := complete_sound hr hp hd hl hi
    have htw : t = w := by
      obtain ⟨x,hx,_⟩ := finishes_takeData hr hi
      exact ((hx t).mp ht).trans ((hx w).mp hw).symm
    refine ⟨hi,?_⟩
    by_cases hh : s.Has p
    · exact Or.inl hh
    · exact Or.inr (hdw.mp (htw ▸ hs hh))
  · intro ⟨hi,hh⟩
    obtain ⟨t,ht,hdt⟩ := complete_sound hr hp hd hl hi
    refine ⟨t,(hf t).mpr ht,fun hn => hdt.mpr ?_⟩
    rcases hh with hh | hh
    · exact absurd hh hn
    · exact hh

theorem sound_scsiResponse {p : Pdu} (ho : p.bhs.opcode = .scsiResponse) :
    s.Sound p ↔ p.itt < 128 := by
  have hr : (s.receive p).receiver = .takeData p := by
    simp only [receive,Receiver.dispatch,ho]
  rw [sound_complete (fun _ => Iff.rfl) hr rfl (fun _ _ => rfl) rfl]
  simp only [Has,ho,and_iff_left_iff_imp]
  intro _
  exact Classical.em _

theorem sound_status {p : Pdu} (ho : p.bhs.opcode = .scsiDataIn) (hn : p.data = none) :
    s.Sound p ↔ (p.bhs.statusFlag = true → p.itt < 128) := by
  have hr : (s.receive p).receiver = if p.bhs.statusFlag then .takeData p else .idle := by
    simp only [receive,Receiver.dispatch,ho,hn]
  cases hf : p.bhs.statusFlag with
  | true =>
    rw [hf,if_pos rfl] at hr
    rw [sound_complete (fun _ => Iff.rfl) hr rfl (fun _ _ => rfl) rfl]
    simp only [Has,ho,hn,true_implies,and_iff_left_iff_imp]
    intro _
    by_cases hh : s.HasTask p.itt
    · exact Or.inl ⟨hh,fun _ h => by cases h⟩
    · exact Or.inr hh
  | false =>
    rw [hf,if_neg (by simp)] at hr
    simp only [Bool.false_eq_true,false_implies,iff_true]
    exact ⟨_,(finishes_idle hr).mpr rfl,fun _ => Discards.refl rfl rfl rfl⟩

theorem sound_dataIn {p : Pdu} {data : Bytes} (ho : p.bhs.opcode = .scsiDataIn)
    (hd : p.data = some data) :
    s.Sound p ↔ (p.bhs.statusFlag = true → p.itt < 128) ∧ s.TakesData p data := by
  have hr : (s.receive p).receiver = .accumulate p data := by
    simp only [receive,Receiver.dispatch,ho,hd]
  have hhas : s.Has p ↔ s.HasRange p data := by
    simp only [Has,ho,hd]
    exact ⟨fun h => h.2 data rfl,fun h => ⟨h.1,fun d hd => by cases hd; exact h⟩⟩
  obtain ⟨u,hu,hur,hup,hud,hul⟩ : ∃ u, (s.receive p).handle = some u ∧
      u.receiver = (if p.bhs.statusFlag then .takeData p else .idle) ∧ u.pool = s.pool ∧
      u.dataAccumulator = Function.update s.dataAccumulator p.itt
        (some (accumulate ((s.dataAccumulator p.itt).getD []) p.bhs.bufferOffset.toNat data)) ∧
      u.log = (s.receive p).log := by
    refine ⟨_,by rw [handle,hr],?_,?_,?_,?_⟩ <;> rfl
  have hf : ∀ t, (s.receive p).Finishes t ↔ u.Finishes t :=
    fun t => finishes_handle hr (by simp) hu
  unfold TakesData
  cases hs : p.bhs.statusFlag with
  | true =>
    rw [hs,if_pos rfl] at hur
    rw [sound_complete hf hur hup (fun i hi => by rw [hud,Function.update_of_ne hi]) hul,hhas]
    simp
  | false =>
    rw [hs,if_neg (by simp)] at hur
    simp only [Bool.false_eq_true,false_implies,true_and,false_and,false_or]
    constructor
    · intro ⟨t,ht,hdt⟩
      rw [hf,finishes_idle hur] at ht
      by_cases hh : s.HasRange p data
      · exact Or.inl hh
      · refine Or.inr ?_
        have hx := (hdt (hhas.not.mpr hh)).dataAccumulator p.itt
        rw [ht,hud,Function.update_self] at hx
        rcases hx with hx | ⟨_,_,hx⟩
        · cases hb : s.dataAccumulator p.itt with
          | none =>
            rw [hb] at hx
            cases hx
          | some buf =>
            rw [hb] at hx
            exact ⟨buf,rfl,Option.some.inj hx⟩
        · cases hx
    · intro hh
      refine ⟨u,(hf u).mpr ((finishes_idle hur).mpr rfl),fun hn => ?_⟩
      rcases hh with hh | ⟨buf,hb,ha⟩
      · exact absurd (hhas.mpr hh) hn
      · refine Discards.refl hup ?_ hul
        rw [hud,hb,Option.getD_some,ha,← hb,Function.update_eq_self]

theorem sound_r2t {p : Pdu} (ho : p.bhs.opcode = .r2t) : s.Sound p ↔
    ∀ w, s.pool.writeData p.itt = some w →
      p.bhs.r2tDesiredLength = 0 ∨ s.HasWriteRange p w.data := by
  have hr : (s.receive p).receiver = .lookup ⟨p.itt,p.bhs.ttt,p.bhs.r2tBufferOffset.toNat,
      p.bhs.r2tDesiredLength.toNat⟩ 50 := by
    simp only [receive,Receiver.dispatch,ho]
  cases hw : s.pool.writeData p.itt with
  | none =>
    have hn : (s.receive p).pool.writeData p.itt = none := hw
    simp only [reduceCtorEq,false_implies,implies_true,iff_true]
    exact ⟨_,(finishes_lookup_none hr hn).mpr rfl,fun _ => Discards.refl rfl rfl rfl⟩
  | some w =>
    have hn : (s.receive p).pool.writeData p.itt = some w := hw
    have hf := fun t => finishes_lookup_some (t := t) hr hn
    have hzero : p.bhs.r2tDesiredLength = 0 ↔ p.bhs.r2tDesiredLength.toNat = 0 := by
      rw [← BitVec.toNat_inj]
      rfl
    simp only [Option.some.injEq,forall_eq',hzero]
    constructor
    · intro ⟨t,ht,hdt⟩
      by_cases hd : p.bhs.r2tDesiredLength.toNat = 0
      · exact Or.inl hd
      · refine Or.inr (Classical.byContradiction fun hh => ?_)
        have hnot : ¬ s.Has p := by
          simp only [Has,ho,hw,Option.some.injEq,exists_eq_left']
          exact hh
        exact dataOut_not_silent rfl (Nat.pos_of_ne_zero hd) ((hf t).mp ht) (hdt hnot).log
    · intro hh
      by_cases hd : p.bhs.r2tDesiredLength.toNat = 0
      · refine ⟨_,(hf _).mpr ((dataOut_done rfl (Nat.le_of_eq hd)).mpr rfl),fun _ => ?_⟩
        exact Discards.refl rfl rfl rfl
      · have hrange := hh.resolve_left hd
        let r : R2t := ⟨p.itt,p.bhs.ttt,p.bhs.r2tBufferOffset.toNat,p.bhs.r2tDesiredLength.toNat⟩
        let stat := (s.receive p).state.expStatSn
        obtain ⟨t,ht⟩ := finishes_dataOut
          (s := { s.receive p with receiver := .dataOut r w.data stat 0 0 }) rfl hrange.2
        refine ⟨t,(hf t).mpr ht,fun hn => absurd ?_ hn⟩
        simp only [Has,ho,hw,Option.some.injEq,exists_eq_left']
        exact hrange

theorem sound_nopIn {p : Pdu} (ho : p.bhs.opcode = .nopIn) : s.Sound p := by
  have hh : s.Has p := by simp only [Has,ho]
  by_cases ht : p.bhs.ttt = 0xFFFFFFFF
  · have hr : (s.receive p).receiver = .idle := by
      simp only [receive,Receiver.dispatch,ho]
      exact if_neg (by simpa using ht)
    exact ⟨_,(finishes_idle hr).mpr rfl,fun hn => absurd hh hn⟩
  · have hr : (s.receive p).receiver = .pong p.bhs.ttt .number := by
      simp only [receive,Receiver.dispatch,ho]
      exact if_pos ht
    obtain ⟨a,ha,cmdSn,turn,hra⟩ : ∃ a, (s.receive p).handle = some a ∧ ∃ cmdSn turn,
        a.receiver = .pong p.bhs.ttt (.stat cmdSn turn) := by
      refine ⟨_,by rw [handle,hr],?_⟩
      exact ⟨_,_,rfl⟩
    obtain ⟨b,hb,q,hrb⟩ : ∃ b, a.handle = some b ∧ ∃ q,
        b.receiver = .pong p.bhs.ttt (.send q turn) := by
      refine ⟨_,by rw [handle,hra],?_⟩
      exact ⟨_,rfl⟩
    have hs : b.serveStep = some { b.observe (.sent none (.nop p.bhs.ttt) q) with
        receiver := .idle } := by
      have hn : b.handle = none := by rw [handle,hrb]
      rw [serveStep,hn,handleSent,hrb]
    refine ⟨{ b.observe (.sent none (.nop p.bhs.ttt) q) with receiver := .idle },?_,
      fun hn => absurd hh hn⟩
    rw [finishes_handle hr (by simp) ha,finishes_handle hra (by simp) hb,
      finishes_step (by simp [hrb]) hs,finishes_idle rfl]

/-- What the receiver makes of any PDU in any state. -/
theorem sound_iff_safe (s : Session) (p : Pdu) : s.Sound p ↔ s.Safe p := by
  unfold Safe
  split
  · rename_i ho
    exact sound_scsiResponse ho
  · rename_i ho
    cases hd : p.data with
    | none =>
      rw [sound_status ho hd]
      simp
    | some data =>
      rw [sound_dataIn ho hd]
      simp
  · rename_i ho
    exact sound_r2t ho
  · rename_i h₁ h₂ h₃
    simp only [iff_true]
    by_cases ho : p.bhs.opcode = .nopIn
    · exact sound_nopIn ho
    · have hr : (s.receive p).receiver = .idle := by
        simp only [receive,Receiver.dispatch]
      refine ⟨_,(finishes_idle hr).mpr rfl,fun hn => absurd ?_ hn⟩
      unfold Has
      split <;> trivial

end Session

def responseTo (itt : BitVec 32) : Pdu := ⟨Bhs.buildScsiResponse itt 0 1 1 64,none,none⟩

def dataFor (itt : BitVec 32) (data : Bytes) : Pdu :=
  ⟨Bhs.buildDataIn itt 0 0 (BitVec.ofNat 32 data.length) false 0 1 1 64,none,some data⟩

/-- The PDU as it comes in from the wire. -/
def Arrives (p q : Pdu) : Prop :=
  recvPdu .castagnoli ⟨false,false⟩ (sendPdu .castagnoli ⟨false,false⟩ p) = .ok (q,[])

/-- A response with a tag that no pool has, an R2T for bytes after the end of the data, and
data for no read. -/
theorem received_unsound :
    (∃ q, Arrives (responseTo 200) q ∧ ¬ (Session.start 5 0 .defaults10g).Sound q) ∧
    (∃ s q, Machine.run sessionStep (Session.start 5 0 .defaults10g)
      (Label.prepare 0 (writeBlock [1,2]) ++ Label.transmit 0 ++ [.advance 0]) = some s ∧
      Arrives (readyToTransfer 0 7 10 2) q ∧ ¬ s.Sound q) ∧
    ∃ q, Arrives (dataFor 3 [1,2]) q ∧ ¬ (Session.start 5 0 .defaults10g).Sound q := by
  refine ⟨⟨_,rfl,?_⟩,⟨_,_,rfl,rfl,?_⟩,⟨_,rfl,?_⟩⟩
  · rw [Session.sound_scsiResponse rfl]
    decide
  · rw [Session.sound_r2t rfl]
    intro h
    rcases h _ rfl with h | h
    · exact absurd h (by decide)
    · exact absurd h.2 (by decide)
  · rw [Session.sound_dataIn rfl rfl]
    intro ⟨_,h⟩
    rcases h with h | h | ⟨_,buf,h,_⟩
    · rcases h.1.2 with h | h <;> exact absurd h (by decide)
    · exact absurd h.1 (by decide)
    · cases h

end IscsiFuse.Iscsi
