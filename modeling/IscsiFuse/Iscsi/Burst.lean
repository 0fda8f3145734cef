import IscsiFuse.Library.Log
import IscsiFuse.Iscsi.Receiver
import IscsiFuse.Iscsi.SendLimits
set_option autoImplicit false

namespace IscsiFuse.Iscsi
open Session

def Pdu.segment (p : Pdu) : Bytes := p.data.getD []

def Pdu.wireFinal (p : Pdu) : Prop := p.bhs.serialize.getD 1 0 &&& 0x80 ≠ 0

/-- What answers the R2T `p` with bytes of `data`, in segments of at most `m` bytes. -/
structure DataOutBurst (p : Pdu) (m : Nat) (data : Bytes) (qs : List Pdu) : Prop where
  nonempty : qs ≠ []
  opcode : ∀ q ∈ qs, q.bhs.serialize.getD 0 0 = Opcode.scsiDataOut.code
  tags : ∀ q ∈ qs, Bhs.u32At q.bhs.serialize 16 = p.bhs.itt ∧
    Bhs.u32At q.bhs.serialize 20 = p.bhs.ttt
  dataSn : ∀ i q, qs[i]? = some q → (Bhs.u32At q.bhs.serialize 36).toNat = i
  bufferOffset : ∀ i q, qs[i]? = some q → (Bhs.u32At q.bhs.serialize 40).toNat =
    p.bhs.r2tBufferOffset.toNat+((qs.take i).map (·.segment.length)).sum
  lengths : ∀ q ∈ qs, 1 ≤ q.segment.length ∧ q.segment.length ≤ m ∧
    Bytes.ofBe (q.bhs.serialize.window 5 3) = q.segment.length
  segments : (qs.map Pdu.segment).flatten =
    data.window p.bhs.r2tBufferOffset.toNat p.bhs.r2tDesiredLength.toNat
  final : ∀ i q, qs[i]? = some q → (q.wireFinal ↔ i+1 = qs.length)

theorem buildDataOut_dataSn (lun : BitVec 64) (itt ttt expStatSn dataSn bufferOffset : BitVec 32) :
    Bhs.u32At (Bhs.buildDataOut lun itt ttt expStatSn dataSn bufferOffset).raw 36 = dataSn := by
  rw [Bhs.buildDataOut,Bhs.u32At_setRawU32_apart _ _ (by omega),Bhs.u32At_setRawU32]

/-- The PDU that `handle_r2t` builds, on the wire, wherever its slice ends. -/
structure R2t.Cuts (r : R2t) (m : Nat) (data : Bytes) (sent dataSn : Nat) (q : Pdu) : Prop where
  start : r.bufferOffset+sent ≤ data.length
  opcode : q.bhs.serialize.getD 0 0 = Opcode.scsiDataOut.code
  tags : Bhs.u32At q.bhs.serialize 16 = BitVec.ofNat 32 r.itt ∧
    Bhs.u32At q.bhs.serialize 20 = r.ttt
  dataSn : Bhs.u32At q.bhs.serialize 36 = BitVec.ofNat 32 dataSn
  bufferOffset : Bhs.u32At q.bhs.serialize 40 = BitVec.ofNat 32 (r.bufferOffset+sent)
  length : Bytes.ofBe (q.bhs.serialize.window 5 3) = q.segment.length%2^24
  segment : q.segment = data.window (r.bufferOffset+sent) (min (r.desiredLength-sent) m)
  final : q.wireFinal ↔ r.desiredLength ≤ sent+min (r.desiredLength-sent) m

theorem dataOutPdu_cuts {r : R2t} {m sent dataSn : Nat} {data : Bytes} {stat : BitVec 32} {q : Pdu}
    (hq : r.dataOutPdu m data stat sent dataSn = some q) : r.Cuts m data sent dataSn q := by
  have hf := hq
  simp only [R2t.dataOutPdu,Option.bind_eq_bind,Option.bind_eq_some_iff] at hf
  obtain ⟨chunk,hc,hp⟩ := hf
  obtain ⟨⟨hstart,_⟩,hw⟩ := slice_eq_some.mp hc
  obtain ⟨_,_,_,_,hraw⟩ := dataOutPdu_eq_some hq
  have hp := Option.some.inj hp
  have hsegment : q.segment = chunk := by
    rw [← hp]
    rfl
  have hword : ∀ off, 8 ≤ off → Bhs.u32At q.bhs.serialize off = Bhs.u32At (Bhs.buildDataOut 0
      (BitVec.ofNat 32 r.itt) r.ttt stat (BitVec.ofNat 32 dataSn)
      (BitVec.ofNat 32 (r.bufferOffset+sent))).raw off := by
    intro off ho
    rw [Bhs.serialize_u32At _ ho,hraw]
  have hflags : q.bhs.flags =
      if decide (r.desiredLength ≤ sent+min (r.desiredLength-sent) m) then 0x80 else 0x00 := by
    rw [← hp]
    rfl
  have hseg : q.bhs.dataSegmentLength = BitVec.ofNat 32 chunk.length := by
    rw [← hp]
    rfl
  refine ⟨by omega,?_,⟨?_,?_⟩,?_,?_,?_,?_,?_⟩
  · obtain ⟨ho,hi⟩ : q.bhs.opcode = .scsiDataOut ∧ q.bhs.immediate = false := by
      rw [← hp]
      exact ⟨rfl,rfl⟩
    show (if q.bhs.immediate then 0x40 else 0x00) ||| q.bhs.opcode.code = _
    rw [ho,hi]
    decide
  · rw [hword 16 (by omega),Bhs.buildDataOut_itt]
  · rw [hword 20 (by omega),Bhs.buildDataOut_ttt]
  · rw [hword 36 (by omega),buildDataOut_dataSn]
  · rw [hword 40 (by omega),Bhs.buildDataOut_bufferOffset]
  · rw [Bhs.serialize_dataSegmentLength,hseg,hsegment,BitVec.toNat_ofNat,
      Nat.mod_mod_of_dvd _ (by decide)]
  · rw [hsegment,← hw,Bytes.window,List.take_eq_take_iff,List.length_drop]
    omega
  · show q.bhs.flags &&& 0x80 ≠ 0 ↔ _
    rw [hflags]
    by_cases hfin : r.desiredLength ≤ sent+min (r.desiredLength-sent) m <;> simp [hfin]

def Pdu.toR2t (p : Pdu) : R2t :=
  ⟨p.itt,p.bhs.ttt,p.bhs.r2tBufferOffset.toNat,p.bhs.r2tDesiredLength.toNat⟩

/-- The Data-Outs for the first `sent` bytes of the range that the R2T `p` asks for, as they are on
the wire. Every one but the last carries `m` bytes, and where the data end before the range does,
what there is of it. -/
structure DataOuts (p : Pdu) (m : Nat) (data : Bytes) (sent : Nat) (qs : List Pdu) : Prop where
  covered : sent = min p.bhs.r2tDesiredLength.toNat (m*qs.length)
  count : m*qs.length < p.bhs.r2tDesiredLength.toNat+m
  opcode : ∀ q ∈ qs, q.bhs.serialize.getD 0 0 = Opcode.scsiDataOut.code
  tags : ∀ q ∈ qs, Bhs.u32At q.bhs.serialize 16 = p.bhs.itt ∧
    Bhs.u32At q.bhs.serialize 20 = p.bhs.ttt
  dataSn : ∀ i q, qs[i]? = some q → Bhs.u32At q.bhs.serialize 36 = BitVec.ofNat 32 i
  bufferOffset : ∀ i q, qs[i]? = some q →
    p.bhs.r2tBufferOffset.toNat+m*i ≤ data.length ∧
    Bhs.u32At q.bhs.serialize 40 = BitVec.ofNat 32 (p.bhs.r2tBufferOffset.toNat+m*i)
  lengths : ∀ i q, qs[i]? = some q → q.segment.length = min m (min p.bhs.r2tDesiredLength.toNat
      (data.length-p.bhs.r2tBufferOffset.toNat)-m*i) ∧
    Bytes.ofBe (q.bhs.serialize.window 5 3) = q.segment.length%2^24
  segments : (qs.map Pdu.segment).flatten = data.window p.bhs.r2tBufferOffset.toNat sent
  final : ∀ i q, qs[i]? = some q →
    (q.wireFinal ↔ i+1 = qs.length ∧ sent = p.bhs.r2tDesiredLength.toNat)

namespace DataOuts

variable {p q : Pdu} {m sent : Nat} {data : Bytes} {stat : BitVec 32} {qs : List Pdu}

theorem start (p : Pdu) {m : Nat} (data : Bytes) (hm : 0 < m) : DataOuts p m data 0 [] :=
  ⟨by simp,by simp [hm],by simp,by simp,by simp,by simp,by simp,by simp [Bytes.window],by simp⟩

theorem covered_of_lt (h : DataOuts p m data sent qs)
    (hlt : sent < p.bhs.r2tDesiredLength.toNat) : sent = m*qs.length := by
  have hc := h.covered
  omega

theorem next (h : DataOuts p m data sent qs) (hlt : sent < p.bhs.r2tDesiredLength.toNat)
    (hq : p.toR2t.dataOutPdu m data stat sent qs.length = some q) :
    DataOuts p m data (sent+min (p.bhs.r2tDesiredLength.toNat-sent) m) (qs ++ [q]) := by
  have hsent := h.covered_of_lt hlt
  have hcuts := dataOutPdu_cuts hq
  have hstart : p.bhs.r2tBufferOffset.toNat+sent ≤ data.length := hcuts.start
  have hsegment : q.segment = data.window (p.bhs.r2tBufferOffset.toNat+sent)
      (min (p.bhs.r2tDesiredLength.toNat-sent) m) := hcuts.segment
  have hfinal : q.wireFinal ↔ p.bhs.r2tDesiredLength.toNat ≤
      sent+min (p.bhs.r2tDesiredLength.toNat-sent) m := hcuts.final
  have htag : BitVec.ofNat 32 p.toR2t.itt = p.bhs.itt := by
    show BitVec.ofNat 32 p.bhs.itt.toNat = _
    rw [BitVec.ofNat_toNat,BitVec.setWidth_eq]
  have hlen : (qs ++ [q]).length = qs.length+1 := by simp
  refine ⟨?_,?_,?_,?_,Log.forall_snoc h.dataSn hcuts.dataSn,Log.forall_snoc h.bufferOffset ?_,
    Log.forall_snoc h.lengths ?_,?_,Log.forall_snoc (fun i x hx => ?_) ?_⟩
  · rw [hlen,Nat.mul_succ]
    omega
  · rw [hlen,Nat.mul_succ]
    omega
  · simpa using fun x hx => hx.elim (h.opcode x) (fun hx => hx ▸ hcuts.opcode)
  · intro x hx
    rcases List.mem_append.mp hx with hx | hx
    · exact h.tags x hx
    · rw [List.mem_singleton.mp hx]
      exact ⟨hcuts.tags.1.trans htag,hcuts.tags.2⟩
  · rw [← hsent]
    exact ⟨hstart,hcuts.bufferOffset⟩
  · refine ⟨?_,hcuts.length⟩
    rw [hsegment,← hsent,Bytes.window,List.length_take,List.length_drop]
    omega
  · rw [List.map_append,List.flatten_append,h.segments,Bytes.window_add]
    simp [hsegment]
  · have hi := (List.getElem?_eq_some_iff.mp hx).1
    rw [h.final i x hx,hlen]
    omega
  · rw [hfinal,hlen]
    omega

theorem sum_lengths (h : DataOuts p m data p.bhs.r2tDesiredLength.toNat qs)
    (hr : p.bhs.r2tBufferOffset.toNat+p.bhs.r2tDesiredLength.toNat ≤ data.length) {i : Nat}
    (hi : i < qs.length) : ((qs.take i).map (·.segment.length)).sum = m*i := by
  induction i with
  | zero => simp
  | succ i ih =>
    have hle := Nat.mul_le_mul_left m (Nat.succ_le_of_lt hi)
    have hcount := h.count
    have hget := List.getElem?_eq_getElem (Nat.lt_of_succ_lt hi)
    have hfull := (h.lengths i _ hget).1
    rw [Nat.mul_succ] at hle ⊢
    rw [Nat.mul_succ] at hle
    rw [List.take_add_one,hget,Option.toList_some,List.map_append,List.sum_append,
      ih (Nat.lt_of_succ_lt hi)]
    simp only [List.map_cons,List.map_nil,List.sum_singleton,hfull]
    omega

theorem burst (h : DataOuts p m data p.bhs.r2tDesiredLength.toNat qs)
    (hr : p.bhs.r2tBufferOffset.toNat+p.bhs.r2tDesiredLength.toNat ≤ data.length)
    (hl : data.length < 2^32) (hm : 0 < m ∧ m < 2^24) (hd : 1 ≤ p.bhs.r2tDesiredLength.toNat) :
    DataOutBurst p m data qs := by
  have hcovered := h.covered
  have hcount := h.count
  have hplace : ∀ {i q}, qs[i]? = some q → i < qs.length ∧
      m*i < p.bhs.r2tDesiredLength.toNat ∧ i ≤ m*i := by
    intro i q hq
    have hi := (List.getElem?_eq_some_iff.mp hq).1
    have hle := Nat.mul_le_mul_left m (Nat.succ_le_of_lt hi)
    rw [Nat.mul_succ] at hle
    exact ⟨hi,by omega,Nat.le_mul_of_pos_left i hm.1⟩
  refine ⟨?_,h.opcode,h.tags,fun i q hq => ?_,fun i q hq => ?_,fun q hq => ?_,h.segments,
    fun i q hq => (h.final i q hq).trans (and_iff_left rfl)⟩
  · intro hn
    rw [hn,List.length_nil,Nat.mul_zero] at hcovered
    omega
  · obtain ⟨_,_,_⟩ := hplace hq
    rw [h.dataSn i q hq,BitVec.toNat_ofNat,Nat.mod_eq_of_lt (by omega)]
  · obtain ⟨hi,_,_⟩ := hplace hq
    rw [(h.bufferOffset i q hq).2,h.sum_lengths hr hi,BitVec.toNat_ofNat,
      Nat.mod_eq_of_lt (by omega)]
  · obtain ⟨i,hq⟩ := List.getElem?_of_mem hq
    obtain ⟨_,_,_⟩ := hplace hq
    obtain ⟨hlen,hwire⟩ := h.lengths i q hq
    exact ⟨by omega,by omega,hwire.trans (Nat.mod_eq_of_lt (by omega))⟩

end DataOuts

namespace Session

variable {s : Session}

theorem dataOut_answers {p : Pdu} {data : Bytes} {stat : BitVec 32} {sent : Nat} (qs : List Pdu)
    (h : s.receiver = .dataOut p.toR2t data stat sent qs.length)
    (hd : DataOuts p s.negotiated.maxSegment data sent qs)
    (hr : p.bhs.r2tBufferOffset.toNat+p.bhs.r2tDesiredLength.toNat ≤ data.length) :
    ∃ t rest, s.Finishes t ∧ t.log = s.log ++ rest.map .dataOut ∧
      DataOuts p s.negotiated.maxSegment data p.bhs.r2tDesiredLength.toNat (qs ++ rest) := by
  induction hn : p.bhs.r2tDesiredLength.toNat-sent using Nat.strongRecOn
    generalizing s sent qs with
  | ind n ih =>
    by_cases hlt : sent < p.bhs.r2tDesiredLength.toNat
    · have hpos := maxSegment_pos s.negotiated
      have hstart : p.toR2t.bufferOffset+sent ≤ data.length :=
        show p.bhs.r2tBufferOffset.toNat+sent ≤ data.length by omega
      obtain ⟨q,hq⟩ := dataOutPdu_isSome s.negotiated.maxSegment qs.length stat hstart
      obtain ⟨t,rest,hf,hlog,ha⟩ := ih _ (by omega)
        (s := { s.observe (.dataOut q) with
          receiver := .dataOut p.toR2t data stat
            (sent+min (p.bhs.r2tDesiredLength.toNat-sent) s.negotiated.maxSegment)
            (qs.length+1) }) (qs ++ [q]) (by simp) (hd.next hlt hq) rfl
      refine ⟨t,q :: rest,(dataOut_sent h hlt hq).mpr hf,?_,?_⟩
      · rw [hlog,List.map_cons,observe_log,List.append_assoc,List.singleton_append]
      · rw [List.append_cons]
        exact ha
    · have hsent : sent = p.bhs.r2tDesiredLength.toNat :=
        Nat.le_antisymm (hd.covered.trans_le (Nat.min_le_left _ _)) (not_lt.mp hlt)
      exact ⟨_,[],(dataOut_done h (Nat.le_of_eq hsent.symm)).mpr rfl,by simp,
        by simpa [hsent] using hd⟩

/-- An R2T inside the registered data is answered with one burst, and no more is sent. -/
theorem handleR2t_burst {p : Pdu} {w : WriteData} (ho : p.bhs.opcode = .r2t)
    (hw : s.pool.writeData p.itt = some w) (hl : w.data.length < 2^32)
    (hm : s.negotiated.maxSegment < 2^24) (hd : 1 ≤ p.bhs.r2tDesiredLength.toNat)
    (hr : p.bhs.r2tBufferOffset.toNat+p.bhs.r2tDesiredLength.toNat ≤ w.data.length) :
    1 ≤ s.negotiated.maxSegment ∧ ∃ t qs, (s.receive p).Finishes t ∧
      t.log = (s.receive p).log ++ qs.map .dataOut ∧
      DataOutBurst p s.negotiated.maxSegment w.data qs := by
  have hlook : (s.receive p).receiver = .lookup p.toR2t 50 := by
    show Receiver.dispatch p = _
    rw [Receiver.dispatch,ho]
    rfl
  have hpos := maxSegment_pos s.negotiated
  obtain ⟨t,qs,hf,hlog,ha⟩ := dataOut_answers [] (s := { s.receive p with
    receiver := .dataOut p.toR2t w.data (s.receive p).state.expStatSn 0 0 }) rfl
    (.start p w.data hpos) hr
  exact ⟨hpos,t,qs,(finishes_lookup_some hlook hw).mpr hf,hlog,ha.burst hr hl ⟨hpos,hm⟩ hd⟩

theorem handleR2t_burst_three :
    let s : Session := { Session.start 0 0 { NegotiatedParams.defaults10g with
      maxSendDataSegmentLength := 400 } with
        pool := IttPool.new.putWriteData 5 (some ⟨0,List.replicate 1000 7⟩) }
    let p : Pdu := ⟨Bhs.buildR2t 5 9 0 0 0 0 100 900,none,none⟩
    1 ≤ s.negotiated.maxSegment ∧ ∃ t qs, (s.receive p).Finishes t ∧
      t.log = (s.receive p).log ++ qs.map .dataOut ∧
      DataOutBurst p s.negotiated.maxSegment (List.replicate 1000 7) qs := by
  intro s p
  obtain ⟨ho,hd⟩ := Bhs.buildR2t_range 5 9 0 0 0 0 100 900
  have hm : s.negotiated.maxSegment = 400 := maxSegment_eq (n := s.negotiated) (by decide)
  refine handleR2t_burst (s := s) (p := p) (w := ⟨0,List.replicate 1000 7⟩) rfl ?_ ?_ ?_ ?_ ?_
  · show Function.update IttPool.new.writeData 5 (some ⟨0,List.replicate 1000 7⟩) p.itt = _
    rw [show p.itt = 5 by decide,Function.update_self]
  · rw [List.length_replicate]
    decide
  · rw [hm]
    decide
  · rw [hd]
    decide
  · rw [ho,hd,List.length_replicate]
    decide

end Session

end IscsiFuse.Iscsi
