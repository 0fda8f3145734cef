import IscsiFuse.Iscsi.Submit
import IscsiFuse.Iscsi.Wire
import IscsiFuse.Iscsi.WriteData
set_option autoImplicit false

namespace IscsiFuse.Iscsi
open Session

def Pdu.wireLun (p : Pdu) : Nat := Bytes.ofBe (p.bhs.serialize.window 8 8)

namespace Bhs

theorem window_setRaw_apart (b : Bhs) {off i n : Nat} {w : Bytes} (h : off+w.length ≤ 48)
    (ha : i+n ≤ off ∨ off+w.length ≤ i) :
    (b.setRaw off w h).raw.window i n = b.raw.window i n := by
  rw [setRaw,Bytes.window_place_apart (by rw [b.size]; omega) ha]

theorem window_setRawU32_apart (b : Bhs) {off i n : Nat} {value : BitVec 32} (h : off+4 ≤ 48)
    (ha : i+n ≤ off ∨ off+4 ≤ i) :
    (b.setRawU32 off value h).raw.window i n = b.raw.window i n :=
  b.window_setRaw_apart _ (by simpa using ha)

theorem window_setRaw_self (b : Bhs) {off n : Nat} {w : Bytes} (h : off+w.length ≤ 48)
    (hn : w.length = n) : (b.setRaw off w h).raw.window off n = w := by
  subst hn
  exact b.window_setRaw h

theorem lun_syncRawFromFields (b : Bhs) :
    b.syncRawFromFields.raw.window 8 8 = Bytes.toBe 8 b.lun.toNat := by
  rw [syncRawFromFields,window_setRawU32_apart _ _ (by omega),
    window_setRaw_self _ _ (Bytes.toBe_length _ _)]

theorem buildScsiCommand_lun (lun : BitVec 64) (itt cmdSn expStatSn : BitVec 32) (cdb : Bytes)
    (h : cdb.length = 16) (edtl : BitVec 32) (read write : Bool) :
    (buildScsiCommand lun itt cmdSn expStatSn cdb h edtl read write).raw.window 8 8 =
      Bytes.toBe 8 lun.toNat := by
  rw [buildScsiCommand,window_setRaw_apart _ _ (by omega),window_setRawU32_apart _ _ (by omega),
    window_setRawU32_apart _ _ (by omega),window_setRawU32_apart _ _ (by omega),
    lun_syncRawFromFields]

theorem buildDataOut_lun (lun : BitVec 64) (itt ttt expStatSn dataSn bufferOffset : BitVec 32) :
    (buildDataOut lun itt ttt expStatSn dataSn bufferOffset).raw.window 8 8 =
      Bytes.toBe 8 lun.toNat := by
  rw [buildDataOut,window_setRawU32_apart _ _ (by omega),window_setRawU32_apart _ _ (by omega),
    window_setRawU32_apart _ _ (by omega),window_setRawU32_apart _ _ (by omega),
    lun_syncRawFromFields]

end Bhs

theorem ofBe_lun (lun : BitVec 64) : Bytes.ofBe (Bytes.toBe 8 lun.toNat) = lun.toNat := by
  rw [Bytes.ofBe_toBe]
  exact Nat.mod_eq_of_lt lun.isLt

theorem command_wireLun (c : Command) (itt : Nat) (cmdSn expStatSn : BitVec 32) :
    ((Sender.command c itt).pdu cmdSn expStatSn).wireLun = c.lun.toNat := by
  rw [Pdu.wireLun,Bhs.serialize_window _ (by omega),command_raw,Bhs.buildScsiCommand_lun,ofBe_lun]

theorem dataOutPdu_wireLun {r : R2t} {m sent dataSn : Nat} {data : Bytes} {stat : BitVec 32}
    {p : Pdu} (h : r.dataOutPdu m data stat sent dataSn = some p) :
    p.wireLun = 0 ∧ Bhs.u32At p.bhs.serialize 16 = BitVec.ofNat 32 r.itt ∧
      Bhs.u32At p.bhs.serialize 20 = r.ttt := by
  obtain ⟨_,_,_,_,hraw⟩ := dataOutPdu_eq_some h
  refine ⟨?_,?_,?_⟩
  · rw [Pdu.wireLun,Bhs.serialize_window _ (by omega),hraw,Bhs.buildDataOut_lun,ofBe_lun]
    rfl
  · rw [Bhs.serialize_u32At _ (by omega),hraw,Bhs.buildDataOut_itt]
  · rw [Bhs.serialize_u32At _ (by omega),hraw,Bhs.buildDataOut_ttt]

/-- Every PDU of a task of call `k` carries the LUN number `luns k`. -/
structure Addressed (luns : Nat → Nat) (log : List SessionEvent) : Prop where
  command : ∀ k c itt p, .sent (some k) (.command c itt) p ∈ log → decodeLun p.wireLun = luns k
  dataOut : ∀ pre p post, log = pre ++ .dataOut p :: post →
    ∀ k, outstanding pre p.itt = some k → decodeLun p.wireLun = luns k

/-- Commands carry the LUN number of their pipeline. Data-Outs carry LUN 0 and both tags of
an R2T that was received. -/
structure AddressedByTag (luns : Nat → Nat) (log : List SessionEvent) : Prop where
  command : ∀ k c itt p, .sent (some k) (.command c itt) p ∈ log → decodeLun p.wireLun = luns k
  dataOut : ∀ p, .dataOut p ∈ log → p.wireLun = 0 ∧ ∃ k q, .received k q ∈ log ∧
    q.bhs.opcode = .r2t ∧ Bhs.u32At p.bhs.serialize 16 = q.bhs.itt ∧
      Bhs.u32At p.bhs.serialize 20 = q.bhs.ttt

/-- Call `k` is issued by a pipeline created with the LUN number `luns k`. -/
def IssuedFor (luns : Nat → Nat) (k : Nat) (c : Command) : Prop :=
  ∃ negotiated blockSize totalBlocks,
    ((Pipeline.new (luns k) negotiated).setGeometry blockSize totalBlocks).Submits c

theorem IssuedFor.lun {luns : Nat → Nat} {k : Nat} {c : Command} (h : IssuedFor luns k c) :
    c.lun.toNat = encodeLun (luns k) := by
  obtain ⟨negotiated,blockSize,totalBlocks,h⟩ := h
  rw [h.lun,BitVec.toNat_ofNat]
  exact Nat.mod_eq_of_lt (encodeLun_lt (luns k))

/-- LUN numbers below 256 reach the wire in every command, and Data-Outs are addressed by
their tags. -/
theorem lun_addressed {luns : Nat → Nat} (hl : ∀ k, luns k < 256) {init stat : BitVec 32}
    {n : NegotiatedParams} {ls : List Label} {t : Session}
    (hq : ∀ l ∈ ls, l.Submitted (IssuedFor luns))
    (hr : Machine.run sessionStep (Session.start init stat n) ls = some t) :
    AddressedByTag luns t.log := by
  have hw := onWire_run hq hr
  refine ⟨fun k c itt p hp => ?_,fun p hp => ?_⟩
  · obtain ⟨hc,cmdSn,expStatSn,rfl⟩ := hw.command k c itt p hp
    rw [command_wireLun,hc.lun,decodeLun_encodeLun (hl k)]
  · obtain ⟨r,data,stat',sent,dataSn,⟨k,q,hq,ho,rfl⟩,hd⟩ := hw.dataOut p hp
    obtain ⟨hlun,hitt,httt⟩ := dataOutPdu_wireLun hd
    refine ⟨hlun,k,q,hq,ho,hitt.trans ?_,httt⟩
    rw [Pdu.itt,BitVec.ofNat_toNat,BitVec.setWidth_eq]

def smallPipeline (lun : Nat) : Pipeline :=
  (Pipeline.new lun { NegotiatedParams.defaults10g with immediateData := false }).setGeometry 2 100

def lunWrite (lun : Nat) : Command :=
  ⟨buildWrite 9 1,BitVec.ofNat 64 (encodeLun lun),2,false,some [1,2],none⟩

theorem lunWrite_submits (lun : Nat) : (smallPipeline lun).Submits (lunWrite lun) :=
  .write ⟨9,1,[1,2]⟩ _ rfl

def lunRun (lun : Nat) : List Label :=
  Label.prepare 0 (lunWrite lun) ++ Label.transmit 0 ++
    [.advance 0,.receive (readyToTransfer 0 7 0 2),.handle,.handle,.handleSent]

theorem lunRun_issued (luns : Nat → Nat) :
    ∀ l ∈ lunRun (luns 0), l.Submitted (IssuedFor luns) := by
  intro l hl
  have h : IssuedFor luns 0 (lunWrite (luns 0)) := ⟨_,2,100,lunWrite_submits (luns 0)⟩
  rcases List.mem_append.mp hl with hl | hl
  · exact submitted_alone h l hl
  · simp only [List.mem_cons,List.not_mem_nil,or_false] at hl
    rcases hl with rfl | rfl | rfl | rfl | rfl <;> trivial

theorem lun_addressed_lun_1 : ∃ t, Machine.run sessionStep (Session.start 5 0 .defaults10g)
    (lunRun 1) = some t ∧ t.log.length = 4 ∧ AddressedByTag (fun _ => 1) t.log := by
  have hr : Machine.run sessionStep (Session.start 5 0 .defaults10g) (lunRun 1) = some _ := rfl
  exact ⟨_,hr,rfl,lun_addressed (fun _ => by decide) (lunRun_issued fun _ => 1) hr⟩

/-- For LUN 1 the Data-Out names LUN 0; for LUN 256 the command does. -/
theorem lun_mismatch :
    (∃ t, (∀ l ∈ lunRun 1, l.Submitted (IssuedFor fun _ => 1)) ∧
      Machine.run sessionStep (Session.start 5 0 .defaults10g) (lunRun 1) = some t ∧
      ¬ Addressed (fun _ => 1) t.log) ∧
    ∃ t, (∀ l ∈ lunRun 256, l.Submitted (IssuedFor fun _ => 256)) ∧
      Machine.run sessionStep (Session.start 5 0 .defaults10g) (lunRun 256) = some t ∧
      ¬ Addressed (fun _ => 256) t.log := by
  refine ⟨⟨_,lunRun_issued fun _ => 1,rfl,fun h => ?_⟩,
    ⟨_,lunRun_issued fun _ => 256,rfl,fun h => ?_⟩⟩
  · exact absurd (h.dataOut [.took 0,.sent _ _ _,.received _ _] _ [] rfl 0 rfl) (by decide)
  · exact absurd (h.command 0 (lunWrite 256) 0 _ (List.mem_cons_of_mem _ (List.mem_cons_self ..)))
      (by decide)

end IscsiFuse.Iscsi
