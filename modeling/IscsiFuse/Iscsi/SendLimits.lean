import IscsiFuse.Iscsi.Submit
import IscsiFuse.Iscsi.Wire
set_option autoImplicit false

namespace IscsiFuse.Iscsi
open Session

def Pdu.dataLength (p : Pdu) : Nat := (p.data.getD []).length

/-- No data segment is longer than the target takes; immediate data are within the first
burst and the expected transfer length in bytes 20-23. -/
structure Limited (n : NegotiatedParams) (log : List SessionEvent) : Prop where
  command : ∀ k c itt p, .sent (some k) (.command c itt) p ∈ log →
    p.dataLength ≤ n.maxSendDataSegmentLength ∧ p.dataLength ≤ n.firstBurstLength ∧
      p.dataLength ≤ (Bhs.u32At p.bhs.serialize 20).toNat
  dataOut : ∀ p, .dataOut p ∈ log → p.dataLength ≤ n.maxSendDataSegmentLength

/-- The same of the immediate data of a command. -/
def Command.Limited (n : NegotiatedParams) (c : Command) : Prop :=
  let len := (c.immediateData.getD []).length
  len ≤ n.maxSendDataSegmentLength ∧ len ≤ n.firstBurstLength ∧ len ≤ c.edtl.toNat

/-- Immediate data are off, or there is no block to write, or the first command has room for
the burst that goes out with it. A write in one command sends what is over its last block, too. -/
def Pipeline.ImmediateFits (p : Pipeline) (data : Bytes) : Prop :=
  let len := data.length%2^32
  let blocks := len/p.blockSize
  let burst := p.negotiated.firstBurstLength
  let limit := p.negotiated.maxSendDataSegmentLength
  p.negotiated.immediateData = false ∨ blocks = 0 ∨
    if blocks ≤ p.maxWriteBlocks then min len burst ≤ min limit (blocks*p.blockSize)
    else min (p.maxWriteBlocks*p.blockSize) burst ≤ limit

/-- The commands of the writes in `W`, and any others that write nothing. -/
def Pipeline.Issues (p : Pipeline) (W : Nat → Bytes → Prop) (_ : Nat) (c : Command) : Prop :=
  (∃ lba data ws w, W lba data ∧ p.writeCommands lba data = some ws ∧ w ∈ ws ∧
    p.writeCommand w = some c) ∨ (p.Submits c ∧ c.write = false)

variable {n : NegotiatedParams}

theorem command_dataLength (c : Command) (itt : Nat) (cmdSn expStatSn : BitVec 32) :
    ((Sender.command c itt).pdu cmdSn expStatSn).dataLength = (c.immediateData.getD []).length :=
  rfl

theorem command_edtl (c : Command) (itt : Nat) (cmdSn expStatSn : BitVec 32) :
    Bhs.u32At ((Sender.command c itt).pdu cmdSn expStatSn).bhs.serialize 20 = c.edtl := by
  rw [Bhs.serialize_u32At _ (by omega),command_raw,Bhs.buildScsiCommand_edtl]

theorem dataOutPdu_dataLength {r : R2t} {m sent dataSn : Nat} {data : Bytes} {stat : BitVec 32}
    {p : Pdu} (h : r.dataOutPdu m data stat sent dataSn = some p) : p.dataLength ≤ m := by
  obtain ⟨chunk,hc,hp,_⟩ := dataOutPdu_eq_some h
  obtain ⟨_,rfl⟩ := slice_eq_some.mp hc
  rw [Pdu.dataLength,hp,Option.getD_some,List.length_take]
  omega

theorem OnWire.limited {Q : Nat → Command → Prop} {log : List SessionEvent}
    (h : OnWire Q n log) (hs : 0 < n.maxSendDataSegmentLength)
    (hq : ∀ k c, Q k c → c.Limited n) : Limited n log where
  command := by
    intro k c itt p hp
    obtain ⟨hc,cmdSn,expStatSn,rfl⟩ := h.command k c itt p hp
    rw [command_dataLength,command_edtl]
    exact hq k c hc
  dataOut := by
    intro p hp
    obtain ⟨r,data,stat,sent,dataSn,_,hd⟩ := h.dataOut p hp
    exact maxSegment_eq hs ▸ dataOutPdu_dataLength hd

theorem limited_of_not_write {p : Pipeline} {c : Command} (h : p.Submits c) (hw : c.write = false) :
    c.Limited n := by
  have hn : c.immediateData = none := by
    cases h with
    | write w c h =>
      obtain ⟨_,rfl⟩ := Pipeline.writeCommand_eq_some h
      cases hw
    | _ => rfl
  simp [Command.Limited,hn]

namespace Pipeline

theorem limited_writeCommand {p : Pipeline} {w : WriteCommand} {c : Command}
    (h : p.writeCommand w = some c) : c.Limited p.negotiated ↔ p.negotiated.immediateData = false ∨
      min (w.data.length%2^32) p.negotiated.firstBurstLength ≤
        min p.negotiated.maxSendDataSegmentLength (w.blocks*p.blockSize) := by
  obtain ⟨hlt,rfl⟩ := writeCommand_eq_some h
  simp only [Command.Limited,immediateData_length,BitVec.toNat_ofNat,Nat.mod_eq_of_lt hlt]
  cases p.negotiated.immediateData with
  | false => simp
  | true =>
    simp only [if_true,Bool.true_eq_false,false_or]
    omega

theorem limited_iff_fits {p : Pipeline} {lba : Nat} {data : Bytes} {ws : List WriteCommand}
    (h : p.writeCommands lba data = some ws) :
    (∀ w ∈ ws, ∀ c, p.writeCommand w = some c → c.Limited p.negotiated) ↔ p.ImmediateFits data := by
  have hdiv := Nat.div_mul_le_self (data.length%2^32) p.blockSize
  have hmod : data.length%2^32 < 2^32 := Nat.mod_lt _ (by decide)
  unfold ImmediateFits
  simp only
  rcases writeCommands_cases h with ⟨hz,rfl⟩ | ⟨hpos,hle,rfl⟩ | ⟨hlt,hall,w,hw,hwb⟩
  · exact ⟨fun _ => Or.inr (Or.inl hz),fun _ w hw => by cases hw⟩
  · rw [if_pos hle]
    constructor
    · intro hc
      obtain ⟨c,hc'⟩ := writeCommand_isSome (p := p)
        (w := ⟨lba,data.length%2^32/p.blockSize,data⟩) (Nat.lt_of_le_of_lt hdiv hmod)
      rcases (limited_writeCommand hc').mp (hc _ (List.mem_singleton_self _) c hc') with hi | hi
      · exact Or.inl hi
      · exact Or.inr (Or.inr hi)
    · intro hf w hw c hc
      obtain rfl := List.mem_singleton.mp hw
      rw [limited_writeCommand hc]
      rcases hf with hi | hi | hi
      · exact Or.inl hi
      · omega
      · exact Or.inr hi
  · have hb : ∀ b, b ≤ p.maxWriteBlocks → b*p.blockSize < 2^32 := fun b hb =>
      Nat.lt_of_le_of_lt (Nat.mul_le_mul_right p.blockSize (Nat.le_of_lt (Nat.lt_of_le_of_lt hb hlt)))
        (Nat.lt_of_le_of_lt hdiv hmod)
    rw [if_neg (by omega)]
    constructor
    · intro hc
      obtain ⟨c,hc'⟩ := writeCommand_isSome (p := p) (w := w) (hb _ (hall w hw).1)
      rcases (limited_writeCommand hc').mp (hc w hw c hc') with hi | hi
      · exact Or.inl hi
      · have hlen := (hall w hw).2
        have hlw := hb _ (hall w hw).1
        rw [hlen,Nat.mod_eq_of_lt hlw,hwb] at hi
        exact Or.inr (Or.inr (by omega))
    · intro hf w' hw' c hc
      obtain ⟨hle,hlen⟩ := hall w' hw'
      have hmul := Nat.mul_le_mul_right p.blockSize hle
      rw [limited_writeCommand hc,hlen,Nat.mod_eq_of_lt (hb _ hle)]
      rcases hf with hi | hi | hi
      · exact Or.inl hi
      · omega
      · exact Or.inr (by omega)

end Pipeline

/-- Every run of the writes in `W`, with any R2Ts, keeps the limits exactly when the immediate
data of each of them fit. -/
theorem send_limits_iff {p : Pipeline} (hs : 0 < p.negotiated.maxSendDataSegmentLength)
    (W : Nat → Bytes → Prop) :
    (∀ init stat ls t, (∀ l ∈ ls, l.Submitted (p.Issues W)) →
      Machine.run sessionStep (Session.start init stat p.negotiated) ls = some t →
        Limited p.negotiated t.log) ↔
      ∀ lba data ws, W lba data → p.writeCommands lba data = some ws → p.ImmediateFits data := by
  constructor
  · intro h lba data ws hW hws
    refine (Pipeline.limited_iff_fits hws).mp (fun w hw c hc => ?_)
    have hq : p.Issues W 0 c := Or.inl ⟨lba,data,ws,w,hW,hws,hw,hc⟩
    obtain ⟨t,hr,q,hm⟩ := sent_alone p.negotiated c
    obtain ⟨_,_,_,rfl⟩ := (onWire_run (submitted_alone hq) hr).command 0 c 0 q hm
    have hl := (h 1 0 _ t (submitted_alone hq) hr).command 0 c 0 _ hm
    rwa [command_dataLength,command_edtl] at hl
  · intro h init stat ls t hq hr
    refine (onWire_run hq hr).limited hs (fun k c hc => ?_)
    rcases hc with ⟨lba,data,ws,w,hW,hws,hw,hc⟩ | ⟨hc,hw⟩
    · exact (Pipeline.limited_iff_fits hws).mpr (h lba data ws hW hws) w hw c hc
    · exact limited_of_not_write hc hw

def diskOf (n : NegotiatedParams) : Pipeline := (Pipeline.new 0 n).setGeometry 512 2048

def Writes16k (lba : Nat) (data : Bytes) : Prop := lba = 0 ∧ data.length = 16384

theorem writes16k_commands {n : NegotiatedParams} (h : n.maxBurstLength = 1048576) {data : Bytes}
    (hd : data.length = 16384) : (diskOf n).writeCommands 0 data = some [⟨0,32,data⟩] := by
  have hm : (diskOf n).maxWriteBlocks = 2048 := by
    simp only [Pipeline.maxWriteBlocks,maxReadBlocksFor,diskOf,Pipeline.setGeometry,Pipeline.new,h]
    rfl
  have hg : computeReadChunks 0 32 2048 = some [(0,32)] := by decide
  have he : data.isEmpty = false := by
    cases data with
    | nil => cases hd
    | cons _ _ => rfl
  unfold Pipeline.writeCommands
  simp only [he,hd,computeWriteChunks,hm]
  simp [diskOf,Pipeline.setGeometry,hg]

theorem send_limits_large_segments : 0 < NegotiatedParams.defaults10g.maxSendDataSegmentLength ∧
    ∀ init stat ls t, (∀ l ∈ ls, l.Submitted ((diskOf .defaults10g).Issues Writes16k)) →
      Machine.run sessionStep (Session.start init stat .defaults10g) ls = some t →
        Limited .defaults10g t.log := by
  refine ⟨by decide,(send_limits_iff (p := diskOf .defaults10g) (by decide) Writes16k).mpr ?_⟩
  intro lba data ws hW hws
  unfold Pipeline.ImmediateFits
  rw [hW.2]
  decide

/-- The target takes segments of 8 KiB, and 16 KiB go out with the command. -/
theorem immediate_data_too_long : ∃ n,
    NegotiatedParams.defaults10g.applyTargetResponse (utf8 "MaxRecvDataSegmentLength=8192\x00") =
      .ok n ∧ 0 < n.maxSendDataSegmentLength ∧ n.maxSendDataSegmentLength < 2^24 ∧
      ∃ ls t, (∀ l ∈ ls, l.Submitted ((diskOf n).Issues Writes16k)) ∧
        Machine.run sessionStep (Session.start 1 0 n) ls = some t ∧ ¬ Limited n t.log := by
  obtain ⟨data,hd⟩ : ∃ data : Bytes, data.length = 16384 :=
    ⟨List.replicate 16384 0,List.length_replicate⟩
  let n : NegotiatedParams := { NegotiatedParams.defaults10g with maxSendDataSegmentLength := 8192 }
  obtain ⟨c,hc⟩ := Pipeline.writeCommand_isSome (p := diskOf n) (w := ⟨0,32,data⟩)
    (show 32*512 < 2^32 by decide)
  have hq : (diskOf n).Issues Writes16k 0 c :=
    Or.inl ⟨0,data,_,_,⟨rfl,hd⟩,writes16k_commands rfl hd,List.mem_singleton_self _,hc⟩
  obtain ⟨t,hr,q,hm⟩ := sent_alone n c
  refine ⟨n,rfl,by decide,by decide,_,t,submitted_alone hq,hr,fun h => ?_⟩
  obtain ⟨_,_,_,rfl⟩ := (onWire_run (submitted_alone hq) hr).command 0 c 0 q hm
  have hl := (h.command 0 c 0 _ hm).1
  obtain ⟨_,rfl⟩ := Pipeline.writeCommand_eq_some hc
  rw [command_dataLength,Pipeline.immediateData_length,hd] at hl
  exact absurd hl (by decide)

end IscsiFuse.Iscsi
