import Mathlib.Data.List.Range
import Mathlib.Order.Interval.Finset.Nat
import IscsiFuse.Iscsi.CdbLayout
import IscsiFuse.Iscsi.Submit
import IscsiFuse.Iscsi.Wire
set_option autoImplicit false

/-!
The target of a write, as it reads the wire. It takes the immediate data as the first
bytes of the transfer, solicits the rest in any pieces and in any order, places
Data-Out by tag, transfer tag and buffer offset, and answers Good when all has come.
-/

namespace IscsiFuse.Iscsi

def Pdu.wireItt (p : Pdu) : Nat := (Bhs.u32At p.bhs.serialize 16).toNat

def Pdu.wireData (p : Pdu) : Bytes :=
  (p.data.getD []).take (Bytes.ofBe (p.bhs.serialize.window 5 3))

def writeRange (cdb : Bytes) : Option (Nat × Nat) := blockRange 0x2A 0x8A cdb

structure Burst where
  ttt : BitVec 32
  off : Nat
  len : Nat
  deriving DecidableEq

def Pdu.burst (p : Pdu) : Burst :=
  ⟨p.bhs.ttt,p.bhs.r2tBufferOffset.toNat,p.bhs.r2tDesiredLength.toNat⟩

/-- A write at the target: where it goes, what was solicited and what has come. -/
structure Transfer where
  lba : Nat
  edtl : Nat
  immediate : Nat
  bursts : List Burst
  pieces : List Patch

namespace Transfer

def opened (blockSize maxRecv : Nat) (p : Pdu) : Option Transfer := do
  let range ← writeRange (p.bhs.serialize.window 32 16)
  let edtl := (Bhs.u32At p.bhs.serialize 20).toNat
  if p.wireData.length ≤ maxRecv ∧ p.wireData.length ≤ edtl ∧ edtl = range.2*blockSize then
    pure ⟨range.1,edtl,p.wireData.length,[],[⟨0,p.wireData⟩]⟩
  else none

def solicit (x : Transfer) (b : Burst) : Option Transfer :=
  if 0 < b.len ∧ b.off+b.len ≤ x.edtl ∧ x.immediate ≤ b.off ∧
      ∀ c ∈ x.bursts, b.off+b.len ≤ c.off ∨ c.off+c.len ≤ b.off then
    some { x with bursts := b :: x.bursts }
  else none

/-- Data-Out for a burst, matched by the target transfer tag. -/
def receive (maxRecv : Nat) (x : Transfer) (p : Pdu) : Option Transfer :=
  let off := (Bhs.u32At p.bhs.serialize 40).toNat
  if p.wireData.length ≤ maxRecv ∧ ∃ b ∈ x.bursts, b.ttt = Bhs.u32At p.bhs.serialize 20 ∧
      b.off ≤ off ∧ off+p.wireData.length ≤ b.off+b.len then
    some { x with pieces := x.pieces ++ [⟨off,p.wireData⟩] }
  else none

def unsolicited (x : Transfer) : Finset Nat :=
  (Finset.Ico x.immediate x.edtl).filter (fun q => ∀ b ∈ x.bursts, q < b.off ∨ b.off+b.len ≤ q)

def Complete (x : Transfer) : Prop := ∀ q < x.edtl, ∃ w ∈ x.pieces, w.Covers q

instance (x : Transfer) : Decidable x.Complete :=
  inferInstanceAs (Decidable (∀ q < x.edtl, ∃ w ∈ x.pieces, w.Covers q))

def patch (blockSize : Nat) (x : Transfer) : Patch :=
  ⟨x.lba*blockSize,Image.read (Patch.applyAll (fun _ => 0) x.pieces) 0 x.edtl⟩

structure Of (x : Transfer) (lba : Nat) (data : Bytes) : Prop where
  lba : x.lba = lba
  edtl : x.edtl = data.length
  pieces : ∀ w ∈ x.pieces, ∀ q y, w.at? q = some y → data[q]? = some y

theorem Of.receive {x : Transfer} {lba : Nat} {data : Bytes} {v : Patch} (h : x.Of lba data)
    (hv : ∀ q y, v.at? q = some y → data[q]? = some y) :
    { x with pieces := x.pieces ++ [v] }.Of lba data := by
  refine ⟨h.lba,h.edtl,fun u hu => ?_⟩
  rcases List.mem_append.mp hu with hu | hu
  · exact h.pieces u hu
  · rwa [List.mem_singleton.mp hu]

theorem patch_eq {x : Transfer} {lba bs : Nat} {data : Bytes} (h : x.Of lba data)
    (hc : x.Complete) : x.patch bs = ⟨lba*bs,data⟩ := by
  rw [patch,h.lba,h.edtl]
  congr 1
  apply List.ext_getElem?
  intro q
  rw [Image.getElem?_read,Nat.zero_add]
  split
  · rename_i hq
    obtain ⟨w,hw,hcov⟩ := hc q (h.edtl ▸ hq)
    rw [List.getElem?_eq_getElem hq]
    congr 1
    refine Patch.applyAll_agree ⟨w,hw,hcov⟩ (fun v hv hvc => ?_)
    obtain ⟨y,hy⟩ := Patch.exists_at? hvc
    have hd := h.pieces v hv q y hy
    rw [List.getElem?_eq_getElem hq] at hd
    rw [hy,hd]
  · rename_i hq
    rw [List.getElem?_eq_none (by omega)]

theorem solicit_eq_some {x y : Transfer} {b : Burst} : x.solicit b = some y ↔
    (0 < b.len ∧ b.off+b.len ≤ x.edtl ∧ x.immediate ≤ b.off ∧
      ∀ c ∈ x.bursts, b.off+b.len ≤ c.off ∨ c.off+c.len ≤ b.off) ∧
        { x with bursts := b :: x.bursts } = y := by
  unfold solicit
  split <;> simp_all

theorem mem_unsolicited {x : Transfer} {q : Nat} : q ∈ x.unsolicited ↔
    (x.immediate ≤ q ∧ q < x.edtl) ∧ ∀ b ∈ x.bursts, q < b.off ∨ b.off+b.len ≤ q := by
  simp [unsolicited]

theorem unsolicited_card_le (x : Transfer) : x.unsolicited.card ≤ x.edtl := by
  have h := Finset.card_filter_le (Finset.Ico x.immediate x.edtl)
    (fun q => ∀ b ∈ x.bursts, q < b.off ∨ b.off+b.len ≤ q)
  rw [Nat.card_Ico] at h
  exact Nat.le_trans h (Nat.sub_le _ _)

theorem solicit_card {x y : Transfer} {b : Burst} (h : x.solicit b = some y) :
    y.unsolicited.card+b.len = x.unsolicited.card := by
  obtain ⟨⟨_,he,hi,hb⟩,rfl⟩ := solicit_eq_some.mp h
  have hsub : Finset.Ico b.off (b.off+b.len) ⊆ x.unsolicited := by
    intro q hq
    rw [Finset.mem_Ico] at hq
    refine mem_unsolicited.mpr ⟨by omega,fun c hc => ?_⟩
    have hbc := hb c hc
    omega
  have heq : Transfer.unsolicited { x with bursts := b :: x.bursts } =
      x.unsolicited \ Finset.Ico b.off (b.off+b.len) := by
    ext q
    simp only [Finset.mem_sdiff,mem_unsolicited,List.forall_mem_cons,Finset.mem_Ico]
    constructor
    · intro ⟨hq,hqb,hqx⟩
      exact ⟨⟨hq,hqx⟩,by omega⟩
    · intro ⟨⟨hq,hqx⟩,hqb⟩
      exact ⟨hq,by omega,hqx⟩
  have hle := Finset.card_le_card hsub
  rw [Nat.card_Ico] at hle
  rw [heq,Finset.card_sdiff_of_subset hsub,Nat.card_Ico]
  omega

end Transfer

theorem writeRange_buildWrite {lba blocks : Nat} (hl : lba < 2^64) (hb : blocks < 2^32) :
    writeRange (buildWrite lba blocks).bytes = some (lba,blocks) :=
  blockRange_select (by decide) hl hb

theorem wireItt_command (c : Command) {itt : Nat} (cmdSn expStatSn : BitVec 32) (h : itt < 2^32) :
    ((Sender.command c itt).pdu cmdSn expStatSn).wireItt = itt := by
  rw [Pdu.wireItt,Bhs.serialize_u32At _ (by omega),command_raw,Bhs.buildScsiCommand_itt,
    BitVec.toNat_ofNat,Nat.mod_eq_of_lt h]

theorem wireData_eq {q : Pdu} {d : Bytes} (hd : q.data = some d)
    (hl : q.bhs.dataSegmentLength = BitVec.ofNat 32 d.length) (h : d.length < 2^24) :
    q.wireData = d := by
  rw [Pdu.wireData,hd,Option.getD_some,Bhs.serialize_dataSegmentLength,hl,BitVec.toNat_ofNat,
    Nat.mod_eq_of_lt (show d.length < 2^32 by omega),Nat.mod_eq_of_lt h,List.take_length]

theorem wireData_command (c : Command) (itt : Nat) (cmdSn expStatSn : BitVec 32)
    (h : (c.immediateData.getD []).length < 2^24) :
    ((Sender.command c itt).pdu cmdSn expStatSn).wireData = c.immediateData.getD [] := by
  cases hd : c.immediateData with
  | none => simp [Pdu.wireData,Sender.pdu,hd]
  | some d =>
    rw [hd] at h
    exact wireData_eq (q := (Sender.command c itt).pdu cmdSn expStatSn) hd
      (by simp [Sender.pdu,hd,Bhs.setDataSegmentLength]) h

theorem immediateData_take (p : Pipeline) (data : Bytes) :
    ∃ n, n ≤ data.length ∧ (p.immediateData data).getD [] = data.take n := by
  unfold Pipeline.immediateData
  split
  · simp only
    split
    · refine ⟨_,?_,rfl⟩
      have hm := Nat.mod_le data.length (2^32)
      omega
    · exact ⟨0,Nat.zero_le _,rfl⟩
  · exact ⟨0,Nat.zero_le _,rfl⟩

theorem at?_window {data : Bytes} {off n q : Nat} {y : UInt8}
    (h : (Patch.mk off (data.window off n)).at? q = some y) : data[q]? = some y := by
  simp only [Patch.at?,Bytes.window,List.getElem?_take,List.getElem?_drop] at h
  split at h
  · rename_i hq
    split at h
    · rwa [Nat.add_sub_cancel' hq] at h
    · cases h
  · cases h

theorem opened_write {p : Pipeline} {w : WriteCommand} {c : Command} {maxRecv : Nat} (itt : Nat)
    (cmdSn expStatSn : BitVec 32) (hc : p.writeCommand w = some c)
    (hd : w.data.length = w.blocks*p.blockSize) (hlt : w.data.length < 2^24) (hl : w.lba < 2^64)
    (hb : w.blocks < 2^32) (hf : p.negotiated.firstBurstLength ≤ maxRecv) :
    ∃ x, Transfer.opened p.blockSize maxRecv ((Sender.command c itt).pdu cmdSn expStatSn) = some x ∧
      x.Of w.lba w.data ∧ x.bursts = [] ∧ ∀ q < x.immediate, ∃ v ∈ x.pieces, v.Covers q := by
  obtain ⟨hmul,rfl⟩ := Pipeline.writeCommand_eq_some hc
  obtain ⟨n,hn,himm⟩ := immediateData_take p w.data
  have hlen : ((p.immediateData w.data).getD []).length ≤ p.negotiated.firstBurstLength := by
    rw [Pipeline.immediateData_length]
    split <;> omega
  have hle : ((p.immediateData w.data).getD []).length ≤ w.data.length := by
    rw [himm,List.length_take]
    omega
  unfold Transfer.opened
  rw [wireData_command _ _ _ _ (by simp only; omega),Bhs.serialize_window _ (by omega),
    Bhs.serialize_u32At _ (by omega),command_raw,Bhs.buildScsiCommand_cdb,
    Bhs.buildScsiCommand_edtl,writeRange_buildWrite hl hb]
  simp only [Option.bind_eq_bind,Option.bind_some,BitVec.toNat_ofNat,Nat.mod_eq_of_lt hmul]
  rw [if_pos ⟨by omega,by omega,trivial⟩]
  refine ⟨_,rfl,⟨rfl,hd.symm,fun v hv q y hy => ?_⟩,rfl,fun q hq => ?_⟩
  · obtain rfl := List.mem_singleton.mp hv
    rw [himm] at hy
    exact at?_window hy
  · exact ⟨_,List.mem_singleton_self _,Nat.zero_le q,by simpa using hq⟩

theorem receive_dataOutPdu {x : Transfer} {r : R2t} {m maxRecv sent dataSn : Nat} {data : Bytes}
    (expStatSn : BitVec 32) (hb : ⟨r.ttt,r.bufferOffset,r.desiredLength⟩ ∈ x.bursts)
    (hin : r.bufferOffset+r.desiredLength ≤ data.length) (hlt : data.length < 2^24)
    (hi : r.itt < 2^32) (hs : sent < r.desiredLength) (hm : m ≤ maxRecv) :
    ∃ q, r.dataOutPdu m data expStatSn sent dataSn = some q ∧ q.wireItt = r.itt ∧
      x.receive maxRecv q = some { x with pieces := x.pieces ++
        [⟨r.bufferOffset+sent,data.window (r.bufferOffset+sent) (min (r.desiredLength-sent) m)⟩] } := by
  have hend : min (r.bufferOffset+sent+min (r.desiredLength-sent) m) data.length =
      r.bufferOffset+sent+min (r.desiredLength-sent) m := by omega
  have hlen : (data.window (r.bufferOffset+sent) (min (r.desiredLength-sent) m)).length =
      min (r.desiredLength-sent) m := Bytes.window_length (by omega)
  have hslice : slice data (r.bufferOffset+sent) (r.bufferOffset+sent+min (r.desiredLength-sent) m) =
      some (data.window (r.bufferOffset+sent) (min (r.desiredLength-sent) m)) := by
    rw [slice_eq_some,Nat.add_sub_cancel_left]
    exact ⟨by omega,rfl⟩
  have hburst : ∃ b ∈ x.bursts, b.ttt = r.ttt ∧ b.off ≤ r.bufferOffset+sent ∧
      r.bufferOffset+sent+min (r.desiredLength-sent) m ≤ b.off+b.len := by
    refine ⟨_,hb,rfl,Nat.le_add_right ..,?_⟩
    simp only
    omega
  obtain ⟨q,hq⟩ : ∃ q, r.dataOutPdu m data expStatSn sent dataSn = some q :=
    ⟨_,by simp only [R2t.dataOutPdu,hend,hslice]; rfl⟩
  obtain ⟨chunk,hc,hd,hl,hraw⟩ := dataOutPdu_eq_some hq
  rw [hend,hslice] at hc
  obtain rfl := Option.some.inj hc
  refine ⟨q,hq,?_,?_⟩
  · rw [Pdu.wireItt,Bhs.serialize_u32At _ (by omega),hraw,Bhs.buildDataOut_itt,BitVec.toNat_ofNat,
      Nat.mod_eq_of_lt hi]
  · unfold Transfer.receive
    rw [wireData_eq hd hl (by omega),hlen,Bhs.serialize_u32At _ (by omega),
      Bhs.serialize_u32At _ (by omega),hraw,Bhs.buildDataOut_ttt,Bhs.buildDataOut_bufferOffset]
    simp only [BitVec.toNat_ofNat]
    rw [Nat.mod_eq_of_lt (show r.bufferOffset+sent < 2^32 by omega),if_pos ⟨by omega,hburst⟩]

/-- The target: its transfers by tag, and its medium. -/
structure Target where
  transfers : Nat → Option Transfer
  medium : Image

namespace Target

def setTransfer (t : Target) (itt : Nat) (x : Option Transfer) : Target :=
  { t with transfers := Function.update t.transfers itt x }

/-- A SCSI Command comes, under a tag that is not in use. -/
def command (blockSize maxRecv : Nat) (t : Target) (q : Pdu) : Option Target :=
  match t.transfers q.wireItt with
  | some _ => none
  | none => (Transfer.opened blockSize maxRecv q).map (fun x => t.setTransfer q.wireItt (some x))

def dataOut (maxRecv : Nat) (t : Target) (q : Pdu) : Option Target := do
  let x ← t.transfers q.wireItt
  let y ← x.receive maxRecv q
  pure (t.setTransfer q.wireItt (some y))

def sends (blockSize : Nat) (t : Target) (p : Pdu) : Option Target := do
  let x ← t.transfers p.itt
  match p.bhs.opcode with
  | .r2t => (x.solicit p.burst).map (fun y => t.setTransfer p.itt (some y))
  | .scsiResponse => if p.bhs.scsiStatus = 0 ∧ x.Complete then
      some { t.setTransfer p.itt none with medium := (x.patch blockSize).apply t.medium } else none
  | _ => none

variable {blockSize : Nat} {t u : Target} {p : Pdu}

@[simp] theorem setTransfer_medium (t : Target) (itt : Nat) (x : Option Transfer) :
    (t.setTransfer itt x).medium = t.medium := rfl

@[simp] theorem setTransfer_self (t : Target) (itt : Nat) (x : Option Transfer) :
    (t.setTransfer itt x).transfers itt = x := by simp [setTransfer]

theorem setTransfer_other {i itt : Nat} {x : Option Transfer} (h : i ≠ itt) :
    (t.setTransfer itt x).transfers i = t.transfers i := by simp [setTransfer,h]

theorem command_eq_some {maxRecv : Nat} (h : t.command blockSize maxRecv p = some u) :
    t.transfers p.wireItt = none ∧ ∃ x, Transfer.opened blockSize maxRecv p = some x ∧
      u = t.setTransfer p.wireItt (some x) := by
  unfold command at h
  split at h
  · cases h
  · rename_i hn
    obtain ⟨x,hx,rfl⟩ := Option.map_eq_some_iff.mp h
    exact ⟨hn,x,hx,rfl⟩

theorem command_of_opened {maxRecv : Nat} {x : Transfer} (hn : t.transfers p.wireItt = none)
    (hx : Transfer.opened blockSize maxRecv p = some x) :
    t.command blockSize maxRecv p = some (t.setTransfer p.wireItt (some x)) := by
  simp [command,hn,hx]

theorem sends_cases (h : t.sends blockSize p = some u) : ∃ x, t.transfers p.itt = some x ∧
    ((p.bhs.opcode = .r2t ∧ ∃ y, x.solicit p.burst = some y ∧ u = t.setTransfer p.itt (some y)) ∨
    (p.bhs.opcode = .scsiResponse ∧ p.bhs.scsiStatus = 0 ∧ x.Complete ∧
      u = { t.setTransfer p.itt none with medium := (x.patch blockSize).apply t.medium })) := by
  simp only [sends,Option.bind_eq_bind,Option.bind_eq_some_iff] at h
  obtain ⟨x,hx,h⟩ := h
  refine ⟨x,hx,?_⟩
  split at h
  · rename_i ho
    obtain ⟨y,hy,rfl⟩ := Option.map_eq_some_iff.mp h
    exact Or.inl ⟨ho,y,hy,rfl⟩
  · rename_i ho
    split at h
    · rename_i hc
      cases h
      exact Or.inr ⟨ho,hc.1,hc.2,rfl⟩
    · cases h
  · cases h

theorem sends_r2t {x y : Transfer} (hx : t.transfers p.itt = some x) (ho : p.bhs.opcode = .r2t)
    (hy : x.solicit p.burst = some y) :
    t.sends blockSize p = some (t.setTransfer p.itt (some y)) := by
  simp [sends,hx,ho,hy]

theorem sends_good {x : Transfer} (hx : t.transfers p.itt = some x)
    (ho : p.bhs.opcode = .scsiResponse) (hs : p.bhs.scsiStatus = 0) (hc : x.Complete) :
    t.sends blockSize p = some { t.setTransfer p.itt none with
      medium := (x.patch blockSize).apply t.medium } := by
  simp [sends,hx,ho,hs,hc]

end Target

end IscsiFuse.Iscsi
