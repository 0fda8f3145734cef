import IscsiFuse.Iscsi.Pdu
set_option autoImplicit false

namespace IscsiFuse.Iscsi

/-- The builders with their arguments. -/
inductive Builder where
  | scsiCommand (lun : BitVec 64) (itt cmdSn expStatSn : BitVec 32) (cdb : Bytes.Sized 16)
      (edtl : BitVec 32) (read write : Bool)
  | dataOut (lun : BitVec 64) (itt ttt expStatSn dataSn bufferOffset : BitVec 32)
  | loginRequest (isid : Bytes.Sized 6) (tsih cid : BitVec 16) (itt cmdSn expStatSn : BitVec 32)
      (csg nsg : UInt8) (transit : Bool)
  | nopOut (itt ttt cmdSn expStatSn : BitVec 32)
  | logoutRequest (itt cmdSn expStatSn : BitVec 32) (cid : BitVec 16)
  | scsiResponse (itt : BitVec 32) (scsiStatus : UInt8) (statSn expCmdSn maxCmdSn : BitVec 32)
  | dataIn (itt dataSn bufferOffset dataLen : BitVec 32) (statusFlag : Bool) (scsiStatus : UInt8)
      (statSn expCmdSn maxCmdSn : BitVec 32)
  | nopIn (itt ttt statSn expCmdSn maxCmdSn : BitVec 32)
  | r2t (itt ttt statSn expCmdSn maxCmdSn r2tSn bufferOffset desiredLength : BitVec 32)

namespace Builder

def build : Builder → Bhs
  | scsiCommand lun itt cmdSn expStatSn cdb edtl read write =>
    .buildScsiCommand lun itt cmdSn expStatSn cdb.1 cdb.2 edtl read write
  | dataOut lun itt ttt expStatSn dataSn bufferOffset =>
    .buildDataOut lun itt ttt expStatSn dataSn bufferOffset
  | loginRequest isid tsih cid itt cmdSn expStatSn csg nsg transit =>
    .buildLoginRequest isid tsih cid itt cmdSn expStatSn csg nsg transit
  | nopOut itt ttt cmdSn expStatSn => .buildNopOut itt ttt cmdSn expStatSn
  | logoutRequest itt cmdSn expStatSn cid => .buildLogoutRequest itt cmdSn expStatSn cid
  | scsiResponse itt scsiStatus statSn expCmdSn maxCmdSn =>
    .buildScsiResponse itt scsiStatus statSn expCmdSn maxCmdSn
  | dataIn itt dataSn bufferOffset dataLen statusFlag scsiStatus statSn expCmdSn maxCmdSn =>
    .buildDataIn itt dataSn bufferOffset dataLen statusFlag scsiStatus statSn expCmdSn maxCmdSn
  | nopIn itt ttt statSn expCmdSn maxCmdSn => .buildNopIn itt ttt statSn expCmdSn maxCmdSn
  | r2t itt ttt statSn expCmdSn maxCmdSn r2tSn bufferOffset desiredLength =>
    .buildR2t itt ttt statSn expCmdSn maxCmdSn r2tSn bufferOffset desiredLength

/-- The arguments are in range. -/
def Fits : Builder → Prop
  | loginRequest _ _ _ _ _ _ csg nsg _ => csg < 4 ∧ nsg < 4
  | dataIn _ _ _ dataLen _ _ _ _ _ => dataLen.toNat < 2^24
  | _ => True

/-- The tag the builder takes. -/
def itt : Builder → BitVec 32
  | scsiCommand _ itt _ _ _ _ _ _ | dataOut _ itt _ _ _ _ | loginRequest _ _ _ itt _ _ _ _ _
  | nopOut itt _ _ _ | logoutRequest itt _ _ _ | scsiResponse itt _ _ _ _
  | dataIn itt _ _ _ _ _ _ _ _ | nopIn itt _ _ _ _ | r2t itt _ _ _ _ _ _ _ => itt

/-- The accessors give the arguments back. -/
def Reads (x : Builder) (q : Bhs) : Prop :=
  match x with
  | scsiCommand _ _ cmdSn expStatSn cdb edtl _ _ => q.cmdSn = cmdSn ∧ q.expStatSn = expStatSn ∧
      q.raw.window 32 16 = cdb.1 ∧ Bhs.u32At q.raw 20 = edtl
  | dataOut _ _ ttt expStatSn dataSn bufferOffset => q.ttt = ttt ∧ q.expStatSn = expStatSn ∧
      q.dataSn = dataSn ∧ q.bufferOffset = bufferOffset
  | loginRequest _ tsih _ _ cmdSn expStatSn _ _ _ => q.tsih = tsih ∧ q.cmdSn = cmdSn ∧
      q.expStatSn = expStatSn
  | nopOut _ ttt cmdSn expStatSn => q.ttt = ttt ∧ q.cmdSn = cmdSn ∧ q.expStatSn = expStatSn
  | logoutRequest _ cmdSn expStatSn _ => q.cmdSn = cmdSn ∧ q.expStatSn = expStatSn
  | scsiResponse _ scsiStatus statSn expCmdSn maxCmdSn => q.scsiStatus = scsiStatus ∧
      q.statSn = statSn ∧ q.expCmdSn = expCmdSn ∧ q.maxCmdSn = maxCmdSn
  | dataIn _ dataSn bufferOffset _ statusFlag scsiStatus statSn expCmdSn maxCmdSn =>
      q.dataSn = dataSn ∧ q.bufferOffset = bufferOffset ∧ q.expCmdSn = expCmdSn ∧
        q.maxCmdSn = maxCmdSn ∧ (statusFlag = true → q.scsiStatus = scsiStatus ∧ q.statSn = statSn)
  | nopIn _ ttt statSn expCmdSn maxCmdSn => q.ttt = ttt ∧ q.statSn = statSn ∧
      q.expCmdSn = expCmdSn ∧ q.maxCmdSn = maxCmdSn
  | r2t _ ttt statSn expCmdSn maxCmdSn r2tSn bufferOffset desiredLength => q.ttt = ttt ∧
      q.statSn = statSn ∧ q.expCmdSn = expCmdSn ∧ q.maxCmdSn = maxCmdSn ∧ q.r2tSn = r2tSn ∧
        q.r2tBufferOffset = bufferOffset ∧ q.r2tDesiredLength = desiredLength

end Builder

namespace Bhs

/-- What the callers do to a header before it is sent. -/
def amend (b : Bhs) (flags : Option UInt8) (length : Option Nat) : Bhs :=
  let b := match flags with
    | some f => b.setFlags f
    | none => b
  match length with
  | some n => b.setDataSegmentLength n
  | none => b

structure SameFields (b q : Bhs) : Prop where
  opcode : q.opcode = b.opcode
  immediate : q.immediate = b.immediate
  flags : q.flags = b.flags
  dataSegmentLength : q.dataSegmentLength = b.dataSegmentLength
  itt : q.itt = b.itt

/-- The bytes that the opcode-specific accessors read, flags apart. -/
structure SameBytes (b q : Bhs) : Prop where
  status : q.scsiStatus = b.scsiStatus
  window : ∀ off n, 8 ≤ off → q.raw.window off n = b.raw.window off n

/-- The tag stands in the bytes as well. -/
def Synced (b : Bhs) : Prop := u32At b.raw 16 = b.itt

@[simp] theorem amend_raw (b : Bhs) (flags : Option UInt8) (length : Option Nat) :
    (b.amend flags length).raw = b.raw := by
  cases flags <;> cases length <;> rfl

@[simp] theorem amend_itt (b : Bhs) (flags : Option UInt8) (length : Option Nat) :
    (b.amend flags length).itt = b.itt := by
  cases flags <;> cases length <;> rfl

theorem amend_length {b : Bhs} (flags : Option UInt8) {length : Option Nat}
    (hb : b.dataSegmentLength.toNat < 2^24) (hl : ∀ n ∈ length, n < 2^24) :
    (b.amend flags length).dataSegmentLength.toNat < 2^24 := by
  cases length with
  | none => cases flags <;> exact hb
  | some n =>
    have hn : n < 2^24 := hl n rfl
    have hlen : (b.amend flags (some n)).dataSegmentLength = BitVec.ofNat 32 n := by
      cases flags <;> rfl
    rw [hlen,BitVec.toNat_ofNat,Nat.mod_eq_of_lt (by omega)]
    exact hn

theorem parse_same {b : Bhs} (hs : b.Synced) (h : b.dataSegmentLength.toNat < 2^24) :
    ∃ q, parse ⟨b.serialize,b.serialize_length⟩ = .ok q ∧ SameFields b q ∧ SameBytes b q := by
  refine ⟨_,parse_serialize_eq h,⟨rfl,rfl,rfl,rfl,?_⟩,rfl,fun off n ho => serialize_window b ho n⟩
  exact (serialize_u32At b (by decide)).trans hs

theorem SameBytes.u32At {b q : Bhs} (h : SameBytes b q) {off : Nat} (ho : 8 ≤ off) :
    u32At q.raw off = u32At b.raw off := by
  rw [Bhs.u32At,Bhs.u32At,h.window off 4 ho]

theorem SameBytes.tsih {b q : Bhs} (h : SameBytes b q) : q.tsih = b.tsih := by
  rw [Bhs.tsih,Bhs.tsih,h.window 14 2 (by decide)]

@[simp] theorem tsih_setRawU16 (b : Bhs) (value : BitVec 16) (h : 14+2 ≤ 48) :
    (b.setRawU16 14 value h).tsih = value := by
  have hoff : 14 ≤ b.raw.length := by
    rw [b.size]
    decide
  have hw := Bytes.window_place (w := Bytes.toBe 2 value.toNat) hoff
  rw [Bytes.toBe_length] at hw
  have hv : value.toNat < 256^2 := value.isLt
  rw [Bhs.tsih,setRawU16,setRaw,hw,Bytes.ofBe_toBe,Nat.mod_eq_of_lt hv,BitVec.ofNat_toNat]
  simp

theorem tsih_setRaw (b : Bhs) {off : Nat} {w : Bytes} (h : off+w.length ≤ 48) (ho : 16 ≤ off) :
    (b.setRaw off w h).tsih = b.tsih := by
  rw [Bhs.tsih,setRaw,Bytes.window_place_apart (by rw [b.size]; omega) (Or.inl (by omega))]
  rfl

theorem tsih_setRawU16_apart (b : Bhs) {off : Nat} (value : BitVec 16) (h : off+2 ≤ 48)
    (ho : 16 ≤ off) : (b.setRawU16 off value h).tsih = b.tsih := b.tsih_setRaw _ ho

theorem tsih_setRawU32 (b : Bhs) {off : Nat} (value : BitVec 32) (h : off+4 ≤ 48)
    (ho : 16 ≤ off) : (b.setRawU32 off value h).tsih = b.tsih := b.tsih_setRaw _ ho

theorem SameBytes.cdb {b q : Bhs} (h : SameBytes b q) : q.raw.window 32 16 = b.raw.window 32 16 :=
  h.window 32 16 (by decide)

end Bhs

namespace Builder
open Bhs

theorem Reads.same {b q : Bhs} {x : Builder} (hr : x.Reads b) (h : SameBytes b q) : x.Reads q := by
  cases x <;> simpa (disch := decide) only [Reads,Bhs.cmdSn,Bhs.expStatSn,Bhs.ttt,Bhs.dataSn,
    Bhs.bufferOffset,Bhs.statSn,Bhs.expCmdSn,Bhs.maxCmdSn,Bhs.r2tSn,Bhs.r2tBufferOffset,
    Bhs.r2tDesiredLength,h.u32At,h.tsih,h.status,h.cdb] using hr

theorem reads_build (x : Builder) : x.Reads x.build := by
  cases x with
  | scsiCommand lun itt cmdSn expStatSn cdb edtl read write =>
    have hcdb := buildScsiCommand_cdb lun itt cmdSn expStatSn cdb.1 cdb.2 edtl read write
    refine ⟨cmdSn_buildScsiCommand _ _ _ _ _ cdb.2 _ _ _,?_,hcdb,
      buildScsiCommand_edtl _ _ _ _ _ cdb.2 _ _ _⟩
    rw [Bhs.expStatSn,build,buildScsiCommand,u32At_setRaw _ _ (by omega),u32At_setRawU32]
  | loginRequest isid tsih cid itt cmdSn expStatSn csg nsg transit =>
    simp (disch := omega) only [Reads,Bhs.cmdSn,Bhs.expStatSn,build,buildLoginRequest,
      u32At_setRawU32,u32At_setRawU32_apart,tsih_setRawU32,tsih_setRawU16_apart,tsih_setRawU16,
      and_self]
  | scsiResponse itt scsiStatus statSn expCmdSn maxCmdSn =>
    refine ⟨buildScsiResponse_status ..,?_⟩
    simp (disch := omega) only [Bhs.statSn,Bhs.expCmdSn,Bhs.maxCmdSn,build,buildScsiResponse,
      u32At_setRawU32,u32At_setRawU32_apart,and_self]
  | dataIn itt dataSn bufferOffset dataLen statusFlag scsiStatus statSn expCmdSn maxCmdSn =>
    simp (disch := omega) only [Reads,Bhs.dataSn,Bhs.bufferOffset,Bhs.expCmdSn,Bhs.maxCmdSn,
      Bhs.statSn,build,buildDataIn,u32At_setRawU32,u32At_setRawU32_apart,scsiStatus_setRawU32,
      true_and]
    intro hs
    rw [if_pos hs]
    exact ⟨(scsiStatus_setRawU32 _ _ _ (by decide)).trans (scsiStatus_setRaw_self ..),
      u32At_setRawU32 ..⟩
  | _ =>
    simp (disch := omega) only [Reads,Bhs.cmdSn,Bhs.expStatSn,Bhs.ttt,Bhs.dataSn,Bhs.bufferOffset,
      Bhs.statSn,Bhs.expCmdSn,Bhs.maxCmdSn,Bhs.r2tSn,Bhs.r2tBufferOffset,Bhs.r2tDesiredLength,
      build,buildDataOut,buildNopOut,buildLogoutRequest,buildNopIn,buildR2t,
      u32At_setRawU32,u32At_setRawU32_apart,and_self]

theorem synced_build (x : Builder) : x.build.Synced := by
  cases x with
  | scsiCommand lun itt cmdSn expStatSn cdb edtl read write =>
    exact buildScsiCommand_itt _ _ _ _ _ cdb.2 _ _ _
  | loginRequest isid tsih cid itt cmdSn expStatSn csg nsg transit =>
    have hisid := isid.2
    rw [Synced,build,buildLoginRequest,u32At_setRawU32_apart _ _ (by omega),
      u32At_setRawU32_apart _ _ (by omega),u32At_setRawU16 _ _ (by omega),
      u32At_setRawU16 _ _ (by omega),u32At_setRaw _ _ (by omega),u32At_setRaw _ _ (by simp),
      u32At_setRaw _ _ (by simp),itt_syncRawFromFields]
    rfl
  | scsiResponse itt scsiStatus statSn expCmdSn maxCmdSn =>
    rw [Synced,build,buildScsiResponse,u32At_setRawU32_apart _ _ (by omega),
      u32At_setRawU32_apart _ _ (by omega),u32At_setRawU32_apart _ _ (by omega),
      u32At_setRaw _ _ (by simp),itt_syncRawFromFields]
    rfl
  | dataIn itt dataSn bufferOffset dataLen statusFlag scsiStatus statSn expCmdSn maxCmdSn =>
    rw [Synced,build,buildDataIn]
    simp (disch := omega) only [u32At_setRawU32_apart]
    cases statusFlag with
    | false => exact itt_syncRawFromFields _
    | true =>
      rw [if_pos rfl,u32At_setRawU32_apart _ _ (by omega),u32At_setRaw _ _ (by simp),
        itt_syncRawFromFields]
      rfl
  | dataOut | nopOut | logoutRequest | nopIn | r2t =>
    rw [Synced,build]
    simp (disch := omega) only [buildDataOut,buildNopOut,buildLogoutRequest,buildNopIn,buildR2t,
      u32At_setRawU32_apart,u32At_setRawU16,itt_syncRawFromFields]
    rfl

theorem build_itt (x : Builder) : x.build.itt = x.itt := by
  cases x with
  | dataIn itt dataSn bufferOffset dataLen statusFlag => cases statusFlag <;> rfl
  | _ => rfl

theorem Fits.length {x : Builder} (h : x.Fits) : x.build.dataSegmentLength.toNat < 2^24 := by
  cases x with
  | dataIn itt dataSn bufferOffset dataLen statusFlag =>
    cases statusFlag <;> exact h
  | _ => exact Nat.two_pow_pos 24

end Builder

/-- What is lost of a header that is read: the top bit of its first byte, and byte 4. -/
def cleared (buf : Bytes) : Bytes := (buf.set 0 (buf.getD 0 0 &&& 0x7F)).set 4 0

theorem ite_ok {c : Prop} [Decidable c] {o p : Opcode} {x : Except Error Opcode}
    (h : (if c then .ok p else x) = .ok o) : c ∧ p = o ∨ x = .ok o := by
  by_cases hc : c
  · rw [if_pos hc] at h
    exact Or.inl ⟨hc,Except.ok.inj h⟩
  · rw [if_neg hc] at h
    exact Or.inr h

theorem Opcode.code_tryFrom {v : UInt8} {o : Opcode} (h : tryFrom v = .ok o) : o.code = v := by
  unfold tryFrom at h
  iterate 18
    rcases ite_ok h with ⟨hv,rfl⟩ | h
    · exact hv.symm
  cases h

theorem first_byte_parts (b : UInt8) :
    (if decide (b &&& 0x40 ≠ 0) then 0x40 else 0x00) ||| (b &&& 0x3F) = b &&& 0x7F := by
  have hall : ∀ n < 256, (if decide (UInt8.ofNat n &&& 0x40 ≠ 0) then 0x40 else 0x00) |||
      (UInt8.ofNat n &&& 0x3F) = UInt8.ofNat n &&& 0x7F := by decide +kernel
  have hb := hall b.toNat b.toNat_lt
  rwa [UInt8.ofNat_toNat] at hb

namespace Bhs

variable {buf : Bytes.Sized 48} {b : Bhs}

theorem parse_eq_ok (h : parse buf = .ok b) : b.opcode.code = buf.1.getD 0 0 &&& 0x3F ∧ b =
    { raw := buf.1
      size := buf.2
      opcode := b.opcode
      immediate := buf.1.getD 0 0 &&& 0x40 ≠ 0
      flags := buf.1.getD 1 0
      dataSegmentLength := BitVec.ofNat 32 (Bytes.ofBe (buf.1.window 5 3))
      lun := BitVec.ofNat 64 (Bytes.ofBe (buf.1.window 8 8))
      itt := u32At buf.1 16 } := by
  obtain ⟨o,ho,h⟩ := bind_eq_ok.mp h
  cases h
  exact ⟨Opcode.code_tryFrom ho,rfl⟩

theorem synced_parse (h : parse buf = .ok b) : b.Synced := by
  rw [(parse_eq_ok h).2]
  rfl

theorem length_parse (h : parse buf = .ok b) : b.dataSegmentLength.toNat < 2^24 := by
  have hlt := Bytes.ofBe_lt (buf.1.window 5 3)
  rw [Bytes.window_length (by rw [buf.2]; decide)] at hlt
  rw [(parse_eq_ok h).2]
  show (BitVec.ofNat 32 (Bytes.ofBe (buf.1.window 5 3))).toNat < _
  rw [BitVec.toNat_ofNat,Nat.mod_eq_of_lt (by omega)]
  exact hlt

theorem serialize_parse (h : parse buf = .ok b) : b.serialize = cleared buf.1 := by
  obtain ⟨hcode,hb⟩ := parse_eq_ok h
  have hlt := Bytes.ofBe_lt (buf.1.window 5 3)
  rw [Bytes.window_length (by rw [buf.2]; decide)] at hlt
  have htop : (if b.immediate then 0x40 else 0x00) ||| b.opcode.code = buf.1.getD 0 0 &&& 0x7F := by
    have hi : b.immediate = decide (buf.1.getD 0 0 &&& 0x40 ≠ 0) := by rw [hb]
    rw [hcode,hi]
    exact first_byte_parts _
  have hlen : Bytes.toBe 3 b.dataSegmentLength.toNat = buf.1.window 5 3 := by
    have hd : b.dataSegmentLength.toNat = Bytes.ofBe (buf.1.window 5 3) := by
      rw [hb]
      show (BitVec.ofNat 32 (Bytes.ofBe (buf.1.window 5 3))).toNat = _
      rw [BitVec.toNat_ofNat,Nat.mod_eq_of_lt (by omega)]
    have hw : (buf.1.window 5 3).length = 3 := Bytes.window_length (by rw [buf.2]; decide)
    have hto := Bytes.toBe_ofBe (buf.1.window 5 3)
    rwa [hw,← hd] at hto
  have hraw : b.raw = buf.1 := parse_raw h
  have hflags : b.flags = buf.1.getD 1 0 := by rw [hb]
  rw [serialize,htop,hlen,hraw,hflags]
  obtain ⟨bytes,hsize⟩ := buf
  iterate 8
    rcases bytes with _ | ⟨_,bytes⟩
    · simp at hsize
  rfl

end Bhs

open Bhs

/-- What a header sent with these flags and this length is read as. -/
def ReadsBack (b : Bhs) (R : Bhs → Prop) : Prop :=
  ∀ (flags : Option UInt8) (length : Option Nat), (∀ n ∈ length, n < 2^24) →
    ∃ q, parse ⟨(b.amend flags length).serialize,serialize_length _⟩ = .ok q ∧
      SameFields (b.amend flags length) q ∧ R q

theorem readsBack {b : Bhs} (hs : b.Synced) (hl : b.dataSegmentLength.toNat < 2^24) :
    ReadsBack b (SameBytes b) := by
  intro flags length hn
  have hs' : (b.amend flags length).Synced := by
    rw [Synced,amend_raw,amend_itt]
    exact hs
  obtain ⟨q,hq,hf,hb⟩ := parse_same hs' (amend_length flags hl hn)
  refine ⟨q,hq,hf,?_,fun off n ho => ?_⟩
  · rw [hb.status,scsiStatus,amend_raw,scsiStatus]
  · rw [hb.window off n ho,amend_raw]

/-- Headers over the wire, from a builder or from the wire itself. -/
theorem header_codec :
    (∀ x : Builder, x.Fits → ReadsBack x.build (fun q => x.Reads q ∧ q.itt = x.itt)) ∧
    ∀ buf b, parse buf = .ok b → ReadsBack b (SameBytes b) ∧ b.serialize = cleared buf.1 := by
  refine ⟨fun x hx flags length hn => ?_,fun buf b h => ?_⟩
  · obtain ⟨q,hq,hf,hb⟩ := readsBack x.synced_build hx.length flags length hn
    refine ⟨q,hq,hf,x.reads_build.same hb,?_⟩
    rw [hf.itt,amend_itt,x.build_itt]
  · exact ⟨readsBack (synced_parse h) (length_parse h),serialize_parse h⟩

def lateLogin : Builder := .loginRequest ⟨List.replicate 6 1,rfl⟩ 9 0 5 77 3 0 1 true

theorem header_codec_login :
    ∃ q, parse ⟨(lateLogin.build.amend (some 0x87) (some 300)).serialize,serialize_length _⟩ = .ok q ∧
      q.flags = 0x87 ∧ q.dataSegmentLength = 300 ∧ q.tsih = 9 ∧ q.cmdSn = 77 := by
  obtain ⟨q,hq,hf,hr,_⟩ := header_codec.1 lateLogin ⟨by decide,by decide⟩ (some 0x87) (some 300)
    (fun n hn => by cases hn; decide)
  exact ⟨q,hq,hf.flags,hf.dataSegmentLength,hr.1,hr.2.1⟩

end IscsiFuse.Iscsi
