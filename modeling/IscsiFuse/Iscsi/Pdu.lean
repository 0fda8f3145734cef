import IscsiFuse.Iscsi.Command
set_option autoImplicit false

/-!
The 48-byte basic header segment and the initiator's headers. A header keeps its
wire bytes next to the fields parsed from them, as the accessors read the bytes.
-/

namespace IscsiFuse.Iscsi

inductive Opcode where
  | nopOut | scsiCommand | taskMgmt | loginRequest | textRequest | scsiDataOut
  | logoutRequest | snackRequest
  | nopIn | scsiResponse | taskMgmtResp | loginResponse | textResponse | scsiDataIn
  | logoutResponse | r2t | asyncMessage | reject
  deriving DecidableEq, Repr

def Opcode.code : Opcode → UInt8
  | .nopOut => 0x00
  | .scsiCommand => 0x01
  | .taskMgmt => 0x02
  | .loginRequest => 0x03
  | .textRequest => 0x04
  | .scsiDataOut => 0x05
  | .logoutRequest => 0x06
  | .snackRequest => 0x10
  | .nopIn => 0x20
  | .scsiResponse => 0x21
  | .taskMgmtResp => 0x22
  | .loginResponse => 0x23
  | .textResponse => 0x24
  | .scsiDataIn => 0x25
  | .logoutResponse => 0x26
  | .r2t => 0x31
  | .asyncMessage => 0x32
  | .reject => 0x3f

def Opcode.debug : Opcode → String
  | .nopOut => "NopOut"
  | .scsiCommand => "ScsiCommand"
  | .taskMgmt => "TaskMgmt"
  | .loginRequest => "LoginRequest"
  | .textRequest => "TextRequest"
  | .scsiDataOut => "ScsiDataOut"
  | .logoutRequest => "LogoutRequest"
  | .snackRequest => "SnackRequest"
  | .nopIn => "NopIn"
  | .scsiResponse => "ScsiResponse"
  | .taskMgmtResp => "TaskMgmtResp"
  | .loginResponse => "LoginResponse"
  | .textResponse => "TextResponse"
  | .scsiDataIn => "ScsiDataIn"
  | .logoutResponse => "LogoutResponse"
  | .r2t => "R2t"
  | .asyncMessage => "AsyncMessage"
  | .reject => "Reject"

def Opcode.tryFrom (value : UInt8) : Except Error Opcode :=
  if value = 0x00 then .ok .nopOut
  else if value = 0x01 then .ok .scsiCommand
  else if value = 0x02 then .ok .taskMgmt
  else if value = 0x03 then .ok .loginRequest
  else if value = 0x04 then .ok .textRequest
  else if value = 0x05 then .ok .scsiDataOut
  else if value = 0x06 then .ok .logoutRequest
  else if value = 0x10 then .ok .snackRequest
  else if value = 0x20 then .ok .nopIn
  else if value = 0x21 then .ok .scsiResponse
  else if value = 0x22 then .ok .taskMgmtResp
  else if value = 0x23 then .ok .loginResponse
  else if value = 0x24 then .ok .textResponse
  else if value = 0x25 then .ok .scsiDataIn
  else if value = 0x26 then .ok .logoutResponse
  else if value = 0x31 then .ok .r2t
  else if value = 0x32 then .ok .asyncMessage
  else if value = 0x3f then .ok .reject
  else .error [s!"unknown iSCSI opcode: {hexByte value}"]

theorem Opcode.tryFrom_code (o : Opcode) : tryFrom o.code = .ok o := by cases o <;> rfl

structure Bhs where
  raw : Bytes
  size : raw.length = 48
  opcode : Opcode
  immediate : Bool
  flags : UInt8
  dataSegmentLength : BitVec 32
  lun : BitVec 64
  itt : BitVec 32
  deriving DecidableEq

namespace Bhs

/-- The header on the wire: bytes 0-7 from the fields, the rest as kept. -/
def serialize (b : Bhs) : Bytes :=
  [(if b.immediate then 0x40 else 0x00) ||| b.opcode.code,b.flags,b.raw.getD 2 0,b.raw.getD 3 0,0] ++
    Bytes.toBe 3 b.dataSegmentLength.toNat ++ b.raw.drop 8

def u32At (b : Bytes) (off : Nat) : BitVec 32 := BitVec.ofNat 32 (Bytes.ofBe (b.window off 4))

/-- The argument is a `[u8; 48]`. -/
def parse (buf : Bytes.Sized 48) : Except Error Bhs := do
  let opcode ← Opcode.tryFrom (buf.1.getD 0 0 &&& 0x3F)
  pure { raw := buf.1
         size := buf.2
         opcode := opcode
         immediate := buf.1.getD 0 0 &&& 0x40 ≠ 0
         flags := buf.1.getD 1 0
         dataSegmentLength := BitVec.ofNat 32 (Bytes.ofBe (buf.1.window 5 3))
         lun := BitVec.ofNat 64 (Bytes.ofBe (buf.1.window 8 8))
         itt := u32At buf.1 16 }

def scsiStatus (b : Bhs) : UInt8 := b.raw.getD 3 0

def statusFlag (b : Bhs) : Bool := b.raw.getD 1 0 &&& 0x01 ≠ 0

def statSn (b : Bhs) : BitVec 32 := u32At b.raw 24

def expCmdSn (b : Bhs) : BitVec 32 := u32At b.raw 28

def maxCmdSn (b : Bhs) : BitVec 32 := u32At b.raw 32

def dataSn (b : Bhs) : BitVec 32 := u32At b.raw 36

def bufferOffset (b : Bhs) : BitVec 32 := u32At b.raw 40

def ttt (b : Bhs) : BitVec 32 := u32At b.raw 20

def r2tBufferOffset (b : Bhs) : BitVec 32 := u32At b.raw 40

def r2tDesiredLength (b : Bhs) : BitVec 32 := u32At b.raw 44

def cmdSn (b : Bhs) : BitVec 32 := u32At b.raw 24

def r2tSn (b : Bhs) : BitVec 32 := u32At b.raw 36

def expStatSn (b : Bhs) : BitVec 32 := u32At b.raw 28

def tsih (b : Bhs) : BitVec 16 := BitVec.ofNat 16 (Bytes.ofBe (b.raw.window 14 2))

def loginStatusClass (b : Bhs) : UInt8 := b.raw.getD 36 0

def loginStatusDetail (b : Bhs) : UInt8 := b.raw.getD 37 0

def newZeroed : Bhs where
  raw := List.replicate 48 0
  size := by simp
  opcode := .nopOut
  immediate := false
  flags := 0
  dataSegmentLength := 0
  lun := 0
  itt := 0

def setRaw (b : Bhs) (off : Nat) (w : Bytes) (h : off+w.length ≤ 48) : Bhs :=
  { b with raw := b.raw.place off w, size := by rw [Bytes.place_length (b.size ▸ h),b.size] }

def setRawU32 (b : Bhs) (off : Nat) (value : BitVec 32) (h : off+4 ≤ 48) : Bhs :=
  b.setRaw off (Bytes.toBe 4 value.toNat) (by simpa using h)

theorem statusByte_fits (status : UInt8) : 3+[status].length ≤ 48 := by simp

theorem ttt_fits : 20+4 ≤ 48 := by decide

theorem statSn_fits : 24+4 ≤ 48 := by decide

theorem maxCmdSn_fits : 32+4 ≤ 48 := by decide

theorem bufferOffset_fits : 40+4 ≤ 48 := by decide

theorem desiredLength_fits : 44+4 ≤ 48 := by decide

def setRawU16 (b : Bhs) (off : Nat) (value : BitVec 16) (h : off+2 ≤ 48) : Bhs :=
  b.setRaw off (Bytes.toBe 2 value.toNat) (by simpa using h)

def syncRawFromFields (b : Bhs) : Bhs :=
  let first := (if b.immediate then 0x40 else 0x00) ||| b.opcode.code
  (((b.setRaw 0 [first,b.flags] (by simp)).setRaw 5 (Bytes.toBe 3 b.dataSegmentLength.toNat)
    (by simp)).setRaw 8 (Bytes.toBe 8 b.lun.toNat) (by simp)).setRawU32 16 b.itt (by decide)

def buildScsiCommand (lun : BitVec 64) (itt cmdSn expStatSn : BitVec 32) (cdb : Bytes)
    (h : cdb.length = 16) (edtl : BitVec 32) (read write : Bool) : Bhs :=
  ((((syncRawFromFields { newZeroed with
      opcode := .scsiCommand
      immediate := false
      flags := 0x80 ||| (if read then 0x40 else 0) ||| (if write then 0x20 else 0)
      lun := lun
      itt := itt }).setRawU32 20 edtl (by decide)).setRawU32 24 cmdSn (by decide)).setRawU32 28
    expStatSn (by decide)).setRaw 32 cdb (by omega)

def buildDataOut (lun : BitVec 64) (itt ttt expStatSn dataSn bufferOffset : BitVec 32) : Bhs :=
  ((((syncRawFromFields { newZeroed with
      opcode := .scsiDataOut
      immediate := false
      flags := 0x80
      lun := lun
      itt := itt }).setRawU32 20 ttt (by decide)).setRawU32 28 expStatSn (by decide)).setRawU32 36
    dataSn (by decide)).setRawU32 40 bufferOffset (by decide)

def buildNopOut (itt ttt cmdSn expStatSn : BitVec 32) : Bhs :=
  (((syncRawFromFields { newZeroed with
      opcode := .nopOut
      immediate := true
      flags := 0x80
      itt := itt }).setRawU32 20 ttt (by decide)).setRawU32 24 cmdSn (by decide)).setRawU32 28
    expStatSn (by decide)

def buildLogoutRequest (itt cmdSn expStatSn : BitVec 32) (cid : BitVec 16) : Bhs :=
  (((syncRawFromFields { newZeroed with
      opcode := .logoutRequest
      immediate := true
      flags := 0x80
      itt := itt }).setRawU16 20 cid (by decide)).setRawU32 24 cmdSn (by decide)).setRawU32 28
    expStatSn (by decide)

def buildLoginRequest (isid : Bytes.Sized 6) (tsih cid : BitVec 16) (itt cmdSn expStatSn : BitVec 32)
    (csg nsg : UInt8) (transit : Bool) : Bhs :=
  (((((((syncRawFromFields { newZeroed with
      opcode := .loginRequest
      immediate := true
      flags := (if transit then (0x80 : UInt8) else 0) ||| ((csg &&& 0x03) <<< 2) ||| (nsg &&& 0x03)
      itt := itt }).setRaw 2 [0x00] (by simp)).setRaw 3 [0x00] (by simp)).setRaw 8 isid.1
    (by rw [isid.2]; decide)).setRawU16 14 tsih (by decide)).setRawU16 20 cid (by decide)).setRawU32
    24 cmdSn (by decide)).setRawU32 28 expStatSn (by decide)

def buildScsiResponse (itt : BitVec 32) (scsiStatus : UInt8)
    (statSn expCmdSn maxCmdSn : BitVec 32) : Bhs :=
  ((((syncRawFromFields { newZeroed with
      opcode := .scsiResponse
      immediate := false
      flags := 0x80
      itt := itt }).setRaw 3 [scsiStatus] (by simp)).setRawU32 24 statSn (by decide)).setRawU32 28
    expCmdSn (by decide)).setRawU32 32 maxCmdSn (by decide)

def buildDataIn (itt dataSn bufferOffset dataLen : BitVec 32) (statusFlag : Bool)
    (scsiStatus : UInt8) (statSn expCmdSn maxCmdSn : BitVec 32) : Bhs :=
  let bhs := syncRawFromFields { newZeroed with
    opcode := .scsiDataIn
    immediate := false
    flags := 0x80 ||| (if statusFlag then 0x01 else 0x00)
    dataSegmentLength := dataLen
    itt := itt }
  let bhs := if statusFlag then
    (bhs.setRaw 3 [scsiStatus] (by simp)).setRawU32 24 statSn (by decide) else bhs
  (((bhs.setRawU32 28 expCmdSn (by decide)).setRawU32 32 maxCmdSn (by decide)).setRawU32 36
    dataSn (by decide)).setRawU32 40 bufferOffset (by decide)

def buildNopIn (itt ttt statSn expCmdSn maxCmdSn : BitVec 32) : Bhs :=
  ((((syncRawFromFields { newZeroed with
      opcode := .nopIn
      immediate := false
      flags := 0x80
      itt := itt }).setRawU32 20 ttt (by decide)).setRawU32 24 statSn (by decide)).setRawU32 28
    expCmdSn (by decide)).setRawU32 32 maxCmdSn (by decide)

def buildR2t (itt ttt statSn expCmdSn maxCmdSn r2tSn bufferOffset desiredLength : BitVec 32) :
    Bhs :=
  (((((((syncRawFromFields { newZeroed with
      opcode := .r2t
      immediate := false
      flags := 0x80
      itt := itt }).setRawU32 20 ttt (by decide)).setRawU32 24 statSn (by decide)).setRawU32 28
    expCmdSn (by decide)).setRawU32 32 maxCmdSn (by decide)).setRawU32 36 r2tSn
    (by decide)).setRawU32 40 bufferOffset (by decide)).setRawU32 44 desiredLength (by decide)

def setDataSegmentLength (b : Bhs) (n : Nat) : Bhs :=
  { b with dataSegmentLength := BitVec.ofNat 32 n }

def setFlags (b : Bhs) (flags : UInt8) : Bhs := { b with flags := flags }

@[simp] theorem serialize_length (b : Bhs) : b.serialize.length = 48 := by
  simp [serialize,b.size]

theorem serialize_window (b : Bhs) {off : Nat} (h : 8 ≤ off) (n : Nat) :
    b.serialize.window off n = b.raw.window off n := by
  have hl : ([(if b.immediate then 0x40 else 0x00) ||| b.opcode.code,b.flags,b.raw.getD 2 0,
      b.raw.getD 3 0,0] ++ Bytes.toBe 3 b.dataSegmentLength.toNat).length = 8 := by simp
  have hw : b.serialize.drop off = b.raw.drop off := by
    rw [serialize,List.drop_append,List.drop_eq_nil_of_le (by omega),hl,List.nil_append,
      List.drop_drop]
    congr 1
    omega
  rw [Bytes.window,Bytes.window,hw]

theorem serialize_u32At (b : Bhs) {off : Nat} (h : 8 ≤ off) :
    u32At b.serialize off = u32At b.raw off := by
  rw [u32At,u32At,serialize_window b h]

theorem serialize_dataSegmentLength (b : Bhs) :
    Bytes.ofBe (b.serialize.window 5 3) = b.dataSegmentLength.toNat%2^24 := by
  rw [serialize,List.append_assoc,Bytes.window_append (by simp) (by simp),Bytes.ofBe_toBe]
  rfl

theorem first_byte (immediate : Bool) (o : Opcode) :
    ((if immediate then 0x40 else 0x00) ||| o.code) &&& 0x3F = o.code ∧
      decide (((if immediate then 0x40 else 0x00) ||| o.code) &&& 0x40 ≠ 0) = immediate := by
  cases immediate <;> cases o <;> decide

theorem parse_raw {buf : Bytes.Sized 48} {b : Bhs} (h : parse buf = .ok b) : b.raw = buf.1 := by
  obtain ⟨_,_,h⟩ := bind_eq_ok.mp h
  cases h
  rfl

theorem parse_serialize_eq {b : Bhs} (h : b.dataSegmentLength.toNat < 2^24) :
    parse ⟨b.serialize,b.serialize_length⟩ = .ok { b with
      raw := b.serialize
      size := b.serialize_length
      lun := BitVec.ofNat 64 (Bytes.ofBe (b.serialize.window 8 8))
      itt := u32At b.serialize 16 } := by
  obtain ⟨ho,hi⟩ := first_byte b.immediate b.opcode
  have hd : BitVec.ofNat 32 (Bytes.ofBe (b.serialize.window 5 3)) = b.dataSegmentLength := by
    rw [serialize_dataSegmentLength,Nat.mod_eq_of_lt h,BitVec.ofNat_toNat,BitVec.setWidth_eq]
  have h₀ : b.serialize.getD 0 0 = (if b.immediate then 0x40 else 0x00) ||| b.opcode.code := rfl
  simp only [parse,h₀,ho,hi,hd,Opcode.tryFrom_code]
  rfl

theorem parse_serialize {b : Bhs} (h : b.dataSegmentLength.toNat < 2^24) :
    ∃ q, parse ⟨b.serialize,b.serialize_length⟩ = .ok q ∧ q.serialize = b.serialize ∧
      q.dataSegmentLength = b.dataSegmentLength := by
  refine ⟨_,parse_serialize_eq h,?_,rfl⟩
  have hr : b.serialize.drop 8 = b.raw.drop 8 := by
    rw [serialize]
    exact List.drop_left' (by simp)
  simp only [serialize] at hr ⊢
  rw [hr]
  rfl

@[simp] theorem u32At_setRawU32 (b : Bhs) (off : Nat) (value : BitVec 32) (h : off+4 ≤ 48) :
    u32At (b.setRawU32 off value h).raw off = value := by
  have hle : off ≤ b.raw.length := by
    rw [b.size]
    omega
  have hw := Bytes.window_place (w := Bytes.toBe 4 value.toNat) hle
  rw [Bytes.toBe_length] at hw
  have hv : value.toNat < 256^4 := value.isLt
  rw [u32At,setRawU32,setRaw,hw,Bytes.ofBe_toBe,Nat.mod_eq_of_lt hv,BitVec.ofNat_toNat]
  simp

theorem u32At_setRaw (b : Bhs) {off i : Nat} {w : Bytes} (h : off+w.length ≤ 48)
    (ha : i+4 ≤ off ∨ off+w.length ≤ i) : u32At (b.setRaw off w h).raw i = u32At b.raw i := by
  rw [u32At,setRaw,Bytes.window_place_apart (by rw [b.size]; omega) ha]
  rfl

theorem u32At_setRawU32_apart (b : Bhs) {off i : Nat} {value : BitVec 32} (h : off+4 ≤ 48)
    (ha : i+4 ≤ off ∨ off+4 ≤ i) : u32At (b.setRawU32 off value h).raw i = u32At b.raw i :=
  b.u32At_setRaw _ (by simpa using ha)

theorem u32At_setRawU16 (b : Bhs) {off i : Nat} {value : BitVec 16} (h : off+2 ≤ 48)
    (ha : i+4 ≤ off ∨ off+2 ≤ i) : u32At (b.setRawU16 off value h).raw i = u32At b.raw i :=
  b.u32At_setRaw _ (by simpa using ha)

theorem window_setRaw (b : Bhs) {off : Nat} {w : Bytes} (h : off+w.length ≤ 48) :
    (b.setRaw off w h).raw.window off w.length = w :=
  Bytes.window_place (by rw [b.size]; omega)

theorem itt_syncRawFromFields (b : Bhs) : u32At b.syncRawFromFields.raw 16 = b.itt :=
  u32At_setRawU32 _ 16 b.itt (by decide)

theorem buildScsiCommand_itt (lun : BitVec 64) (itt cmdSn expStatSn : BitVec 32) (cdb : Bytes)
    (h : cdb.length = 16) (edtl : BitVec 32) (read write : Bool) :
    u32At (buildScsiCommand lun itt cmdSn expStatSn cdb h edtl read write).raw 16 = itt := by
  rw [buildScsiCommand,u32At_setRaw _ _ (by omega),u32At_setRawU32_apart _ _ (by omega),
    u32At_setRawU32_apart _ _ (by omega),u32At_setRawU32_apart _ _ (by omega),itt_syncRawFromFields]

theorem buildScsiCommand_edtl (lun : BitVec 64) (itt cmdSn expStatSn : BitVec 32) (cdb : Bytes)
    (h : cdb.length = 16) (edtl : BitVec 32) (read write : Bool) :
    u32At (buildScsiCommand lun itt cmdSn expStatSn cdb h edtl read write).raw 20 = edtl := by
  rw [buildScsiCommand,u32At_setRaw _ _ (by omega),u32At_setRawU32_apart _ _ (by omega),
    u32At_setRawU32_apart _ _ (by omega),u32At_setRawU32]

theorem buildScsiCommand_cdb (lun : BitVec 64) (itt cmdSn expStatSn : BitVec 32) (cdb : Bytes)
    (h : cdb.length = 16) (edtl : BitVec 32) (read write : Bool) :
    (buildScsiCommand lun itt cmdSn expStatSn cdb h edtl read write).raw.window 32 16 = cdb := by
  rw [buildScsiCommand,← h,window_setRaw]

theorem buildDataOut_itt (lun : BitVec 64) (itt ttt expStatSn dataSn bufferOffset : BitVec 32) :
    u32At (buildDataOut lun itt ttt expStatSn dataSn bufferOffset).raw 16 = itt := by
  rw [buildDataOut,u32At_setRawU32_apart _ _ (by omega),u32At_setRawU32_apart _ _ (by omega),
    u32At_setRawU32_apart _ _ (by omega),u32At_setRawU32_apart _ _ (by omega),itt_syncRawFromFields]

theorem buildDataOut_ttt (lun : BitVec 64) (itt ttt expStatSn dataSn bufferOffset : BitVec 32) :
    u32At (buildDataOut lun itt ttt expStatSn dataSn bufferOffset).raw 20 = ttt := by
  rw [buildDataOut,u32At_setRawU32_apart _ _ (by omega),u32At_setRawU32_apart _ _ (by omega),
    u32At_setRawU32_apart _ _ (by omega),u32At_setRawU32]

theorem buildDataOut_bufferOffset (lun : BitVec 64)
    (itt ttt expStatSn dataSn bufferOffset : BitVec 32) :
    u32At (buildDataOut lun itt ttt expStatSn dataSn bufferOffset).raw 40 = bufferOffset := by
  rw [buildDataOut,u32At_setRawU32]

theorem buildR2t_ttt
    (itt ttt statSn expCmdSn maxCmdSn r2tSn bufferOffset desiredLength : BitVec 32) :
    (buildR2t itt ttt statSn expCmdSn maxCmdSn r2tSn bufferOffset desiredLength).ttt = ttt := by
  rw [Bhs.ttt,buildR2t,u32At_setRawU32_apart _ _ (by omega),u32At_setRawU32_apart _ _ (by omega),
    u32At_setRawU32_apart _ _ (by omega),u32At_setRawU32_apart _ _ (by omega),
    u32At_setRawU32_apart _ _ (by omega),u32At_setRawU32_apart _ _ (by omega),u32At_setRawU32]

theorem buildR2t_range
    (itt ttt statSn expCmdSn maxCmdSn r2tSn bufferOffset desiredLength : BitVec 32) :
    let b := buildR2t itt ttt statSn expCmdSn maxCmdSn r2tSn bufferOffset desiredLength
    b.r2tBufferOffset = bufferOffset ∧ b.r2tDesiredLength = desiredLength := by
  constructor
  · rw [r2tBufferOffset,buildR2t,u32At_setRawU32_apart _ _ (by omega),u32At_setRawU32]
  · rw [r2tDesiredLength,buildR2t,u32At_setRawU32]

theorem scsiStatus_setRaw (b : Bhs) {off : Nat} {w : Bytes} (h : off+w.length ≤ 48) (ho : 3 < off) :
    (b.setRaw off w h).scsiStatus = b.scsiStatus := by
  rw [scsiStatus,List.getD_eq_getElem?_getD,setRaw,Bytes.getElem?_place (by rw [b.size]; omega),
    if_neg (by omega),← List.getD_eq_getElem?_getD]
  rfl

theorem scsiStatus_setRawU32 (b : Bhs) {off : Nat} (v : BitVec 32) (h : off+4 ≤ 48) (ho : 3 < off) :
    (b.setRawU32 off v h).scsiStatus = b.scsiStatus := b.scsiStatus_setRaw _ ho

theorem scsiStatus_setRaw_self (b : Bhs) (status : UInt8) (h : 3+[status].length ≤ 48) :
    (b.setRaw 3 [status] h).scsiStatus = status := by
  rw [scsiStatus,List.getD_eq_getElem?_getD,setRaw,Bytes.getElem?_place (by rw [b.size]; omega)]
  rfl

theorem buildScsiResponse_status (itt : BitVec 32) (status : UInt8)
    (statSn expCmdSn maxCmdSn : BitVec 32) :
    (buildScsiResponse itt status statSn expCmdSn maxCmdSn).scsiStatus = status := by
  simp (disch := omega) only [buildScsiResponse,scsiStatus_setRawU32,scsiStatus_setRaw_self]

@[simp] theorem cmdSn_buildScsiCommand (lun : BitVec 64) (itt cmdSn expStatSn : BitVec 32)
    (cdb : Bytes) (h : cdb.length = 16) (edtl : BitVec 32) (read write : Bool) :
    (buildScsiCommand lun itt cmdSn expStatSn cdb h edtl read write).cmdSn = cmdSn := by
  rw [Bhs.cmdSn,buildScsiCommand,u32At_setRaw _ _ (by omega),
    u32At_setRawU32_apart _ _ (by omega),u32At_setRawU32]

@[simp] theorem cmdSn_buildNopOut (itt ttt cmdSn expStatSn : BitVec 32) :
    (buildNopOut itt ttt cmdSn expStatSn).cmdSn = cmdSn := by
  rw [Bhs.cmdSn,buildNopOut,u32At_setRawU32_apart _ _ (by omega),u32At_setRawU32]

@[simp] theorem cmdSn_buildLogoutRequest (itt cmdSn expStatSn : BitVec 32) (cid : BitVec 16) :
    (buildLogoutRequest itt cmdSn expStatSn cid).cmdSn = cmdSn := by
  rw [Bhs.cmdSn,buildLogoutRequest,u32At_setRawU32_apart _ _ (by omega),u32At_setRawU32]

@[simp] theorem cmdSn_setDataSegmentLength (b : Bhs) (n : Nat) :
    (b.setDataSegmentLength n).cmdSn = b.cmdSn := rfl

end Bhs

/-- A protocol data unit: header, optional additional header, optional data. -/
structure Pdu where
  bhs : Bhs
  ahs : Option Bytes
  data : Option Bytes
  deriving DecidableEq

def padTo4 (len : Nat) : Nat := (len+3)/4*4

theorem le_padTo4 (len : Nat) : len ≤ padTo4 len := by
  unfold padTo4
  omega

end IscsiFuse.Iscsi
