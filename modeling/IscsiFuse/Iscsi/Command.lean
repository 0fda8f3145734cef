import IscsiFuse.Library.ByteWindow
set_option autoImplicit false

namespace IscsiFuse.Iscsi

inductive ScsiStatus where
  | good | checkCondition | busy | reservationConflict | taskSetFull | taskAborted
  deriving DecidableEq, Repr

/-- `ScsiStatus::from`: unknown codes are treated as CHECK CONDITION. -/
def ScsiStatus.ofByte (v : UInt8) : ScsiStatus :=
  if v = 0x00 then .good
  else if v = 0x02 then .checkCondition
  else if v = 0x08 then .busy
  else if v = 0x18 then .reservationConflict
  else if v = 0x28 then .taskSetFull
  else if v = 0x40 then .taskAborted
  else .checkCondition

inductive SenseKey where
  | noSense | recoveredError | notReady | mediumError | hardwareError | illegalRequest
  | unitAttention | dataProtect | abortedCommand
  deriving DecidableEq, Repr

def SenseKey.ofByte (v : UInt8) : SenseKey :=
  if v = 0x0 then .noSense
  else if v = 0x1 then .recoveredError
  else if v = 0x2 then .notReady
  else if v = 0x3 then .mediumError
  else if v = 0x4 then .hardwareError
  else if v = 0x5 then .illegalRequest
  else if v = 0x6 then .unitAttention
  else if v = 0x7 then .dataProtect
  else if v = 0xB then .abortedCommand
  else .noSense

structure SenseData where
  senseKey : SenseKey
  asc : UInt8
  ascq : UInt8
  information : Nat
  deriving DecidableEq, Repr

def parseSenseData (data : Bytes) : Option SenseData :=
  if data.length < 14 then none
  else
    let responseCode := data.getD 2 0 &&& 0x7F
    if responseCode ≠ 0x70 ∧ responseCode ≠ 0x71 then none
    else if data.length < 16 then none
    else some ⟨.ofByte (data.getD 4 0 &&& 0x0F),data.getD 14 0,data.getD 15 0,
      Bytes.ofBe (data.window 5 4)⟩

def isUnitAttention (sense : SenseData) : Bool := sense.senseKey = .unitAttention

def encodeLun (lunNumber : Nat) : Nat := (lunNumber &&& 0xFF) <<< 48

def decodeLun (encoded : Nat) : Nat := (encoded >>> 48) &&& 0xFF

theorem and_byte (n : Nat) : n &&& 0xFF = n%256 := Nat.and_two_pow_sub_one_eq_mod n 8

theorem encodeLun_eq (lun : Nat) : encodeLun lun = lun%256*2^48 := by
  unfold encodeLun
  rw [and_byte]
  exact Nat.shiftLeft_eq _ _

theorem decodeLun_eq (e : Nat) : decodeLun e = e/2^48%256 := by
  unfold decodeLun
  rw [and_byte]
  exact congrArg (·%256) (Nat.shiftRight_eq_div_pow _ _)

theorem decodeLun_encodeLun {lun : Nat} (h : lun < 256) : decodeLun (encodeLun lun) = lun := by
  rw [decodeLun_eq,encodeLun_eq,Nat.mul_div_cancel _ (Nat.two_pow_pos 48)]
  omega

theorem encodeLun_lt (lun : Nat) : encodeLun lun < 2^64 := by
  rw [encodeLun_eq]
  omega

structure Cdb where
  bytes : Bytes
  size : bytes.length = 16
  deriving DecidableEq

def cdb10 (op : UInt8) (lba blockCount : Nat) : Cdb where
  bytes := [op,0] ++ Bytes.toBe 4 lba ++ [0] ++ Bytes.toBe 2 blockCount ++ List.replicate 7 0
  size := by simp

def cdb16 (op : UInt8) (lba blockCount : Nat) : Cdb where
  bytes := [op,0] ++ Bytes.toBe 8 lba ++ Bytes.toBe 4 blockCount ++ [0,0]
  size := by simp

def buildReadCapacity10 : Cdb where
  bytes := 0x25 :: List.replicate 15 0
  size := by simp

def buildReadCapacity16 (allocLen : Nat) : Cdb where
  bytes := [0x9E,0x10] ++ List.replicate 8 0 ++ Bytes.toBe 4 allocLen ++ [0,0]
  size := by simp

def buildSynchronizeCache10 (lba blockCount : Nat) : Cdb := cdb10 0x35 lba blockCount

def buildRead10 (lba blockCount : Nat) : Cdb := cdb10 0x28 lba blockCount

def buildRead16 (lba blockCount : Nat) : Cdb := cdb16 0x88 lba blockCount

def buildWrite10 (lba blockCount : Nat) : Cdb := cdb10 0x2A lba blockCount

def buildWrite16 (lba blockCount : Nat) : Cdb := cdb16 0x8A lba blockCount

def buildRead (lba blockCount : Nat) : Cdb :=
  if lba ≤ 2^32-1 ∧ blockCount ≤ 2^16-1 then buildRead10 lba blockCount
  else buildRead16 lba blockCount

def buildWrite (lba blockCount : Nat) : Cdb :=
  if lba ≤ 2^32-1 ∧ blockCount ≤ 2^16-1 then buildWrite10 lba blockCount
  else buildWrite16 lba blockCount

/-- The arguments of `submit_command`. The write flag is set by the one caller
that registers `writeData` under the command's tag when the command is out. -/
structure Command where
  cdb : Cdb
  lun : BitVec 64
  edtl : BitVec 32
  read : Bool
  writeData : Option Bytes
  immediateData : Option Bytes
  deriving DecidableEq

def Command.write (c : Command) : Bool := c.writeData.isSome

/-- What a completed SCSI command returns to the caller. -/
structure PduResponse where
  status : ScsiStatus
  data : Option Bytes
  sense : Option Bytes
  deriving DecidableEq

/-- An error message under its contexts, outermost first. -/
abbrev Error := List String

theorem bind_eq_ok {ε α β : Type} {x : Except ε α} {f : α → Except ε β} {b : β} :
    (x >>= f) = .ok b ↔ ∃ a, x = .ok a ∧ f a = .ok b := by
  cases x with
  | error e => exact ⟨fun h => (by cases h),fun ⟨a,h,_⟩ => (by cases h)⟩
  | ok a => exact ⟨fun h => ⟨a,rfl,h⟩,fun ⟨_,h,hf⟩ => (by cases h; exact hf)⟩

/-- What a caller sees of a command it submits and awaits. -/
inductive Outcome where
  | submitFailed (e : Error)
  | timedOut
  | closed
  | response (r : PduResponse)
  deriving DecidableEq

def awaitReply (submit op : String) : Outcome → Except Error PduResponse
  | .submitFailed e => .error (submit :: e)
  | .timedOut => .error [s!"{op} timed out"]
  | .closed => .error [s!"{op} channel closed"]
  | .response r => .ok r

def ScsiStatus.debug : ScsiStatus → String
  | .good => "Good"
  | .checkCondition => "CheckCondition"
  | .busy => "Busy"
  | .reservationConflict => "ReservationConflict"
  | .taskSetFull => "TaskSetFull"
  | .taskAborted => "TaskAborted"

def SenseKey.debug : SenseKey → String
  | .noSense => "NoSense"
  | .recoveredError => "RecoveredError"
  | .notReady => "NotReady"
  | .mediumError => "MediumError"
  | .hardwareError => "HardwareError"
  | .illegalRequest => "IllegalRequest"
  | .unitAttention => "UnitAttention"
  | .dataProtect => "DataProtect"
  | .abortedCommand => "AbortedCommand"

def debugBytes : Option Bytes → String
  | none => "None"
  | some b => s!"Some({b})"

def hexByte (b : UInt8) : String :=
  let digits := Nat.toDigits 16 b.toNat
  "0x" ++ (if digits.length = 1 then "0" else "") ++ String.ofList digits

def checkScsiStatus (op : String) (r : PduResponse) : Except Error Unit :=
  match r.status with
  | .good => .ok ()
  | .checkCondition => match r.sense.bind parseSenseData with
    | some sense => .error [s!"{op}: CheckCondition, sense_key={sense.senseKey.debug} " ++
        s!"ASC={hexByte sense.asc} ASCQ={hexByte sense.ascq}"]
    | none => .error [s!"{op}: CheckCondition (no parseable sense data)"]
  | other => .error [s!"{op}: failed with status {other.debug}"]

theorem checkScsiStatus_eq_ok (op : String) {r : PduResponse} :
    checkScsiStatus op r = .ok () ↔ r.status = .good := by
  unfold checkScsiStatus
  cases h : r.status with
  | checkCondition => cases r.sense.bind parseSenseData <;> simp
  | _ => simp

end IscsiFuse.Iscsi
