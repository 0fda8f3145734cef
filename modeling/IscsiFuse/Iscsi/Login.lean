import IscsiFuse.Iscsi.Command
set_option autoImplicit false

namespace IscsiFuse.Iscsi

/-- Parameters negotiated during the login operational phase. -/
structure NegotiatedParams where
  maxRecvDataSegmentLength : Nat
  maxSendDataSegmentLength : Nat
  maxBurstLength : Nat
  firstBurstLength : Nat
  initialR2t : Bool
  immediateData : Bool
  maxOutstandingR2t : Nat
  maxConnections : Nat
  dataPduInOrder : Bool
  dataSequenceInOrder : Bool
  errorRecoveryLevel : Nat
  headerDigest : Bool
  dataDigest : Bool
  defaultTime2wait : Nat
  defaultTime2retain : Nat
  deriving DecidableEq, Repr

def NegotiatedParams.defaults10g : NegotiatedParams where
  maxRecvDataSegmentLength := 1048576
  maxSendDataSegmentLength := 1048576
  maxBurstLength := 1048576
  firstBurstLength := 262144
  initialR2t := false
  immediateData := true
  maxOutstandingR2t := 8
  maxConnections := 1
  dataPduInOrder := true
  dataSequenceInOrder := true
  errorRecoveryLevel := 0
  headerDigest := true
  dataDigest := true
  defaultTime2wait := 2
  defaultTime2retain := 20

/-- The bytes of a text; a `&str` is a byte string that is valid UTF-8. -/
def utf8 (s : String) : Bytes := s.toUTF8.data.toList

def isUtf8 (b : Bytes) : Bool := ByteArray.validateUTF8 ⟨b.toArray⟩

def displayText (b : Bytes) : String := (String.fromUTF8? ⟨b.toArray⟩).getD ""

def splitOnce (sep : UInt8) (entry : Bytes) : Option (Bytes × Bytes) :=
  match entry.dropWhile (· ≠ sep) with
  | _ :: value => some (entry.takeWhile (· ≠ sep),value)
  | [] => none

def parseKvPairs (data : Bytes) : List (Bytes × Bytes) :=
  if isUtf8 data then
    (data.splitOn 0).filterMap (fun entry => if entry = [] then none else splitOnce 0x3D entry)
  else []

def digits (bound : Nat) (n : Nat) (d : UInt8) : Option Nat :=
  if 0x30 ≤ d ∧ d ≤ 0x39 then
    let m := n*10+(d.toNat-0x30)
    if m < bound then some m else none
  else none

def parseUnsigned (bound : Nat) (value : Bytes) : Option Nat :=
  let ds := match value with
    | 0x2B :: ds => ds
    | ds => ds
  if ds = [] then none else ds.foldlM (digits bound) 0

def digestValue (key : String) (value : Bytes) : Except Error Bool :=
  if value = utf8 "CRC32C" then .ok true
  else if value = utf8 "None" then .ok false
  else .error [s!"unsupported {key} value: {displayText value}"]

def numericValue (bits : Nat) (key : String) (value : Bytes) : Except Error Nat :=
  match parseUnsigned (2^bits) value with
  | some v => .ok v
  | none => .error [s!"invalid {key}: {displayText value}"]

namespace NegotiatedParams

def applyPair (p : NegotiatedParams) (kv : Bytes × Bytes) : Except Error NegotiatedParams :=
  let key := kv.1
  let value := kv.2
  if key = utf8 "HeaderDigest" then do
    let v ← digestValue "HeaderDigest" value
    pure { p with headerDigest := v }
  else if key = utf8 "DataDigest" then do
    let v ← digestValue "DataDigest" value
    pure { p with dataDigest := v }
  else if key = utf8 "MaxRecvDataSegmentLength" then do
    let v ← numericValue 32 "MaxRecvDataSegmentLength" value
    pure { p with maxSendDataSegmentLength := v }
  else if key = utf8 "MaxBurstLength" then do
    let v ← numericValue 32 "MaxBurstLength" value
    pure { p with maxBurstLength := min p.maxBurstLength v }
  else if key = utf8 "FirstBurstLength" then do
    let v ← numericValue 32 "FirstBurstLength" value
    pure { p with firstBurstLength := min p.firstBurstLength v }
  else if key = utf8 "InitialR2T" then
    pure { p with initialR2t := p.initialR2t || value = utf8 "Yes" }
  else if key = utf8 "ImmediateData" then
    pure { p with immediateData := p.immediateData && value = utf8 "Yes" }
  else if key = utf8 "MaxOutstandingR2T" then do
    let v ← numericValue 32 "MaxOutstandingR2T" value
    pure { p with maxOutstandingR2t := min p.maxOutstandingR2t v }
  else if key = utf8 "MaxConnections" then do
    let v ← numericValue 32 "MaxConnections" value
    pure { p with maxConnections := min p.maxConnections v }
  else if key = utf8 "DataPDUInOrder" then pure { p with dataPduInOrder := value = utf8 "Yes" }
  else if key = utf8 "DataSequenceInOrder" then
    pure { p with dataSequenceInOrder := value = utf8 "Yes" }
  else if key = utf8 "ErrorRecoveryLevel" then do
    let v ← numericValue 8 "ErrorRecoveryLevel" value
    pure { p with errorRecoveryLevel := min p.errorRecoveryLevel v }
  else if key = utf8 "DefaultTime2Wait" then do
    let v ← numericValue 32 "DefaultTime2Wait" value
    pure { p with defaultTime2wait := v }
  else if key = utf8 "DefaultTime2Retain" then do
    let v ← numericValue 32 "DefaultTime2Retain" value
    pure { p with defaultTime2retain := v }
  else pure p

/-- A response that is refused fails the login, and its parameters are dropped. -/
def applyTargetResponse (p : NegotiatedParams) (data : Bytes) : Except Error NegotiatedParams :=
  (parseKvPairs data).foldlM applyPair p

example : (defaults10g.applyTargetResponse
    (utf8 "MaxRecvDataSegmentLength=8192\x00FirstBurstLength=65536\x00ImmediateData=Yes\x00")) =
      .ok { defaults10g with maxSendDataSegmentLength := 8192, firstBurstLength := 65536 } := by rfl

end NegotiatedParams

end IscsiFuse.Iscsi
