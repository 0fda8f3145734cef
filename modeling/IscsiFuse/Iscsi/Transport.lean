import IscsiFuse.Iscsi.Pdu
set_option autoImplicit false

namespace IscsiFuse.Iscsi

/-- The `crc32c` crate. -/
structure Crc32c where
  crc32c : Bytes → BitVec 32
  crc32cAppend : BitVec 32 → Bytes → BitVec 32

def crcBit (crc : BitVec 32) : BitVec 32 :=
  if crc.getLsbD 0 then crc >>> 1 ^^^ 0x82F63B78 else crc >>> 1

def crcByte (crc : BitVec 32) (b : UInt8) : BitVec 32 :=
  Nat.repeat crcBit 8 (crc ^^^ BitVec.ofNat 32 b.toNat)

def crcAppend (crc : BitVec 32) (b : Bytes) : BitVec 32 := ~~~(b.foldl crcByte (~~~crc))

/-- The reflected CRC-32C, bit by bit. -/
def Crc32c.castagnoli : Crc32c := ⟨crcAppend 0,crcAppend⟩

example : Crc32c.castagnoli.crc32c [49,50,51,52,53,54,55,56,57] = 0xE3069283 := by decide +kernel

structure DigestConfig where
  header : Bool
  data : Bool
  deriving DecidableEq, Repr

def hexWord (w : BitVec 32) : String :=
  let digits := Nat.toDigits 16 w.toNat
  "0x" ++ String.ofList (List.replicate (8-digits.length) '0' ++ digits)

variable (c : Crc32c)

def headerDigest (bhs : Bytes.Sized 48) (ahs : Option Bytes) : Bytes :=
  let crc := c.crc32c bhs.1
  Bytes.toBe 4 (match ahs with
    | some ahs => c.crc32cAppend crc ahs
    | none => crc).toNat

def digestWord (digest : Bytes) : BitVec 32 := BitVec.ofNat 32 (Bytes.ofBe digest)

def verifyHeaderDigest (bhs : Bytes.Sized 48) (ahs : Option Bytes) (received : Bytes) :
    Except Error Unit :=
  let expected := headerDigest c bhs ahs
  if expected ≠ received then
    .error [s!"Header CRC32C mismatch: expected {hexWord (digestWord expected)}, " ++
      s!"got {hexWord (digestWord received)}"]
  else .ok ()

def dataDigest (data : Bytes) : Bytes := Bytes.toBe 4 (c.crc32c data).toNat

def verifyDataDigest (data received : Bytes) : Except Error Unit :=
  let expected := dataDigest c data
  if expected ≠ received then
    .error [s!"Data CRC32C mismatch: expected {hexWord (digestWord expected)}, " ++
      s!"got {hexWord (digestWord received)}"]
  else .ok ()

def sendData (digests : DigestConfig) (data : Bytes) : Bytes :=
  data ++ List.replicate (padTo4 data.length-data.length) 0 ++
    (if digests.data then dataDigest c data else [])

def sendPdu (digests : DigestConfig) (pdu : Pdu) : Bytes :=
  let bhsBytes : Bytes.Sized 48 := ⟨pdu.bhs.serialize,pdu.bhs.serialize_length⟩
  bhsBytes.1 ++ (if digests.header then headerDigest c bhsBytes pdu.ahs else []) ++
    (match pdu.data with
      | some data => sendData c digests data
      | none => [])

def readExact (n : Nat) (s : Bytes) : Except Error (Bytes.Sized n × Bytes) :=
  if h : n ≤ s.length then .ok (⟨s.take n,by simp [h]⟩,s.drop n) else .error ["early eof"]

def recvHeader (digests : DigestConfig) (s : Bytes) : Except Error (Bytes.Sized 48 × Bytes) := do
  let (bhsBuf,s) ← readExact 48 s
  if digests.header then do
    let (hd,s) ← readExact 4 s
    verifyHeaderDigest c bhsBuf none hd.1
    pure (bhsBuf,s)
  else pure (bhsBuf,s)

def recvData (digests : DigestConfig) (rawLen : Nat) (s : Bytes) :
    Except Error (Option Bytes × Bytes) :=
  if 0 < rawLen then do
    let (buf,s) ← readExact (padTo4 rawLen) s
    if digests.data then do
      let (dd,s) ← readExact 4 s
      verifyDataDigest c (buf.1.take rawLen) dd.1
      pure (some (buf.1.take rawLen),s)
    else pure (some (buf.1.take rawLen),s)
  else pure (none,s)

def recvPdu (digests : DigestConfig) (s : Bytes) : Except Error (Pdu × Bytes) := do
  let (bhsBuf,s) ← recvHeader c digests s
  let bhs ← Bhs.parse bhsBuf
  let (data,s) ← recvData c digests bhs.dataSegmentLength.toNat s
  pure (⟨bhs,none,data⟩,s)

/-- `recv_pdu` called `n` times. -/
def recvPdus (digests : DigestConfig) : Nat → Bytes → Except Error (List Pdu × Bytes)
  | 0, s => .ok ([],s)
  | n+1, s => do
    let (p,s) ← recvPdu c digests s
    let (ps,s) ← recvPdus digests n s
    pure (p :: ps,s)

/-- The length field tells the length of the data, which are not there rather than empty. -/
structure Pdu.Framed (p : Pdu) : Prop where
  noAhs : p.ahs = none
  length : match p.data with
    | some data => data ≠ [] ∧ data.length = p.bhs.dataSegmentLength.toNat ∧ data.length < 2^24
    | none => p.bhs.dataSegmentLength = 0

/-- The same header on the wire and the same data. -/
structure Pdu.Same (p q : Pdu) : Prop where
  header : q.bhs.serialize = p.bhs.serialize
  ahs : q.ahs = p.ahs
  data : q.data = p.data

theorem readExact_append {n : Nat} {a : Bytes} (h : a.length = n) (s : Bytes) :
    readExact n (a ++ s) = .ok (⟨a,h⟩,s) := by
  subst h
  simp [readExact]

variable {c} {digests : DigestConfig}

theorem verifyHeaderDigest_self (bhs : Bytes.Sized 48) (ahs : Option Bytes) :
    verifyHeaderDigest c bhs ahs (headerDigest c bhs ahs) = .ok () := by
  simp [verifyHeaderDigest]

theorem verifyDataDigest_self (data : Bytes) :
    verifyDataDigest c data (dataDigest c data) = .ok () := by
  simp [verifyDataDigest]

theorem recvHeader_send (c : Crc32c) (digests : DigestConfig) (bhs : Bytes.Sized 48) (s : Bytes) :
    recvHeader c digests (bhs.1 ++ ((if digests.header then headerDigest c bhs none else []) ++ s)) =
      .ok (bhs,s) := by
  have hb := readExact_append bhs.2
    ((if digests.header then headerDigest c bhs none else []) ++ s)
  unfold recvHeader
  rw [hb]
  cases digests.header with
  | false => rfl
  | true =>
    have hl : (headerDigest c bhs none).length = 4 := by simp [headerDigest]
    simp only [bind,Except.bind,if_true,readExact_append hl,verifyHeaderDigest_self,
      pure,Except.pure]

theorem recvData_send {data : Bytes} (hd : data ≠ []) (s : Bytes) :
    recvData c digests data.length (sendData c digests data ++ s) = .ok (some data,s) := by
  have hp : 0 < data.length := List.length_pos_of_ne_nil hd
  have hl : (data ++ List.replicate (padTo4 data.length-data.length) 0).length =
      padTo4 data.length := by
    simp [le_padTo4]
  have ht : (data ++ List.replicate (padTo4 data.length-data.length) 0).take data.length = data :=
    List.take_left
  unfold recvData sendData
  rw [if_pos hp,List.append_assoc,readExact_append hl]
  cases digests.data with
  | false =>
    simp only [bind,Except.bind,ht,Bool.false_eq_true,if_false,pure,Except.pure,List.nil_append]
  | true =>
    have hl : (dataDigest c data).length = 4 := by simp [dataDigest]
    simp only [bind,Except.bind,ht,if_true,readExact_append hl,verifyDataDigest_self,
      pure,Except.pure]

theorem Pdu.Framed.parse {p : Pdu} (h : p.Framed) :
    ∃ b, Bhs.parse ⟨p.bhs.serialize,p.bhs.serialize_length⟩ = .ok b ∧
      b.serialize = p.bhs.serialize ∧ b.dataSegmentLength = p.bhs.dataSegmentLength := by
  apply Bhs.parse_serialize
  have hl := h.length
  split at hl
  · omega
  · rw [hl]
    decide

theorem recvPdu_send (c : Crc32c) (digests : DigestConfig) {p : Pdu} (h : p.Framed) (s : Bytes) :
    ∃ q, recvPdu c digests (sendPdu c digests p ++ s) = .ok (q,s) ∧ p.Same q := by
  obtain ⟨b,hb,hs,hd⟩ := h.parse
  refine ⟨⟨b,none,p.data⟩,?_,hs,h.noAhs.symm,rfl⟩
  have hh := recvHeader_send c digests ⟨p.bhs.serialize,p.bhs.serialize_length⟩
  simp only [recvPdu,sendPdu,h.noAhs,List.append_assoc]
  rw [hh]
  simp only [bind,Except.bind,hb,hd]
  have hl := h.length
  split at hl
  · rename_i data hdata
    rw [hdata,← hl.2.1,recvData_send hl.1]
    rfl
  · rename_i hdata
    rw [hdata,hl]
    rfl

theorem readExact_extend {n : Nat} {s rest : Bytes} {b : Bytes.Sized n}
    (h : readExact n s = .ok (b,rest)) (t : Bytes) : readExact n (s ++ t) = .ok (b,rest ++ t) := by
  unfold readExact at h
  split at h
  · rename_i hn
    cases h
    rw [← readExact_append (by simp [hn] : (s.take n).length = n),← List.append_assoc,
      List.take_append_drop]
  · cases h

theorem recvHeader_extend {s rest : Bytes} {b : Bytes.Sized 48}
    (h : recvHeader c digests s = .ok (b,rest)) (t : Bytes) :
    recvHeader c digests (s ++ t) = .ok (b,rest ++ t) := by
  unfold recvHeader at h ⊢
  obtain ⟨⟨buf,s'⟩,hb,h⟩ := bind_eq_ok.mp h
  refine bind_eq_ok.mpr ⟨_,readExact_extend hb t,?_⟩
  dsimp only at h ⊢
  split at h
  · rename_i hc
    rw [if_pos hc]
    obtain ⟨⟨hd,s''⟩,hd',h⟩ := bind_eq_ok.mp h
    obtain ⟨u,hv,h⟩ := bind_eq_ok.mp h
    cases h
    exact bind_eq_ok.mpr ⟨_,readExact_extend hd' t,bind_eq_ok.mpr ⟨u,hv,rfl⟩⟩
  · rename_i hc
    rw [if_neg hc]
    cases h
    rfl

theorem recvData_extend {n : Nat} {s rest : Bytes} {d : Option Bytes}
    (h : recvData c digests n s = .ok (d,rest)) (t : Bytes) :
    recvData c digests n (s ++ t) = .ok (d,rest ++ t) := by
  unfold recvData at h ⊢
  split at h
  · rename_i hn
    rw [if_pos hn]
    obtain ⟨⟨buf,s'⟩,hb,h⟩ := bind_eq_ok.mp h
    refine bind_eq_ok.mpr ⟨_,readExact_extend hb t,?_⟩
    dsimp only at h ⊢
    split at h
    · rename_i hc
      rw [if_pos hc]
      obtain ⟨⟨dd,s''⟩,hd',h⟩ := bind_eq_ok.mp h
      obtain ⟨u,hv,h⟩ := bind_eq_ok.mp h
      cases h
      exact bind_eq_ok.mpr ⟨_,readExact_extend hd' t,bind_eq_ok.mpr ⟨u,hv,rfl⟩⟩
    · rename_i hc
      rw [if_neg hc]
      cases h
      rfl
  · rename_i hn
    rw [if_neg hn]
    cases h
    rfl

theorem recvPdu_extend {s rest : Bytes} {p : Pdu} (h : recvPdu c digests s = .ok (p,rest))
    (t : Bytes) : recvPdu c digests (s ++ t) = .ok (p,rest ++ t) := by
  unfold recvPdu at h ⊢
  obtain ⟨⟨buf,s'⟩,hb,h⟩ := bind_eq_ok.mp h
  obtain ⟨b,hp,h⟩ := bind_eq_ok.mp h
  obtain ⟨⟨d,s''⟩,hd,h⟩ := bind_eq_ok.mp h
  cases h
  exact bind_eq_ok.mpr ⟨_,recvHeader_extend hb t,bind_eq_ok.mpr ⟨b,hp,
    bind_eq_ok.mpr ⟨_,recvData_extend hd t,rfl⟩⟩⟩

theorem recvPdus_send (c : Crc32c) (digests : DigestConfig) (ps : List Pdu)
    (h : ∀ p ∈ ps, p.Framed) (s : Bytes) :
    ∃ qs, recvPdus c digests ps.length ((ps.map (sendPdu c digests)).flatten ++ s) = .ok (qs,s) ∧
      List.Forall₂ Pdu.Same ps qs := by
  induction ps with
  | nil => exact ⟨[],rfl,.nil⟩
  | cons p ps ih =>
    obtain ⟨qs,hqs,hsame⟩ := ih (fun q hq => h q (by simp [hq]))
    obtain ⟨q,hq,hpq⟩ := recvPdu_send c digests (h p (by simp))
      ((ps.map (sendPdu c digests)).flatten ++ s)
    refine ⟨q :: qs,?_,.cons hpq hsame⟩
    simp only [List.map_cons,List.flatten_cons,List.append_assoc,List.length_cons,recvPdus,hq,
      bind,Except.bind,hqs,pure,Except.pure]

theorem recvPdu_cut {p : Pdu} (h : p.Framed) {s : Bytes} (hs : s <+: sendPdu c digests p)
    (hne : s ≠ sendPdu c digests p) : ∃ e, recvPdu c digests s = .error e := by
  cases hr : recvPdu c digests s with
  | error e => exact ⟨e,rfl⟩
  | ok r =>
    obtain ⟨t,ht⟩ := hs
    obtain ⟨q,hq,_⟩ := recvPdu_send c digests h []
    have hx : recvPdu c digests (s ++ t) = .ok (r.1,r.2 ++ t) := recvPdu_extend hr t
    rw [ht,← List.append_nil (sendPdu c digests p),hq] at hx
    have hnil : r.2 ++ t = [] := (congrArg Prod.snd (Except.ok.inj hx)).symm
    rw [(List.append_eq_nil_iff.mp hnil).2,List.append_nil] at ht
    exact absurd ht hne

/-- What one end sends is what the other end receives, PDU by PDU, to the last byte. -/
theorem stream_round_trip (c : Crc32c) (digests : DigestConfig) (ps : List Pdu)
    (h : ∀ p ∈ ps, p.Framed) :
    (∃ qs, recvPdus c digests ps.length (ps.map (sendPdu c digests)).flatten = .ok (qs,[]) ∧
      List.Forall₂ Pdu.Same ps qs) ∧
    ∀ p ∈ ps, ∀ s, s <+: sendPdu c digests p → s ≠ sendPdu c digests p →
      ∃ e, recvPdu c digests s = .error e := by
  constructor
  · have hs := recvPdus_send c digests ps h []
    rwa [List.append_nil] at hs
  · intro p hp s hs hne
    exact recvPdu_cut (h p hp) hs hne

def hello : Pdu :=
  ⟨(Bhs.buildNopOut 42 0xFFFFFFFF 1 0).setDataSegmentLength 5,none,some [104,101,108,108,111]⟩

def ping : Pdu := ⟨Bhs.buildNopOut 0xFFFFFFFF 0xFFFFFFFF 1 0,none,none⟩

theorem hello_framed : hello.Framed := ⟨rfl,⟨List.cons_ne_nil _ _,rfl,by decide⟩⟩

theorem ping_framed : ping.Framed := ⟨rfl,rfl⟩

theorem stream_round_trip_hello :
    (∃ qs, recvPdus .castagnoli ⟨true,true⟩ 3 ([hello,ping,hello].map
      (sendPdu .castagnoli ⟨true,true⟩)).flatten = .ok (qs,[]) ∧
        List.Forall₂ Pdu.Same [hello,ping,hello] qs) ∧
    ∀ p ∈ [hello,ping,hello], ∀ s, s <+: sendPdu .castagnoli ⟨true,true⟩ p →
      s ≠ sendPdu .castagnoli ⟨true,true⟩ p → ∃ e, recvPdu .castagnoli ⟨true,true⟩ s = .error e := by
  refine stream_round_trip .castagnoli ⟨true,true⟩ [hello,ping,hello] (fun p hp => ?_)
  simp only [List.mem_cons,List.not_mem_nil,or_false] at hp
  rcases hp with rfl | rfl | rfl
  · exact hello_framed
  · exact ping_framed
  · exact hello_framed

end IscsiFuse.Iscsi
