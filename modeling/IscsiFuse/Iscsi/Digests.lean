import IscsiFuse.Iscsi.Transport
import IscsiFuse.Library.XorMap
set_option autoImplicit false

/-!
The digests against the standard ones. A standard digest puts its word on the wire
least significant byte first and covers the padding; what the code writes is the
same four bytes exactly when the word it computes reads the same both ways.
-/

namespace IscsiFuse.Iscsi

/-- The crate returns the reflected CRC-32C, of the whole or part by part. -/
structure Crc32c.Standard (c : Crc32c) : Prop where
  whole : ∀ b, c.crc32c b = crcAppend 0 b
  append : ∀ a b, c.crc32cAppend (c.crc32c a) b = c.crc32c (a ++ b)

def octet (w : BitVec 32) (i : Nat) : UInt8 := UInt8.ofBitVec (w.extractLsb' (8*i) 8)

def octets (w : BitVec 32) : Bytes := (List.range 4).map (octet w)

def swapBytes (w : BitVec 32) : BitVec 32 := BitVec.ofNat 32 (Bytes.ofBe (octets w))

def Mirrored (k : Nat) (w : BitVec 32) : Prop :=
  (octets w).take k = List.replicate k 0xFF ∧ ((octets w).drop k).reverse = (octets w).drop k

instance (k : Nat) (w : BitVec 32) : Decidable (Mirrored k w) :=
  inferInstanceAs (Decidable (_ ∧ _))

theorem octet_ofNat (w : BitVec 32) (i : Nat) : UInt8.ofNat (w.toNat/256^i) = octet w i := by
  apply UInt8.toNat.inj
  simp [octet,Nat.shiftRight_eq_div_pow,pow_mul]

theorem toBe_word (w : BitVec 32) : Bytes.toBe 4 w.toNat = (octets w).reverse := by
  simp only [Bytes.toBe,octet_ofNat]
  rfl

theorem octets_inj {x y : BitVec 32} (h : octets x = octets y) : x = y := by
  have hn := congrArg (fun b => Bytes.ofBe b.reverse) h
  have hx : x.toNat%256^4 = x.toNat := Nat.mod_eq_of_lt x.isLt
  have hy : y.toNat%256^4 = y.toNat := Nat.mod_eq_of_lt y.isLt
  simp only [← toBe_word,Bytes.ofBe_toBe,hx,hy] at hn
  exact BitVec.eq_of_toNat_eq hn

@[simp] theorem octets_length (w : BitVec 32) : (octets w).length = 4 := rfl

theorem octets_xor (x y : BitVec 32) :
    octets (x ^^^ y) = (octets x).zipWith (· ^^^ ·) (octets y) := by
  have ho : ∀ i, octet (x ^^^ y) i = octet x i ^^^ octet y i := by
    intro i
    apply UInt8.toBitVec_inj.mp
    simp [octet,BitVec.extractLsb'_xor]
  rw [octets,funext ho]
  rfl

theorem octets_swapBytes (w : BitVec 32) : octets (swapBytes w) = (octets w).reverse := by
  have hl : Bytes.ofBe (octets w) < 2^32 := by
    have hw := Bytes.ofBe_lt (octets w)
    rwa [octets_length] at hw
  have hb : Bytes.toBe 4 (Bytes.ofBe (octets w)) = octets w := Bytes.toBe_ofBe (octets w)
  rw [← List.reverse_reverse (octets (swapBytes w)),← toBe_word,swapBytes,BitVec.toNat_ofNat,
    Nat.mod_eq_of_lt hl,hb]

theorem swapBytes_linear : XorMap.Linear swapBytes := by
  intro x y
  apply octets_inj
  rw [octets_swapBytes,octets_xor,octets_xor,octets_swapBytes,octets_swapBytes]
  rfl

theorem swapBytes_not (w : BitVec 32) : swapBytes (~~~w) = ~~~swapBytes w := by
  rw [← BitVec.allOnes_xor (x := w),swapBytes_linear,← BitVec.allOnes_xor]
  rfl

theorem octet_eq_ones {w : BitVec 32} {i : Nat} :
    octet w i = 0xFF ↔ ∀ j < 8, w.getLsbD (8*i+j) = true := by
  have ho : ∀ (j : Nat) (h : j < 8), (0xFF#8)[j] = true := by decide
  constructor
  · intro h j hj
    have hb := congrArg (fun b => b.toBitVec.getLsbD j) h
    simpa [octet,hj,ho] using hb
  · intro h
    apply UInt8.toBitVec_inj.mp
    apply BitVec.eq_of_getLsbD_eq
    intro j hj
    simp [octet,hj,h j hj,ho]

theorem take_octets {k : Nat} (hk : k ≤ 4) (w : BitVec 32) :
    (octets w).take k = List.replicate k 0xFF ↔ ∀ i < 8*k, (~~~w).getLsbD i = false := by
  have ht : (octets w).take k = (List.range k).map (octet w) := by
    rw [octets,← List.map_take,List.take_range,Nat.min_eq_left hk]
  rw [ht,List.eq_replicate_iff]
  constructor
  · intro ⟨_,h⟩ i hi
    have ho : octet w (i/8) = 0xFF := h _ (List.mem_map_of_mem (List.mem_range.mpr (by omega)))
    have hb := octet_eq_ones.mp ho (i%8) (by omega)
    rw [Nat.div_add_mod] at hb
    simp [hb]
  · intro h
    refine ⟨by simp,fun b hb => ?_⟩
    obtain ⟨i,hi,rfl⟩ := List.mem_map.mp hb
    have hi := List.mem_range.mp hi
    refine octet_eq_ones.mpr (fun j hj => ?_)
    have hn := h (8*i+j) (by omega)
    simpa [show 8*i+j < 32 by omega] using hn

theorem octet_shift (k : Nat) (w : BitVec 32) {i : Nat} (hi : i < 4) :
    octet (~~~(~~~w >>> (8*k))) i = if i+k < 4 then octet w (i+k) else 0xFF := by
  split
  · rename_i h
    apply UInt8.toBitVec_inj.mp
    apply BitVec.eq_of_getLsbD_eq
    intro j hj
    have hs : 8*k+(8*i+j) = 8*(i+k)+j := by omega
    simp [octet,hj,hs,show 8*i+j < 32 by omega,show 8*(i+k)+j < 32 by omega]
  · rename_i h
    refine octet_eq_ones.mpr (fun j hj => ?_)
    simp [show 8*i+j < 32 by omega,show ¬ 8*k+(8*i+j) < 32 by omega]

theorem octets_shift {k : Nat} (hk : k ≤ 4) (w : BitVec 32) :
    octets (~~~(~~~w >>> (8*k))) = (octets w).drop k ++ List.replicate k 0xFF := by
  apply List.ext_getElem
  · simp [hk]
  · intro i h1 h2
    have hi : i < 4 := by simpa using h1
    simp [octets,octet_shift,hi,List.getElem_append,Nat.lt_sub_iff_add_lt,Nat.add_comm k]

theorem crcBit_linear : XorMap.Linear crcBit := by
  have he : crcBit = fun x : BitVec 32 => x >>> 1 ^^^ (if x.getLsbD 0 then 0x82F63B78 else 0#32) := by
    funext x
    unfold crcBit
    split
    · rfl
    · exact BitVec.xor_zero.symm
  rw [he]
  refine .xor (fun x y => BitVec.ushiftRight_xor_distrib _ _ _) (fun x y => ?_)
  rw [BitVec.getLsbD_xor,XorMap.ite_xor]

theorem repeat_crcBit_low {y : BitVec 32} {n : Nat} (h : ∀ i < n, y.getLsbD i = false) :
    Nat.repeat crcBit n y = y >>> n := by
  induction n with
  | zero => exact (BitVec.ushiftRight_zero y).symm
  | succ n ih =>
    have hz : (y >>> n).getLsbD 0 = false := by simpa using h n (by omega)
    rw [Nat.repeat,ih (fun i hi => h i (by omega)),crcBit,hz,BitVec.shiftRight_add]
    rfl

theorem foldl_zeros (k : Nat) (s : BitVec 32) :
    (List.replicate k 0).foldl crcByte s = Nat.repeat crcBit (8*k) s := by
  induction k with
  | zero => rfl
  | succ k ih =>
    rw [List.replicate_succ',List.foldl_append,ih,List.foldl_cons,List.foldl_nil,crcByte]
    exact congrArg _ BitVec.xor_zero

theorem crcAppend_zeros (crc : BitVec 32) (b : Bytes) (k : Nat) :
    crcAppend crc (b ++ List.replicate k 0) = ~~~Nat.repeat crcBit (8*k) (~~~crcAppend crc b) := by
  rw [crcAppend,List.foldl_append,foldl_zeros,crcAppend,BitVec.not_not]

def lowColumns : (k : Nat) → List (BitVec (8*k))
  | 1 => [0,0,0,0,0,0,0,0,0x59,0xb2,0x64,0x1c,0x61,0x16,0x75,0xea]
  | 2 => [0,0,0,0,0,0,0,0x64f1,0,0,0,0,0,0,0,0x64f1,0,0x7250,0xf201,0xa954,0x95f,0x764f,0xfa3f,
      0xb928,0x5bf7,0x7e0c,0xfc18,0xa3c7,0xa7cb,0xcb22,0xdb12,0xfb72]
  | 3 => [0,0,0,0,0xcf46de,0,0,0,0,0x3582e9,0xa5a017,0xd42e89,0x36d0ae,0x59c0ae,0xb26247,0x32d548,
      0x63932f,0xc11fe1,0xe67649,0xaf7fbd,0xf5f02f,0x8e4ace,0x821820,0x67a36f,0xfcfd88,0x614f13,
      0xc29e26,0x1a52eb,0xc9bb45,0xf6dc1a,0x72d693,0x2b08e3]
  | _ => []

theorem lowColumns_bits : ∀ k ≤ 3, ∀ i < 32, XorMap.columns (lowColumns k)
    (swapBytes (1#32 <<< i) ^^^ Nat.repeat crcBit (8*k) (1#32 <<< i)) =
      (1#32 <<< i).setWidth (8*k) := by
  decide +kernel

/-- Three steps of the register or fewer swap the bytes of no word with a bit in the bytes they drop. -/
theorem low_of_swapBytes {k : Nat} (hk : k ≤ 3) {y : BitVec 32}
    (h : swapBytes y = Nat.repeat crcBit (8*k) y) : ∀ i < 8*k, y.getLsbD i = false := by
  have hz : y.setWidth (8*k) = 0#(8*k) :=
    (swapBytes_linear.xor (crcBit_linear.iterate (8*k))).vanishes (fun _ _ => BitVec.setWidth_xor)
      (lowColumns k) (lowColumns_bits k hk) (by rw [h,BitVec.xor_self])
  intro i hi
  have hb := congrArg (fun x => x.getLsbD i) hz
  simpa [hi] using hb

theorem octets_padded {k : Nat} (hk : k ≤ 3) {w : BitVec 32}
    (h : (octets w).take k = List.replicate k 0xFF) :
    octets (~~~Nat.repeat crcBit (8*k) (~~~w)) = (octets w).reverse ↔ Mirrored k w := by
  have hr : (octets w).reverse = ((octets w).drop k).reverse ++ List.replicate k 0xFF := by
    rw [← List.reverse_replicate,← h,← List.reverse_append,List.take_append_drop]
  rw [repeat_crcBit_low ((take_octets (by omega) w).mp h),octets_shift (by omega),hr,
    List.append_left_inj,Mirrored]
  exact ⟨fun he => ⟨h,he.symm⟩,fun hm => hm.2.symm⟩

theorem octets_padded_iff {k : Nat} (hk : k ≤ 3) (w : BitVec 32) :
    octets (~~~Nat.repeat crcBit (8*k) (~~~w)) = (octets w).reverse ↔ Mirrored k w := by
  constructor
  · intro h
    have hs : swapBytes w = ~~~Nat.repeat crcBit (8*k) (~~~w) :=
      octets_inj ((octets_swapBytes w).trans h.symm)
    have hn : swapBytes (~~~w) = Nat.repeat crcBit (8*k) (~~~w) := by
      rw [swapBytes_not,hs,BitVec.not_not]
    exact (octets_padded hk ((take_octets (by omega) w).mpr (low_of_swapBytes hk hn))).mp h
  · intro h
    exact (octets_padded hk h.1).mpr h

/-- The standard header digest: four bytes, the least significant first. -/
def standardHeaderDigest (header : Bytes) : Bytes := octets (crcAppend 0 header)

/-- The standard data digest, over the padding as well. -/
def standardDataDigest (data : Bytes) : Bytes :=
  octets (crcAppend 0 (data ++ List.replicate (padTo4 data.length-data.length) 0))

/-- A PDU on the wire with a header digest and a data digest. -/
def wire (bhs : Bytes) (data : Option Bytes) (hd dd : Bytes) : Bytes :=
  bhs ++ (hd ++ match data with
    | some data => data ++ (List.replicate (padTo4 data.length-data.length) 0 ++ dd)
    | none => [])

structure Pdu.Received (p : Pdu) : Prop where
  noAhs : p.ahs = none
  header : Bhs.parse ⟨p.bhs.raw,p.bhs.size⟩ = .ok p.bhs
  length : match p.data with
    | some data => data ≠ [] ∧ data.length = p.bhs.dataSegmentLength.toNat
    | none => p.bhs.dataSegmentLength = 0

/-- The digests that `send_pdu` writes are the standard ones. -/
def Pdu.SendsStandard (c : Crc32c) (p : Pdu) : Prop :=
  sendPdu c ⟨true,true⟩ p = wire p.bhs.serialize p.data
    (standardHeaderDigest (p.bhs.serialize ++ p.ahs.getD [])) (standardDataDigest (p.data.getD []))

/-- The digests that `recv_pdu` accepts are the standard ones. -/
def Pdu.ReceivesStandard (c : Crc32c) (p : Pdu) : Prop :=
  ∀ hd dd : Bytes, hd.length = 4 → dd.length = 4 →
    (recvPdu c ⟨true,true⟩ (wire p.bhs.raw p.data hd dd) = .ok (p,[]) ↔
      hd = standardHeaderDigest p.bhs.raw ∧ ∀ data, p.data = some data → dd = standardDataDigest data)

/-- The CRC-32C of the header reads the same both ways, and so does that of the data after
as many bytes of ones as the padding has. -/
def Symmetric (header : Bytes) (data : Option Bytes) : Prop :=
  Mirrored 0 (crcAppend 0 header) ∧ ∀ d, data = some d →
    Mirrored (padTo4 d.length-d.length) (crcAppend 0 d)

variable {c : Crc32c}

theorem recvData_length {digests : DigestConfig} {n : Nat} {s t : Bytes} {data : Option Bytes}
    (h : recvData c digests n s = .ok (data,t)) :
    (n = 0 ∧ data = none) ∨ ∃ d, data = some d ∧ d ≠ [] ∧ d.length = n := by
  unfold recvData at h
  split at h
  · rename_i hn
    obtain ⟨⟨buf,s'⟩,_,h⟩ := bind_eq_ok.mp h
    have hl : (buf.1.take n).length = n := by
      rw [List.length_take,buf.2,Nat.min_eq_left (le_padTo4 n)]
    have hd : data = some (buf.1.take n) := by
      dsimp only at h
      split at h
      · obtain ⟨_,_,h⟩ := bind_eq_ok.mp h
        obtain ⟨_,_,h⟩ := bind_eq_ok.mp h
        cases h
        rfl
      · cases h
        rfl
    exact Or.inr ⟨_,hd,List.ne_nil_of_length_pos (by omega),hl⟩
  · cases h
    exact Or.inl ⟨by omega,rfl⟩

theorem recvPdu_received {digests : DigestConfig} {s t : Bytes} {p : Pdu}
    (h : recvPdu c digests s = .ok (p,t)) : p.Received := by
  obtain ⟨⟨buf,s'⟩,_,h⟩ := bind_eq_ok.mp h
  obtain ⟨b,hb,h⟩ := bind_eq_ok.mp h
  obtain ⟨⟨data,s''⟩,hd,h⟩ := bind_eq_ok.mp h
  cases h
  refine ⟨rfl,?_,?_⟩
  · have hr : (⟨b.raw,b.size⟩ : Bytes.Sized 48) = buf := Subtype.ext (Bhs.parse_raw hb)
    exact hr ▸ hb
  · rcases recvData_length hd with ⟨hn,rfl⟩ | ⟨d,rfl,hne,hl⟩
    · exact BitVec.eq_of_toNat_eq hn
    · exact ⟨hne,hl⟩

theorem headerDigest_eq (h : c.Standard) (bhs : Bytes.Sized 48) (ahs : Option Bytes) :
    headerDigest c bhs ahs = (octets (crcAppend 0 (bhs.1 ++ ahs.getD []))).reverse := by
  rw [← toBe_word,← h.whole]
  cases ahs with
  | none => rw [Option.getD_none,List.append_nil,headerDigest]
  | some a => rw [Option.getD_some,← h.append,headerDigest]

theorem headerDigest_standard_iff (h : c.Standard) (bhs : Bytes.Sized 48) (ahs : Option Bytes) :
    headerDigest c bhs ahs = standardHeaderDigest (bhs.1 ++ ahs.getD []) ↔
      Mirrored 0 (crcAppend 0 (bhs.1 ++ ahs.getD [])) := by
  rw [headerDigest_eq h,standardHeaderDigest]
  exact ⟨fun he => ⟨rfl,he⟩,And.right⟩

theorem pad_le (n : Nat) : padTo4 n-n ≤ 3 := by
  unfold padTo4
  omega

theorem dataDigest_standard_iff (h : c.Standard) (data : Bytes) :
    dataDigest c data = standardDataDigest data ↔
      Mirrored (padTo4 data.length-data.length) (crcAppend 0 data) := by
  rw [dataDigest,h.whole,toBe_word,standardDataDigest,crcAppend_zeros,← octets_padded_iff (pad_le _)]
  exact eq_comm

theorem digests_standard_iff (h : c.Standard) (bhs : Bytes.Sized 48) (ahs data : Option Bytes) :
    (headerDigest c bhs ahs = standardHeaderDigest (bhs.1 ++ ahs.getD []) ∧
      ∀ d, data = some d → dataDigest c d = standardDataDigest d) ↔
    Symmetric (bhs.1 ++ ahs.getD []) data :=
  and_congr (headerDigest_standard_iff h bhs ahs)
    (forall₂_congr fun d _ => dataDigest_standard_iff h d)

theorem verifyHeaderDigest_ok {bhs : Bytes.Sized 48} {ahs : Option Bytes} {hd : Bytes}
    (h : verifyHeaderDigest c bhs ahs hd = .ok ()) : hd = headerDigest c bhs ahs := by
  by_contra hn
  simp [verifyHeaderDigest,Ne.symm hn] at h

theorem verifyDataDigest_ok {data dd : Bytes} (h : verifyDataDigest c data dd = .ok ()) :
    dd = dataDigest c data := by
  by_contra hn
  simp [verifyDataDigest,Ne.symm hn] at h

theorem recvHeader_wire (c : Crc32c) (bhs : Bytes.Sized 48) {hd : Bytes} (hl : hd.length = 4)
    (s : Bytes) : recvHeader c ⟨true,true⟩ (bhs.1 ++ (hd ++ s)) =
      (verifyHeaderDigest c bhs none hd).map fun _ => (bhs,s) := by
  unfold recvHeader
  rw [readExact_append bhs.2]
  simp only [bind,Except.bind,if_true,readExact_append hl]
  cases verifyHeaderDigest c bhs none hd <;> rfl

theorem recvData_wire (c : Crc32c) {data dd : Bytes} (hd : data ≠ []) (hl : dd.length = 4) :
    recvData c ⟨true,true⟩ data.length
        (data ++ (List.replicate (padTo4 data.length-data.length) 0 ++ dd)) =
      (verifyDataDigest c data dd).map fun _ => (some data,[]) := by
  have hp : (data ++ List.replicate (padTo4 data.length-data.length) 0).length =
      padTo4 data.length := by
    simp [le_padTo4]
  have ht : (data ++ List.replicate (padTo4 data.length-data.length) 0).take data.length = data :=
    List.take_left
  have hr := readExact_append hl []
  rw [List.append_nil] at hr
  unfold recvData
  rw [if_pos (List.length_pos_of_ne_nil hd),← List.append_assoc,readExact_append hp]
  simp only [bind,Except.bind,if_true,ht,hr]
  cases verifyDataDigest c data dd <;> rfl

theorem recvPdu_wire (c : Crc32c) {p : Pdu} (h : p.Received) {hd dd : Bytes} (hh : hd.length = 4)
    (hl : dd.length = 4) : recvPdu c ⟨true,true⟩ (wire p.bhs.raw p.data hd dd) = (do
      verifyHeaderDigest c ⟨p.bhs.raw,p.bhs.size⟩ none hd
      (match p.data with
        | some data => verifyDataDigest c data dd
        | none => .ok ())
      pure (p,[])) := by
  have hr := recvHeader_wire c ⟨p.bhs.raw,p.bhs.size⟩ hh
  have hp : p = ⟨p.bhs,none,p.data⟩ := by
    rw [← h.noAhs]
  simp only [recvPdu,wire]
  rw [hr]
  cases verifyHeaderDigest c ⟨p.bhs.raw,p.bhs.size⟩ none hd with
  | error e => rfl
  | ok u =>
    simp only [bind,Except.bind,Except.map,h.header]
    have hf := h.length
    split at hf
    · rename_i data hdata
      rw [hdata] at hp
      rw [← hf.2]
      simp only [recvData_wire c hf.1 hl]
      cases verifyDataDigest c data dd with
      | error e => rfl
      | ok u => exact congrArg (fun q => Except.ok (q,[])) hp.symm
    · rename_i hdata
      rw [hdata] at hp
      rw [hf]
      exact congrArg (fun q => Except.ok (q,[])) hp.symm

theorem recvPdu_wire_iff {p : Pdu} (h : p.Received) {hd dd : Bytes} (hh : hd.length = 4)
    (hl : dd.length = 4) : recvPdu c ⟨true,true⟩ (wire p.bhs.raw p.data hd dd) = .ok (p,[]) ↔
      hd = headerDigest c ⟨p.bhs.raw,p.bhs.size⟩ none ∧
        ∀ data, p.data = some data → dd = dataDigest c data := by
  rw [recvPdu_wire c h hh hl]
  constructor
  · intro hq
    obtain ⟨_,hv,hq⟩ := bind_eq_ok.mp hq
    obtain ⟨_,hw,_⟩ := bind_eq_ok.mp hq
    refine ⟨verifyHeaderDigest_ok hv,fun data hdata => verifyDataDigest_ok ?_⟩
    rw [hdata] at hw
    exact hw
  · intro ⟨he,hdd⟩
    rw [he,verifyHeaderDigest_self]
    cases hdata : p.data with
    | none => rfl
    | some data =>
      simp only [hdd data hdata,verifyDataDigest_self]
      rfl

theorem sendPdu_wire (c : Crc32c) (p : Pdu) : sendPdu c ⟨true,true⟩ p = wire p.bhs.serialize p.data
    (headerDigest c ⟨p.bhs.serialize,p.bhs.serialize_length⟩ p.ahs)
    (dataDigest c (p.data.getD [])) := by
  unfold sendPdu wire sendData
  cases p.data <;> simp

theorem wire_inj {bhs hd hd' dd dd' : Bytes} {data : Option Bytes} (hl : hd.length = hd'.length) :
    wire bhs data hd dd = wire bhs data hd' dd' ↔ hd = hd' ∧ (data ≠ none → dd = dd') := by
  constructor
  · intro h
    obtain ⟨he,ht⟩ := List.append_inj (List.append_cancel_left h) hl
    refine ⟨he,fun hn => ?_⟩
    cases data with
    | none => exact absurd rfl hn
    | some d => exact List.append_cancel_left (List.append_cancel_left ht)
  · intro ⟨he,hd⟩
    cases data with
    | none => rw [he]; rfl
    | some d => rw [he,hd (by simp)]

theorem headerDigest_length (bhs : Bytes.Sized 48) (ahs : Option Bytes) :
    (headerDigest c bhs ahs).length = 4 := by
  simp [headerDigest]

theorem sendsStandard_iff (hc : c.Standard) (p : Pdu) :
    p.SendsStandard c ↔ Symmetric (p.bhs.serialize ++ p.ahs.getD []) p.data := by
  rw [← digests_standard_iff hc ⟨p.bhs.serialize,p.bhs.serialize_length⟩,Pdu.SendsStandard,
    sendPdu_wire,wire_inj (headerDigest_length _ _)]
  refine and_congr_right fun _ => ?_
  cases p.data <;> simp

theorem receivesStandard_iff (hc : c.Standard) {p : Pdu} (h : p.Received) :
    p.ReceivesStandard c ↔ Symmetric p.bhs.raw p.data := by
  have hs := digests_standard_iff hc ⟨p.bhs.raw,p.bhs.size⟩ none p.data
  rw [Option.getD_none,List.append_nil] at hs
  rw [← hs]
  constructor
  · intro hr
    have hx := (hr _ (dataDigest c (p.data.getD [])) (headerDigest_length ⟨p.bhs.raw,p.bhs.size⟩ none)
      (by simp [dataDigest])).mp ((recvPdu_wire_iff h (headerDigest_length _ _)
        (by simp [dataDigest])).mpr ⟨rfl,fun data hdata => by rw [hdata]; rfl⟩)
    refine ⟨hx.1,fun d hd => ?_⟩
    have hy := hx.2 d hd
    rwa [hd] at hy
  · intro he hd dd hh hl
    rw [recvPdu_wire_iff h hh hl,he.1]
    exact and_congr_right fun _ => forall₂_congr fun data hdata => by rw [he.2 data hdata]

/-- The digests conform to the standard exactly where the byte order and the padding do not
matter, for each PDU that is sent and each PDU that is ever received. -/
theorem digests_conform_iff (hc : c.Standard) (p : Pdu) :
    (p.SendsStandard c ↔ Symmetric (p.bhs.serialize ++ p.ahs.getD []) p.data) ∧
      ∀ digests s t, recvPdu c digests s = .ok (p,t) →
        (p.ReceivesStandard c ↔ Symmetric p.bhs.raw p.data) :=
  ⟨sendsStandard_iff hc p,fun _ _ _ h => receivesStandard_iff hc (recvPdu_received h)⟩

theorem castagnoli_standard : Crc32c.castagnoli.Standard where
  whole _ := rfl
  append a b := by
    show crcAppend (crcAppend 0 a) b = crcAppend 0 (a ++ b)
    rw [crcAppend,crcAppend,crcAppend,BitVec.not_not,List.foldl_append]

def symmetric : Pdu where
  bhs := { raw := [0x40,0x80,0,0,0,0,0,3,0,0,0,0,0,0,0,0,0,0,0x54,0x11,0xFF,0xFF,0xFF,0xFF,0,0,0,1] ++
             List.replicate 20 0
           size := rfl
           opcode := .nopOut
           immediate := true
           flags := 0x80
           dataSegmentLength := 3
           lun := 0
           itt := 0x5411 }
  ahs := none
  data := some [121,113,103]

theorem symmetric_received : recvPdu .castagnoli ⟨false,false⟩
    (symmetric.bhs.raw ++ [121,113,103,0]) = .ok (symmetric,[]) := rfl

theorem digests_conform_symmetric :
    symmetric.SendsStandard .castagnoli ∧ symmetric.ReceivesStandard .castagnoli := by
  obtain ⟨hsend,hrecv⟩ := digests_conform_iff castagnoli_standard symmetric
  have hd : ∀ d, symmetric.data = some d → Mirrored (padTo4 d.length-d.length) (crcAppend 0 d) := by
    intro d hd
    cases hd
    decide +kernel
  exact ⟨hsend.mpr ⟨by decide +kernel,hd⟩,(hrecv _ _ _ symmetric_received).mpr ⟨by decide +kernel,hd⟩⟩

/-- The bytes of `hello` as the standard has them are refused, and are not what is sent. -/
theorem hello_digests_differ : Crc32c.castagnoli.Standard ∧ ¬ hello.SendsStandard .castagnoli ∧
    ∀ r, recvPdu .castagnoli ⟨true,true⟩ (wire hello.bhs.serialize hello.data
      (standardHeaderDigest hello.bhs.serialize) (standardDataDigest (hello.data.getD []))) ≠ .ok r := by
  refine ⟨castagnoli_standard,?_,fun r h => ?_⟩
  · unfold Pdu.SendsStandard
    decide +kernel
  · have hb := congrArg Except.toBool h
    change _ = true at hb
    revert hb
    decide +kernel

end IscsiFuse.Iscsi
