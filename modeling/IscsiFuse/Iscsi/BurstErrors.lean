import IscsiFuse.Iscsi.Digests
set_option autoImplicit false

namespace IscsiFuse.Iscsi

def ErrorBurst (b b' : Bytes) : Prop := ∃ u w w' z, b = u ++ (w ++ z) ∧ b' = u ++ (w' ++ z) ∧
  w'.length = w.length ∧ w.length ≤ 4

def leWord : Bytes → BitVec 32
  | [] => 0
  | b :: w => BitVec.ofNat 32 b.toNat ^^^ leWord w <<< 8

theorem byte_bit (b : UInt8) {i : Nat} (hi : 8 ≤ i) : (BitVec.ofNat 32 b.toNat).getLsbD i = false := by
  have hlt : b.toNat < 2^i :=
    Nat.lt_of_lt_of_le b.toNat_lt (Nat.pow_le_pow_right (by decide) hi)
  rw [BitVec.getLsbD_ofNat,Nat.testBit_lt_two_pow hlt,Bool.and_false]

theorem byte_low (b : UInt8) {i : Nat} (hi : i < 8) :
    (BitVec.ofNat 32 b.toNat).getLsbD i = b.toBitVec.getLsbD i := by
  rw [← UInt8.toNat_toBitVec,BitVec.ofNat_toNat,BitVec.getLsbD_setWidth]
  simp [show i < 32 by omega]

theorem leWord_high (w : Bytes) {i : Nat} (hi : 8*w.length ≤ i) : (leWord w).getLsbD i = false := by
  induction w generalizing i with
  | nil => simp [leWord]
  | cons b w ih =>
    rw [List.length_cons] at hi
    rw [leWord,BitVec.getLsbD_xor,byte_bit b (by omega),BitVec.getLsbD_shiftLeft,
      ih (by omega : 8*w.length ≤ i-8)]
    simp

theorem leWord_inj {u w : Bytes} (hl : w.length = u.length) (hu : u.length ≤ 4)
    (h : leWord u = leWord w) : u = w := by
  induction u generalizing w with
  | nil => exact (List.length_eq_zero_iff.mp hl).symm
  | cons a u ih =>
    cases w with
    | nil => cases hl
    | cons b w =>
      simp only [List.length_cons,Nat.add_right_cancel_iff] at hl hu
      have hbit : ∀ i < 32, (leWord (a :: u)).getLsbD i = (leWord (b :: w)).getLsbD i :=
        fun i _ => by rw [h]
      simp only [leWord,BitVec.getLsbD_xor,BitVec.getLsbD_shiftLeft] at hbit
      have hab : a = b := by
        apply UInt8.toBitVec_inj.mp
        apply BitVec.eq_of_getLsbD_eq
        intro i hi
        have hx := hbit i (by omega)
        rw [byte_low a hi,byte_low b hi] at hx
        simpa [hi] using hx
      have huw : leWord u = leWord w := by
        apply BitVec.eq_of_getLsbD_eq
        intro i hi
        by_cases h24 : i < 24
        · have hx := hbit (i+8) (by omega)
          rw [byte_bit a (by omega),byte_bit b (by omega)] at hx
          simpa [show i+8 < 32 by omega] using hx
        · rw [leWord_high u (by omega),leWord_high w (by omega)]
      rw [hab,ih hl (by omega) huw]

theorem crcBit_eq_zero {x : BitVec 32} (h : crcBit x = 0#32) : x = 0#32 := by
  unfold crcBit at h
  split at h
  · have hb := congrArg (fun w => w.getLsbD 31) h
    simp at hb
  · rename_i h0
    apply BitVec.eq_of_getLsbD_eq
    intro i hi
    cases i with
    | zero => simpa using h0
    | succ i =>
      have hb := congrArg (fun w => w.getLsbD i) h
      simpa [Nat.add_comm 1] using hb

theorem crcBits_injective (n : Nat) : Function.Injective (Nat.repeat crcBit n) := by
  induction n with
  | zero => exact fun _ _ h => h
  | succ n ih =>
    intro x y h
    have hz : crcBit (Nat.repeat crcBit n x ^^^ Nat.repeat crcBit n y) = 0#32 := by
      rw [crcBit_linear]
      exact BitVec.xor_eq_zero_iff.mpr h
    exact ih (BitVec.xor_eq_zero_iff.mp (crcBit_eq_zero hz))

theorem repeat_add (m n : Nat) (x : BitVec 32) :
    Nat.repeat crcBit (m+n) x = Nat.repeat crcBit m (Nat.repeat crcBit n x) := by
  induction m with
  | zero => rw [Nat.zero_add]; rfl
  | succ m ih => rw [Nat.succ_add,Nat.repeat,ih]; rfl

theorem foldl_crcByte (s : BitVec 32) {w : Bytes} (hw : w.length ≤ 4) :
    w.foldl crcByte s = Nat.repeat crcBit (8*w.length) (s ^^^ leWord w) := by
  induction w generalizing s with
  | nil => exact BitVec.xor_zero.symm
  | cons b w ih =>
    rw [List.length_cons] at hw
    have hshift : Nat.repeat crcBit 8 (leWord w <<< 8) = leWord w := by
      rw [repeat_crcBit_low (by intro i hi; simp [hi])]
      apply BitVec.eq_of_getLsbD_eq
      intro i hi
      by_cases h24 : i < 24
      · rw [BitVec.getLsbD_ushiftRight,BitVec.getLsbD_shiftLeft]
        simp [show 8+i < 32 by omega]
      · have h0 := leWord_high w (show 8*w.length ≤ i by omega)
        simpa [show ¬ 8+i < 32 by omega] using h0.symm
    have hstep : crcByte s b ^^^ leWord w =
        Nat.repeat crcBit 8 (s ^^^ leWord (b :: w)) := by
      rw [leWord,← BitVec.xor_assoc,crcBit_linear.iterate 8,hshift]
      rfl
    rw [List.foldl_cons,ih _ (by omega),hstep,List.length_cons,Nat.mul_succ,repeat_add]

theorem foldl_crcByte_inj {s t : BitVec 32} (z : Bytes)
    (h : z.foldl crcByte s = z.foldl crcByte t) : s = t := by
  induction z generalizing s t with
  | nil => exact h
  | cons b z ih =>
    have hx := crcBits_injective 8 (ih h)
    exact (BitVec.xor_left_inj _).mp hx

theorem ErrorBurst.eq_of_crc {b b' : Bytes} (h : ErrorBurst b b')
    (hc : crcAppend 0 b = crcAppend 0 b') :
    b = b' := by
  obtain ⟨u,w,w',z,rfl,rfl,hl,hw⟩ := h
  have hf := BitVec.not_inj.mp hc
  simp only [List.foldl_append] at hf
  have hs := foldl_crcByte_inj z hf
  rw [foldl_crcByte (u.foldl crcByte _) hw,
    foldl_crcByte (u.foldl crcByte _) (show w'.length ≤ 4 by omega),hl] at hs
  have hx := (BitVec.xor_right_inj _).mp (crcBits_injective _ hs)
  rw [leWord_inj hl hw hx]

theorem ErrorBurst.length {b b' : Bytes} (h : ErrorBurst b b') : b'.length = b.length := by
  obtain ⟨u,w,w',z,rfl,rfl,hl,_⟩ := h
  simp [hl]

/-- The five parts of a PDU on the wire. -/
structure Parts where
  header : Bytes.Sized 48
  headerDigest : Bytes.Sized 4
  data : Bytes
  padding : Bytes
  dataDigest : Bytes

def Parts.bytes (x : Parts) : Bytes :=
  x.header.1 ++ (x.headerDigest.1 ++ (x.data ++ (x.padding ++ x.dataDigest)))

variable (c : Crc32c)

def Bhs.onWire (b : Bhs) : Bytes.Sized 48 := ⟨b.serialize,b.serialize_length⟩

def Crc32c.ofHeader (header : Bytes.Sized 48) (ahs : Option Bytes) : Bytes.Sized 4 :=
  ⟨headerDigest c header ahs,headerDigest_length header ahs⟩

/-- The parts that `send_pdu` writes. -/
def Pdu.parts (p : Pdu) : Parts where
  header := p.bhs.onWire
  headerDigest := c.ofHeader p.bhs.onWire p.ahs
  data := p.data.getD []
  padding := List.replicate (padTo4 (p.data.getD []).length-(p.data.getD []).length) 0
  dataDigest := p.data.elim [] (Iscsi.dataDigest c)

/-- One part is damaged: header or data by a burst, the others in any way. -/
inductive Damaged (x : Parts) : Parts → Prop
  | header (b : Bytes.Sized 48) : ErrorBurst x.header.1 b.1 → Damaged x { x with header := b }
  | headerDigest (b : Bytes.Sized 4) : Damaged x { x with headerDigest := b }
  | data (b : Bytes) : ErrorBurst x.data b → Damaged x { x with data := b }
  | padding (b : Bytes) : b.length = x.padding.length → Damaged x { x with padding := b }
  | dataDigest (b : Bytes) : b.length = x.dataDigest.length → Damaged x { x with dataDigest := b }

variable {c}

theorem sendPdu_parts (p : Pdu) : sendPdu c ⟨true,true⟩ p = (p.parts c).bytes := by
  rw [sendPdu_wire]
  unfold wire Parts.bytes Pdu.parts
  cases p.data with
  | some data => rfl
  | none => simp [padTo4,Bhs.onWire,Crc32c.ofHeader]

theorem recvPdu_header {x : Parts} {s t : Bytes} {q : Pdu}
    (h : recvPdu c ⟨true,true⟩ (x.bytes ++ s) = .ok (q,t)) :
    x.headerDigest.1 = headerDigest c x.header none ∧ Bhs.parse x.header = .ok q.bhs ∧ q.ahs = none ∧
      recvData c ⟨true,true⟩ q.bhs.dataSegmentLength.toNat
        (x.data ++ (x.padding ++ x.dataDigest) ++ s) = .ok (q.data,t) := by
  unfold recvPdu at h
  rw [Parts.bytes,List.append_assoc,List.append_assoc,recvHeader_wire c x.header x.headerDigest.2] at h
  obtain ⟨⟨b,s'⟩,hh,h⟩ := bind_eq_ok.mp h
  obtain ⟨bhs,hb,h⟩ := bind_eq_ok.mp h
  obtain ⟨⟨data,s''⟩,hd,h⟩ := bind_eq_ok.mp h
  cases h
  cases hv : verifyHeaderDigest c x.header none x.headerDigest.1 with
  | error e =>
    rw [hv] at hh
    cases hh
  | ok u =>
    rw [hv] at hh
    cases hh
    exact ⟨verifyHeaderDigest_ok hv,hb,rfl,hd⟩

theorem recvData_parts {d pad dd s t : Bytes} {data : Option Bytes} (hne : 0 < d.length)
    (hp : (d ++ pad).length = padTo4 d.length) (hl : dd.length = 4)
    (h : recvData c ⟨true,true⟩ d.length (d ++ (pad ++ dd) ++ s) = .ok (data,t)) :
    dd = dataDigest c d ∧ data = some d ∧ t = s := by
  unfold recvData at h
  rw [if_pos hne,← List.append_assoc,List.append_assoc,readExact_append hp] at h
  simp only [bind,Except.bind,if_true,readExact_append hl] at h
  have ht : (d ++ pad).take d.length = d := List.take_left
  rw [ht] at h
  cases hv : verifyDataDigest c d dd with
  | error e =>
    rw [hv] at h
    cases h
  | ok u =>
    rw [hv] at h
    cases h
    exact ⟨verifyDataDigest_ok hv,rfl,rfl⟩

theorem headerDigest_burst (hc : c.Standard) {b b' : Bytes.Sized 48} (h : ErrorBurst b.1 b'.1)
    (hd : headerDigest c b none = headerDigest c b' none) : b = b' := by
  rw [headerDigest_eq hc,headerDigest_eq hc,List.reverse_inj] at hd
  simp only [Option.getD_none,List.append_nil] at hd
  exact Subtype.ext (h.eq_of_crc (octets_inj hd))

theorem dataDigest_burst (hc : c.Standard) {b b' : Bytes} (h : ErrorBurst b b')
    (hd : dataDigest c b = dataDigest c b') : b = b' := by
  rw [dataDigest,dataDigest,toBe_word,toBe_word,List.reverse_inj,hc.whole,hc.whole] at hd
  exact h.eq_of_crc (octets_inj hd)

theorem recvPdu_intact {p : Pdu} (hp : p.Framed) {x : Parts} {s t : Bytes} {q : Pdu}
    (hh : x.header = (p.parts c).header) (hd : x.data.length = (p.parts c).data.length)
    (hpad : x.padding.length = (p.parts c).padding.length)
    (hl : x.dataDigest.length = (p.parts c).dataDigest.length)
    (h : recvPdu c ⟨true,true⟩ (x.bytes ++ s) = .ok (q,t)) :
    q.bhs.serialize = p.bhs.serialize ∧ q.ahs = p.ahs ∧ t = s ∧
      q.data = p.data.map (fun _ => x.data) ∧
      ∀ data, p.data = some data → x.dataDigest = dataDigest c x.data := by
  obtain ⟨_,hb,hahs,hdata⟩ := recvPdu_header h
  obtain ⟨b,hparse,hser,hlen⟩ := hp.parse
  rw [hh] at hb
  obtain rfl : b = q.bhs := Except.ok.inj (hparse.symm.trans hb)
  have hfr := hp.length
  refine ⟨hser,hahs.trans hp.noAhs.symm,?_⟩
  unfold Pdu.parts at hd hpad hl
  rw [hlen] at hdata
  cases hpd : p.data with
  | none =>
    rw [hpd] at hfr hd hpad hl
    have hnd : x.data = [] := List.length_eq_zero_iff.mp hd
    have hnp : x.padding = [] := List.length_eq_zero_iff.mp hpad
    have hnl : x.dataDigest = [] := List.length_eq_zero_iff.mp hl
    rw [hnd,hnp,hnl,hfr] at hdata
    obtain ⟨hq,ht⟩ := Prod.mk.inj (Except.ok.inj hdata)
    exact ⟨ht.symm,hq.symm,fun _ hx => by cases hx⟩
  | some data =>
    rw [hpd] at hfr hd hpad hl
    simp only [Option.getD_some] at hd hpad
    have hpos : 0 < x.data.length := hd ▸ List.length_pos_of_ne_nil hfr.1
    have hpadded : (x.data ++ x.padding).length = padTo4 x.data.length := by
      have hle := le_padTo4 data.length
      rw [List.length_append,hpad,hd,List.length_replicate]
      omega
    have hfour : x.dataDigest.length = 4 := hl.trans (by simp [Iscsi.dataDigest])
    rw [← hfr.2.1,← hd] at hdata
    obtain ⟨hdd,hq,ht⟩ := recvData_parts hpos hpadded hfour hdata
    exact ⟨ht,hq,fun _ _ => hdd⟩

/-- With both digests on, a PDU damaged in one part is refused, or received as it was sent. -/
theorem burst_detected (hc : c.Standard) {p : Pdu} (hp : p.Framed) {x : Parts}
    (hx : Damaged (p.parts c) x) {s t : Bytes} {q : Pdu}
    (h : recvPdu c ⟨true,true⟩ (x.bytes ++ s) = .ok (q,t)) : p.Same q ∧ t = s := by
  have hheader : x.header = (p.parts c).header := by
    have hd := (recvPdu_header h).1
    cases hx with
    | header b hb =>
      refine (headerDigest_burst hc hb ?_).symm
      have hsent : (p.parts c).headerDigest.1 = headerDigest c (p.parts c).header none :=
        congrArg (headerDigest c _) hp.noAhs
      exact hsent.symm.trans hd
    | _ => rfl
  have hlen : x.data.length = (p.parts c).data.length := by
    cases hx with
    | data b hb => exact hb.length
    | _ => rfl
  have hpad : x.padding.length = (p.parts c).padding.length := by
    cases hx with
    | padding b hb => exact hb
    | _ => rfl
  have hdd : x.dataDigest.length = (p.parts c).dataDigest.length := by
    cases hx with
    | dataDigest b hb => exact hb
    | _ => rfl
  obtain ⟨hser,hahs,ht,hq,hdig⟩ := recvPdu_intact hp hheader hlen hpad hdd h
  refine ⟨⟨hser,hahs,?_⟩,ht⟩
  rw [hq]
  cases hpd : p.data with
  | none => rfl
  | some data =>
    have hdig := hdig data hpd
    have hsent : (p.parts c).data = data := by simp [Pdu.parts,hpd]
    refine congrArg some (Eq.trans ?_ hsent)
    cases hx with
    | data b hb =>
      refine (dataDigest_burst hc hb (Eq.trans ?_ hdig)).symm
      rw [hsent]
      simp [Pdu.parts,hpd]
    | _ => rfl

theorem ok_of_toOption {ε α : Type} {x : Except ε α} {a : α} (h : x.toOption = some a) :
    x = .ok a := by
  cases x with
  | error e => cases h
  | ok b => cases h; rfl

theorem burst_detected_padding : ∃ q, recvPdu .castagnoli ⟨true,true⟩
    ({ hello.parts .castagnoli with padding := [1,2,3] }.bytes ++ []) = .ok (q,[]) ∧
      hello.Same q := by
  have hok : ((recvPdu .castagnoli ⟨true,true⟩
      ({ hello.parts .castagnoli with padding := [1,2,3] }.bytes ++ [])).toOption.map Prod.snd) =
        some [] := by decide +kernel
  obtain ⟨⟨q,t⟩,hr,ht⟩ := Option.map_eq_some_iff.mp hok
  cases ht
  have hq := ok_of_toOption hr
  exact ⟨q,hq,(burst_detected castagnoli_standard hello_framed (.padding [1,2,3] rfl) hq).1⟩

def bentPing : Bytes :=
  (sendPdu .castagnoli ⟨true,true⟩ ping).zipWith (· ^^^ ·)
    (List.replicate 47 0 ++ [0x5D,0xEE,0x0D,0x96,0])

/-- Four bytes in a row that are not of one part: with the bytes of the digest in the other order
the receiver takes a changed header for what was sent. -/
theorem straddling_burst_taken : ErrorBurst (sendPdu .castagnoli ⟨true,true⟩ ping) bentPing ∧
    ∃ q, recvPdu .castagnoli ⟨true,true⟩ bentPing = .ok (q,[]) ∧ ¬ ping.Same q := by
  refine ⟨⟨(sendPdu .castagnoli ⟨true,true⟩ ping).take 47,
    ((sendPdu .castagnoli ⟨true,true⟩ ping).drop 47).take 4,(bentPing.drop 47).take 4,
    bentPing.drop 51,by decide +kernel,by decide +kernel,by decide +kernel,by decide +kernel⟩,?_⟩
  have hok : ((recvPdu .castagnoli ⟨true,true⟩ bentPing).toOption.map
      (fun r => (r.1.bhs.serialize,r.2))) = some (bentPing.take 48,[]) := by decide +kernel
  obtain ⟨⟨q,t⟩,hr,ht⟩ := Option.map_eq_some_iff.mp hok
  obtain ⟨hser,rfl⟩ := Prod.mk.inj ht
  refine ⟨q,ok_of_toOption hr,fun h => absurd (hser.symm.trans h.header) (by decide +kernel)⟩

end IscsiFuse.Iscsi
