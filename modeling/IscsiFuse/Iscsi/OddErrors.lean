import IscsiFuse.Iscsi.BurstErrors
set_option autoImplicit false

namespace IscsiFuse.Iscsi
open XorMap

def bitErrors (b b' : Bytes) : Nat :=
  ((b.zipWith (· ^^^ ·) b').map (fun x => x.toBitVec.cpop.toNat)).sum

def parities (b : Bytes) : BitVec 1 := (b.map (fun x => parity x.toBitVec)).foldr (· ^^^ ·) 0#1

@[simp] theorem parities_nil : parities [] = 0#1 := rfl

@[simp] theorem parities_cons (x : UInt8) (b : Bytes) :
    parities (x :: b) = parity x.toBitVec ^^^ parities b := rfl

@[simp] theorem parities_append (a b : Bytes) : parities (a ++ b) = parities a ^^^ parities b := by
  induction a with
  | nil => exact BitVec.zero_xor.symm
  | cons x a ih => rw [List.cons_append,parities_cons,parities_cons,ih,BitVec.xor_assoc]

theorem parities_reverse (b : Bytes) : parities b.reverse = parities b := by
  induction b with
  | nil => rfl
  | cons x b ih =>
    rw [List.reverse_cons,parities_append,parities_cons,parities_cons,parities_nil,ih,
      BitVec.xor_zero,BitVec.xor_comm]

theorem parities_zipWith {b b' : Bytes} (h : b'.length = b.length) :
    parities (b.zipWith (· ^^^ ·) b') = parities b ^^^ parities b' := by
  induction b generalizing b' with
  | nil =>
    rw [List.length_eq_zero_iff.mp h]
    rfl
  | cons x b ih =>
    cases b' with
    | nil => cases h
    | cons y b' =>
      rw [List.zipWith_cons_cons,parities_cons,parities_cons,parities_cons,
        ih (Nat.succ.inj h),UInt8.toBitVec_xor,parity_linear,xor_comm_mid]

theorem byte_parity (x : UInt8) : BitVec.ofNat 1 x.toBitVec.cpop.toNat = parity x.toBitVec := by
  have h : ∀ n < 256, BitVec.ofNat 1 (UInt8.ofNat n).toBitVec.cpop.toNat =
      parity (UInt8.ofNat n).toBitVec := by decide +kernel
  have hx := h x.toNat x.toNat_lt
  rwa [UInt8.ofNat_toNat] at hx

theorem odd_bitErrors {b b' : Bytes} (h : b'.length = b.length) :
    BitVec.ofNat 1 (bitErrors b b') = parities b ^^^ parities b' := by
  rw [← parities_zipWith h,bitErrors]
  generalize b.zipWith (· ^^^ ·) b' = e
  induction e with
  | nil => rfl
  | cons x e ih =>
    have hadd : ∀ u w : BitVec 1, u+w = u ^^^ w := by decide
    rw [List.map_cons,List.sum_cons,BitVec.ofNat_add,ih,byte_parity,hadd,parities_cons]

theorem crcBit_parity (x : BitVec 32) : parity (crcBit x) = parity x :=
  crcBit_linear.keeps_parity (by decide +kernel) x

theorem crcByte_parity (s : BitVec 32) (x : UInt8) :
    parity (crcByte s x) = parity s ^^^ parity x.toBitVec := by
  have hbits : ∀ n (w : BitVec 32), parity (Nat.repeat crcBit n w) = parity w := by
    intro n w
    induction n with
    | zero => rfl
    | succ n ih => exact (crcBit_parity _).trans ih
  have hwide : parity (x.toBitVec.setWidth 32) = parity x.toBitVec :=
    Linear.keeps_parity (f := BitVec.setWidth 32) (fun _ _ => BitVec.setWidth_xor)
      (by decide +kernel) x.toBitVec
  rw [crcByte,hbits,parity_linear,← UInt8.toNat_toBitVec,BitVec.ofNat_toNat,hwide]

theorem crc_parity (b : Bytes) : parity (crcAppend 0 b) = parities b := by
  have hfold : ∀ s, parity (b.foldl crcByte s) = parity s ^^^ parities b := by
    induction b with
    | nil => exact fun s => BitVec.xor_zero.symm
    | cons x b ih =>
      intro s
      rw [List.foldl_cons,ih,crcByte_parity,BitVec.xor_assoc,parities_cons]
  have hnot : ∀ w : BitVec 32, parity (~~~w) = parity w := by
    intro w
    rw [← BitVec.xor_allOnes,parity_linear,show parity (BitVec.allOnes 32) = 0#1 by decide +kernel,
      BitVec.xor_zero]
  rw [crcAppend,hnot,hfold,hnot]
  show parity 0#32 ^^^ parities b = parities b
  rw [parity_linear.zero,BitVec.zero_xor]

theorem octets_parity (w : BitVec 32) : parities (octets w) = parity w := by
  have hlin : Linear (fun w => parities (octets w)) := by
    intro x y
    show parities (octets (x ^^^ y)) = _
    rw [octets_xor]
    exact parities_zipWith rfl
  have hz := (hlin.xor parity_linear).eq_zero (by decide +kernel) w
  exact BitVec.xor_eq_zero_iff.mp hz

section Digests

variable {c : Crc32c}

theorem headerDigest_parity (hc : c.Standard) (b : Bytes.Sized 48) (ahs : Option Bytes) :
    parities (headerDigest c b ahs) = parities (b.1 ++ ahs.getD []) := by
  rw [headerDigest_eq hc,parities_reverse,octets_parity,crc_parity]

theorem dataDigest_parity (hc : c.Standard) (b : Bytes) :
    parities (dataDigest c b) = parities b := by
  rw [dataDigest,toBe_word,parities_reverse,octets_parity,hc.whole,crc_parity]

theorem not_odd_of_parities {a a' b b' : Bytes} (ha : a'.length = a.length)
    (hb : b'.length = b.length) (h : parities a = parities b) (h' : parities a' = parities b') :
    ¬ Odd (bitErrors a a'+bitErrors b b') := by
  intro hodd
  have hone : BitVec.ofNat 1 (bitErrors a a'+bitErrors b b') = 1#1 := by
    apply BitVec.eq_of_toNat_eq
    rw [BitVec.toNat_ofNat]
    exact Nat.odd_iff.mp hodd
  have hadd : ∀ u w : BitVec 1, u+w = u ^^^ w := by decide
  rw [BitVec.ofNat_add,odd_bitErrors ha,odd_bitErrors hb,hadd,h,h',BitVec.xor_self] at hone
  exact absurd hone (by decide)

/-- An odd number of bits is damaged in the header and its digest, or in the data and theirs when
the header is intact. The rest is damaged in any way. -/
inductive OddlyDamaged (x : Parts) : Parts → Prop
  | header (b : Bytes.Sized 48) (d : Bytes.Sized 4) (data padding dataDigest : Bytes) :
      Odd (bitErrors x.header.1 b.1+bitErrors x.headerDigest.1 d.1) →
      OddlyDamaged x ⟨b,d,data,padding,dataDigest⟩
  | data (hd : Bytes.Sized 4) (b pad d : Bytes) : b.length = x.data.length →
      pad.length = x.padding.length → d.length = x.dataDigest.length →
      Odd (bitErrors x.data b+bitErrors x.dataDigest d) → OddlyDamaged x ⟨x.header,hd,b,pad,d⟩

/-- With both digests on, a PDU that is damaged in an odd number of bits is refused. -/
theorem odd_errors_refused (hc : c.Standard) {p : Pdu} (hp : p.Framed) {x : Parts}
    (hx : OddlyDamaged (p.parts c) x) (s : Bytes) :
    ∃ e, recvPdu c ⟨true,true⟩ (x.bytes ++ s) = .error e := by
  cases hr : recvPdu c ⟨true,true⟩ (x.bytes ++ s) with
  | error e => exact ⟨e,rfl⟩
  | ok r =>
    obtain ⟨q,t⟩ := r
    exfalso
    cases hx with
    | header b d data padding dataDigest hodd =>
      refine not_odd_of_parities (b.2.trans (p.parts c).header.2.symm)
        (d.2.trans (p.parts c).headerDigest.2.symm) ?_ ?_ hodd
      · show _ = parities (headerDigest c (p.parts c).header p.ahs)
        rw [headerDigest_parity hc,hp.noAhs,Option.getD_none,List.append_nil]
      · have hd : d.1 = headerDigest c b none := (recvPdu_header hr).1
        rw [hd,headerDigest_parity hc,Option.getD_none,List.append_nil]
    | data hd b pad d hb hpad hl hodd =>
      obtain ⟨_,_,_,_,hdig⟩ := recvPdu_intact hp (x := ⟨(p.parts c).header,hd,b,pad,d⟩) rfl hb hpad
        hl hr
      unfold Pdu.parts at hb hl hodd
      cases hpd : p.data with
      | none =>
        rw [hpd] at hb hl hodd
        have hnb : b = [] := List.length_eq_zero_iff.mp hb
        have hnd : d = [] := List.length_eq_zero_iff.mp hl
        have hzero : ¬ Odd (bitErrors [] []+bitErrors [] []) := by decide
        rw [hnb,hnd] at hodd
        exact hzero hodd
      | some data =>
        rw [hpd] at hb hl hodd
        refine not_odd_of_parities hb hl (dataDigest_parity hc data).symm ?_ hodd
        have hd : d = dataDigest c b := hdig data hpd
        rw [hd,dataDigest_parity hc]

end Digests

/-- Three bits of the data are damaged. -/
theorem odd_errors_refused_hello : ∃ x, OddlyDamaged (hello.parts .castagnoli) x ∧
    ∃ e, recvPdu .castagnoli ⟨true,true⟩ (x.bytes ++ []) = .error e := by
  have hx : OddlyDamaged (hello.parts .castagnoli) ⟨hello.bhs.onWire,
      Crc32c.castagnoli.ofHeader hello.bhs.onWire none,
      (hello.parts .castagnoli).data.map (· ^^^ 1),(hello.parts .castagnoli).padding,
      (hello.parts .castagnoli).dataDigest⟩ :=
    .data _ _ _ _ (List.length_map _) rfl rfl (by decide +kernel)
  exact ⟨_,hx,odd_errors_refused castagnoli_standard hello_framed hx []⟩

end IscsiFuse.Iscsi
