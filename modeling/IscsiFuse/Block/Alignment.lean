import IscsiFuse.Block.Geometry
set_option autoImplicit false

namespace IscsiFuse.Block
open IscsiFuse.Iscsi Worker

theorem Span.least {lba n skip offset size bs m : Nat} (h : Span lba n skip offset size bs)
    (hm : skip+size ≤ m*bs) : n ≤ m := by
  have htight := h.tight
  have hlt : n*bs < (m+1)*bs := by
    rw [Nat.add_mul]
    omega
  exact Nat.lt_succ_iff.mp (Nat.lt_of_mul_lt_mul_right hlt)

theorem computeAlignment_span {bs offset size : Nat} (hb : 1 ≤ bs) (hs : 1 ≤ size) (hl : size < 2^32)
    (ho : offset+size < 2^64) : ∃ lba n skip, computeAlignment offset size bs = some (lba,n,skip) ∧
      n = (touched offset size bs).2 ∧ n < 2^32 ∧ skip < bs ∧ Span lba n skip offset size bs := by
  have hlt : (touched offset size bs).2 < 2^32 := touched_lt hb hs hl
  refine ⟨_,_,_,computeAlignment_isSome hb ho,Nat.mod_eq_of_lt hlt,Nat.mod_lt _ (by decide),
    Nat.mod_lt offset hb,?_⟩
  rw [Nat.mod_eq_of_lt hlt]
  exact span_touched offset hb hs

theorem readOverlap_length {m : DirtyMap} {lba n bs : Nat} {d : Bytes}
    (h : m.readOverlap lba n bs = some d) : d.length = n*bs := by
  simp only [DirtyMap.readOverlap,Option.bind_eq_bind,Option.bind_eq_some_iff] at h
  obtain ⟨e,_,h⟩ := h
  split at h
  · split at h
    · rename_i hle
      obtain ⟨_,rfl⟩ := slice_eq_some.mp h
      simp only [List.length_take,List.length_drop]
      omega
    · cases h
  · cases h

/-- The slices of `size` bytes from `skip` on that `handle_read` and `handle_write` take: they
lie in `n` whole blocks. -/
structure Slices (v : Device) (s : Worker) (offset size n skip : Nat) : Prop where
  read : ∀ requested t, min requested ((v.totalBytes-offset)%2^32) = size →
    s.recvRead v offset requested = some t →
      (∃ d : Bytes, d.length = n*v.blockSize ∧
        t = s.answer (.readReply offset requested (.ok ((d.drop skip).take size)))) ∨
      ∃ r clba, t = { s with phase := .reading r clba [] } ∧ ∀ d : Bytes, d.length = n*v.blockSize →
        r.reply d = .ok ((d.drop skip).take size)
  write : ∀ (data : Bytes) t, min data.length (v.totalBytes-offset) = size →
    s.recvWrite v offset data true = some t →
      ∃ w buf clba, t.phase = .invalidating w clba ∧ buf.length = n*v.blockSize ∧
        t.dirty = s.dirty.insert w.startLba n buf ∧ (buf.drop skip).take size = data.take size

section

variable {v : Device} {s t : Worker} {lba offset size n skip : Nat}

theorem read_slice {requested : Nat} (hs : 1 ≤ size)
    (ha : computeAlignment offset size v.blockSize = some (lba,n,skip))
    (hstop : skip+size ≤ n*v.blockSize) (hsize : min requested ((v.totalBytes-offset)%2^32) = size)
    (h : s.recvRead v offset requested = some t) :
    (∃ d : Bytes, d.length = n*v.blockSize ∧
      t = s.answer (.readReply offset requested (.ok ((d.drop skip).take size)))) ∨
    ∃ r clba, t = { s with phase := .reading r clba [] } ∧ ∀ d : Bytes, d.length = n*v.blockSize →
      r.reply d = .ok ((d.drop skip).take size) := by
  have hmod := Nat.mod_le (v.totalBytes-offset) (2^32)
  have hr : ReadCall.Of v offset requested ⟨offset,requested,lba,n,skip,size⟩ :=
    ⟨by omega,⟨rfl,rfl⟩,hsize.symm,ha⟩
  by_cases hd : ∃ d, s.dirty.readOverlap lba n v.blockSize = some d
  · obtain ⟨d,hd⟩ := hd
    have hlen := readOverlap_length hd
    rw [recvRead_dirty hr (by omega) hd (by simp only [hlen]; exact hstop)] at h
    exact Or.inl ⟨d,hlen,(Option.some.inj h).symm⟩
  · rw [recvRead_miss hr (by omega) (fun d ho => absurd ⟨d,ho⟩ hd)] at h
    obtain ⟨clba,_,rfl⟩ := Option.map_eq_some_iff.mp h
    refine Or.inr ⟨_,clba,rfl,fun d hlen => ?_⟩
    rw [ReadCall.reply,if_neg (by simp only [hlen]; omega)]

theorem aligned_whole (hsp : Span lba n 0 offset size v.blockSize) (hm : size%v.blockSize = 0) :
    size = n*v.blockSize := by
  have hstop := hsp.stop
  obtain ⟨q,hq⟩ := Nat.dvd_of_mod_eq_zero hm
  rw [Nat.mul_comm] at hq
  have hle := Nat.mul_le_mul_right v.blockSize (hsp.least (m := q) (by omega))
  omega

theorem write_slice {data : Bytes} (hs : 1 ≤ size)
    (ha : computeAlignment offset size v.blockSize = some (lba,n,skip))
    (hsp : Span lba n skip offset size v.blockSize)
    (hsize : min data.length (v.totalBytes-offset) = size)
    (h : s.recvWrite v offset data true = some t) :
    ∃ w buf clba, t.phase = .invalidating w clba ∧ buf.length = n*v.blockSize ∧
      t.dirty = s.dirty.insert w.startLba n buf ∧ (buf.drop skip).take size = data.take size := by
  have hstop := hsp.stop
  have hlen : (data.take size).length = size := by
    rw [List.length_take]
    omega
  have hne : ¬ (data.isEmpty = true ∨ v.totalBytes ≤ offset) := by
    rw [List.isEmpty_iff_length_eq_zero]
    omega
  unfold recvWrite at h
  simp only [if_neg hne,hsize,ha,Option.bind_eq_bind,Option.bind_some] at h
  split at h
  · rename_i hal
    simp only [Option.bind_eq_some_iff] at h
    obtain ⟨clba,_,h⟩ := h
    cases h
    obtain ⟨rfl,hm⟩ := hal
    refine ⟨_,_,clba,rfl,hlen.trans (aligned_whole hsp hm),rfl,?_⟩
    rw [List.drop_zero,List.take_take,Nat.min_self]
  · simp only [Bool.true_eq_false,if_false,Image.read_length,if_neg (Nat.not_lt.mpr hstop),
      Option.bind_eq_some_iff] at h
    obtain ⟨clba,_,h⟩ := h
    cases h
    refine ⟨_,_,clba,rfl,?_,rfl,?_⟩
    · simp only [List.length_append,List.length_take,List.length_drop,Image.read_length,hlen]
      omega
    · rw [List.append_assoc,List.drop_left' (by simp; omega),List.take_left' hlen]

end

/-- The blocks hold the range and no fewer do; the cast to 32 bits loses nothing; and the slices
taken from the blocks lie in them. -/
theorem alignment_covers {bs offset size : Nat} (hb : 1 ≤ bs) (hs : 1 ≤ size) (hl : size < 2^32)
    (ho : offset+size < 2^64) : ∃ lba n skip, computeAlignment offset size bs = some (lba,n,skip) ∧
      skip < bs ∧ lba*bs+skip = offset ∧ skip+size ≤ n*bs ∧ (∀ m, skip+size ≤ m*bs → n ≤ m) ∧
      n = (touched offset size bs).2 ∧ n < 2^32 ∧
      ∀ (v : Device) (s : Worker), v.blockSize = bs → Slices v s offset size n skip := by
  obtain ⟨lba,n,skip,ha,hn,hlt,hskip,hsp⟩ := computeAlignment_span hb hs hl ho
  refine ⟨lba,n,skip,ha,hskip,hsp.start,hsp.stop,fun m hm => hsp.least hm,hn,hlt,fun v s hv => ?_⟩
  subst hv
  exact ⟨fun requested t => read_slice hs ha hsp.stop,fun data t => write_slice hs ha hsp⟩

theorem alignment_covers_odd : ∃ lba n skip, computeAlignment 1000 4000 512 = some (lba,n,skip) ∧
    skip < 512 ∧ lba*512+skip = 1000 ∧ skip+4000 ≤ n*512 ∧ (∀ m, skip+4000 ≤ m*512 → n ≤ m) ∧
    n = (touched 1000 4000 512).2 ∧ n < 2^32 ∧
    ∀ (v : Device) (s : Worker), v.blockSize = 512 → Slices v s 1000 4000 n skip :=
  alignment_covers (by decide) (by decide) (by decide) (by decide)

end IscsiFuse.Block
