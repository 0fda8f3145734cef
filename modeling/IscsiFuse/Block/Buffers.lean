import IscsiFuse.Block.Transitions
set_option autoImplicit false

namespace IscsiFuse.Block
open IscsiFuse.Iscsi

def Device.writeLen (v : Device) (offset : Nat) (data : Bytes) : Nat :=
  min data.length (v.totalBytes-offset)

def Device.writeBlocks (v : Device) (offset : Nat) (data : Bytes) : Nat × Nat :=
  touched offset (v.writeLen offset data) v.blockSize

def Device.inserts (v : Device) (offset : Nat) (data : Bytes) (rmwOk : Bool) : Bool :=
  data ≠ [] ∧ offset < v.totalBytes ∧
    (rmwOk = true ∨ (offset%v.blockSize = 0 ∧ v.writeLen offset data%v.blockSize = 0))

theorem inserts_of_buffer {v : Device} {s : Worker} {offset : Nat} {data buf : Bytes} {rmwOk : Bool}
    {w : WriteCall} (h : w.Of v s offset data) (hb : w.Buffer v s rmwOk buf) :
    v.inserts offset data rmwOk = true := by
  have hlen : v.writeLen offset data = w.actualLen := h.clamped.symm
  simp only [Device.inserts,decide_eq_true_eq,hlen]
  refine ⟨h.nonempty,h.inside,?_⟩
  cases hb with
  | aligned h₁ h₂ => exact Or.inr ⟨h.args.1 ▸ h₁,h₂⟩
  | merged _ hok _ _ _ => exact Or.inl hok

theorem touched_lt {offset size bs : Nat} (hb : 0 < bs) (hs : 0 < size) (hl : size < 2^32) :
    (touched offset size bs).2 < 2^32 := by
  obtain ⟨h₁,_,h₃,_⟩ := touched_bounds offset hb hs
  have hm := Nat.mod_lt offset hb
  rw [Nat.add_mul] at h₃
  have hn : (touched offset size bs).2*bs < size+2*bs-1 := by omega
  by_contra hge
  have hle := Nat.mul_le_mul_right bs (Nat.not_lt.mp hge)
  by_cases h1 : bs = 1
  · subst h1
    omega
  · omega

structure Span (lba n skip offset size bs : Nat) : Prop where
  start : lba*bs+skip = offset
  stop : skip+size ≤ n*bs
  tight : n*bs < skip+size+bs
  some_block : 1 ≤ n

theorem span_touched (offset : Nat) {size bs : Nat} (hb : 0 < bs) (hs : 0 < size) :
    Span (touched offset size bs).1 (touched offset size bs).2 (offset%bs) offset size bs := by
  obtain ⟨h₁,h₂,h₃,h₄⟩ := touched_bounds offset hb hs
  rw [Nat.add_mul] at h₂ h₃
  exact ⟨h₁,by omega,by omega,h₄⟩

theorem WriteCall.Of.span {v : Device} {s : Worker} {offset : Nat} {data : Bytes} {w : WriteCall}
    (h : w.Of v s offset data) (hlt : (v.writeBlocks offset data).2*v.blockSize < 2^32) :
    (w.startLba,w.blockCount) = v.writeBlocks offset data ∧
      Span w.startLba w.blockCount (offset%v.blockSize) offset w.actualLen v.blockSize := by
  obtain ⟨skip,hal⟩ := h.aligned
  obtain ⟨hb,_,hlba,hn,_⟩ := computeAlignment_eq_some hal
  have hle := Nat.le_mul_of_pos_right (v.writeBlocks offset data).2 hb
  have hc : v.writeBlocks offset data = touched offset w.actualLen v.blockSize := by
    rw [Device.writeBlocks,Device.writeLen,← h.clamped]
  rw [hc] at hle hlt
  rw [Nat.mod_eq_of_lt (by omega)] at hn
  have hsp := span_touched offset hb h.patch_length.2
  rw [← hlba,← hn] at hsp
  exact ⟨by rw [hc,hlba,hn],hsp⟩

/-- Whole blocks: the new bytes where the Write reaches, the target's elsewhere. -/
structure Buffered (v : Device) (disk : Image) (w : WriteCall) (buf : Bytes) : Prop where
  full : buf.length = w.blockCount*v.blockSize
  byte : ∀ p x, (Patch.mk (w.startLba*v.blockSize) buf).at? p = some x →
    (w.patch v).at? p = some x ∨ (¬ (w.patch v).Covers p ∧ x = disk p)

theorem buffered_of_span {v : Device} {s : Worker} {offset : Nat} {data buf : Bytes} {rmwOk : Bool}
    {w : WriteCall} (h : w.Of v s offset data) (hb : w.Buffer v s rmwOk buf)
    (hsp : Span w.startLba w.blockCount (offset%v.blockSize) offset w.actualLen v.blockSize) :
    Buffered v s.disk w buf := by
  have hstart := hsp.start
  have hstop := hsp.stop
  have hlen := h.patch_length.1
  have htight := hsp.tight
  cases hb with
  | aligned h₁ h₂ =>
    rw [h.args.1] at h₁
    rw [h₁] at hstart hstop htight
    rw [h.take_eq]
    constructor
    · obtain ⟨q,hq⟩ := Nat.dvd_of_mod_eq_zero h₂
      have hlt : v.blockSize*w.blockCount < v.blockSize*(q+1) := by
        rw [Nat.mul_comm,Nat.mul_add]
        omega
      have hle := Nat.lt_of_mul_lt_mul_left hlt
      have hge := Nat.mul_le_mul_left v.blockSize (Nat.le_of_lt_succ hle)
      rw [Nat.mul_comm] at hge
      omega
    · intro p x hx
      rw [show w.startLba*v.blockSize = offset by omega] at hx
      left
      rw [WriteCall.patch,Device.writePatch,h.args.1] at hx ⊢
      exact hx
  | merged old _ _ hold _ =>
    subst hold
    rw [h.take_eq,h.args.1]
    constructor
    · simp only [List.length_append,List.length_take,List.length_drop,Image.read_length,hlen]
      omega
    · intro p x hx
      have hcov := Patch.covers_of_at? hx
      simp only [Patch.Covers] at hcov
      simp only [Patch.at?,if_pos hcov.1] at hx
      have hoff : (w.patch v).off = offset := h.args.1
      by_cases h₁ : p-w.startLba*v.blockSize < offset%v.blockSize
      · right
        rw [List.append_assoc,List.getElem?_append_left (by simp; omega),
          List.getElem?_take_of_lt h₁,Image.getElem?_read,if_pos (by omega)] at hx
        refine ⟨fun hc => ?_,?_⟩
        · simp only [Patch.Covers,hoff] at hc
          omega
        · rw [← Option.some.inj hx]
          congr 1
          omega
      · by_cases h₂ : p-w.startLba*v.blockSize < offset%v.blockSize+w.actualLen
        · left
          rw [List.append_assoc,List.getElem?_append_right (by simp; omega),
            List.getElem?_append_left (by simp; omega)] at hx
          simp only [Patch.at?,hoff]
          rw [if_pos (by omega),← hx]
          congr 1
          simp
          omega
        · right
          rw [List.getElem?_append_right (by simp; omega),List.getElem?_drop,
            Image.getElem?_read] at hx
          split at hx
          · refine ⟨fun hc => ?_,?_⟩
            · simp only [Patch.Covers,hoff,hlen] at hc
              omega
            · rw [← Option.some.inj hx]
              congr 1
              simp
              omega
          · cases hx

theorem buffered_of_buffer {v : Device} {s : Worker} {offset : Nat} {data buf : Bytes} {rmwOk : Bool}
    {w : WriteCall} (h : w.Of v s offset data) (hb : w.Buffer v s rmwOk buf)
    (hlt : (v.writeBlocks offset data).2*v.blockSize < 2^32) : Buffered v s.disk w buf :=
  buffered_of_span h hb (h.span hlt).2

theorem buffered_patch {v : Device} {s : Worker} {offset : Nat} {data buf : Bytes} {w : WriteCall}
    (h : w.Of v s offset data) (hb : Buffered v s.disk w buf)
    (hlt : (v.writeBlocks offset data).2*v.blockSize < 2^32) {p : Nat} {x : UInt8}
    (hx : (w.patch v).at? p = some x) :
    (Patch.mk (w.startLba*v.blockSize) buf).at? p = some x := by
  obtain ⟨_,hsp⟩ := h.span hlt
  have hstart := hsp.start
  have hstop := hsp.stop
  have hcov := Patch.covers_of_at? hx
  have hoff : (w.patch v).off = offset := h.args.1
  have hin : (Patch.mk (w.startLba*v.blockSize) buf).Covers p := by
    simp only [Patch.Covers,hoff,h.patch_length.1,hb.full] at hcov ⊢
    omega
  obtain ⟨y,hy⟩ := Patch.exists_at? hin
  rcases hb.byte p y hy with hw | ⟨hn,_⟩
  · rw [hy,← hw,hx]
  · exact absurd hcov hn

end IscsiFuse.Block
