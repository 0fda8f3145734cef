import IscsiFuse.Library.OrdMap
import IscsiFuse.Iscsi.Chunks
set_option autoImplicit false

namespace IscsiFuse.Block
open IscsiFuse.Iscsi

/-- First block, number of blocks and byte skip of a byte range. The division by
the block size and the sum of offset and size can panic; the cast of the block
count to 32 bits cannot. -/
def computeAlignment (offset size blockSize : Nat) : Option (Nat × Nat × Nat) :=
  if blockSize = 0 then none
  else do
    let stop ← addU64 offset size
    let startLba := offset/blockSize
    let endLba := (stop+blockSize-1)/blockSize
    pure (startLba,(endLba-startLba)%2^32,offset%blockSize)

/-- The blocks `[lba, lba + count)` that a byte range touches, without the cast. -/
def touched (offset size bs : Nat) : Nat × Nat := (offset/bs,(offset+size+bs-1)/bs-offset/bs)

theorem computeAlignment_eq_some {offset size bs lba n skip : Nat}
    (h : computeAlignment offset size bs = some (lba,n,skip)) :
    0 < bs ∧ offset+size < 2^64 ∧ lba = (touched offset size bs).1 ∧
      n = (touched offset size bs).2%2^32 ∧ skip = offset%bs := by
  unfold computeAlignment at h
  split at h
  · cases h
  · simp only [Option.bind_eq_bind,Option.bind_eq_some_iff,addU64_eq_some] at h
    obtain ⟨_,⟨hs,rfl⟩,h⟩ := h
    cases h
    exact ⟨by omega,hs,rfl,rfl,rfl⟩

theorem touched_bounds (offset : Nat) {size bs : Nat} (hb : 0 < bs) (hs : 0 < size) :
    (touched offset size bs).1*bs+offset%bs = offset ∧
      offset+size ≤ ((touched offset size bs).1+(touched offset size bs).2)*bs ∧
      ((touched offset size bs).1+(touched offset size bs).2)*bs < offset+size+bs ∧
      1 ≤ (touched offset size bs).2 := by
  have hd := Nat.div_add_mod offset bs
  have he := Nat.div_add_mod (offset+size+bs-1) bs
  have hm := Nat.mod_lt (offset+size+bs-1) hb
  have hm' := Nat.mod_lt offset hb
  simp only [touched]
  generalize offset/bs = a at *
  generalize (offset+size+bs-1)/bs = e at *
  have hlt : a < e := by
    by_contra hc
    have := Nat.mul_le_mul_left bs (show e ≤ a by omega)
    omega
  rw [Nat.add_sub_cancel' (by omega),Nat.mul_comm a,Nat.mul_comm e]
  omega

structure DirtyEntry where
  data : Bytes
  blockCount : Nat
  deriving DecidableEq, Repr

structure DirtyMap where
  entries : OrdMap Nat DirtyEntry
  totalBytes : Nat

namespace DirtyMap

def new : DirtyMap := ⟨OrdMap.empty,0⟩

def isEmpty (m : DirtyMap) : Bool := m.entries.entries.isEmpty

/-- Insert or overwrite the entry that starts at `startLba`; an old entry at the
same start is dropped whole, whatever its length. -/
def insert (m : DirtyMap) (startLba blockCount : Nat) (data : Bytes) : DirtyMap :=
  match m.entries.get? startLba with
  | some old => ⟨m.entries.insert startLba ⟨data,blockCount⟩,m.totalBytes-old.data.length+data.length⟩
  | none => ⟨m.entries.insert startLba ⟨data,blockCount⟩,m.totalBytes+data.length⟩

def drainSorted (m : DirtyMap) : List (Nat × Bytes) × DirtyMap :=
  (m.entries.entries.map (fun e => (e.1,e.2.data)),new)

/-- Only the entry with the greatest start not above `startLba` is considered. -/
def readOverlap (m : DirtyMap) (startLba blockCount blockSize : Nat) : Option Bytes := do
  let (entryLba,entry) ← m.entries.lastLe startLba
  if entryLba ≤ startLba ∧ startLba+blockCount ≤ entryLba+entry.blockCount then
    let byteOffset := (startLba-entryLba)*blockSize
    let stop := byteOffset+blockCount*blockSize
    if stop ≤ entry.data.length then slice entry.data byteOffset stop else none
  else none

/-- The entries as patches of the device image. -/
def patches (m : DirtyMap) (bs : Nat) : List Patch :=
  m.entries.entries.map (fun e => ⟨e.1*bs,e.2.data⟩)

@[simp] theorem insert_entries (m : DirtyMap) (lba n : Nat) (data : Bytes) :
    (m.insert lba n data).entries = m.entries.insert lba ⟨data,n⟩ := by
  unfold insert
  split <;> rfl

theorem isEmpty_iff (m : DirtyMap) : m.isEmpty = true ↔ m.entries.entries = [] :=
  List.isEmpty_iff

theorem mem_patches {m : DirtyMap} {bs : Nat} {w : Patch} :
    w ∈ m.patches bs ↔ ∃ e ∈ m.entries.entries, w = ⟨e.1*bs,e.2.data⟩ := by
  simp [patches,eq_comm]

@[simp] theorem patches_new (bs : Nat) : new.patches bs = [] := rfl

end DirtyMap

def Clear (lba n : Nat) (e : Nat × DirtyEntry) : Prop :=
  e.1+e.2.blockCount ≤ lba ∨ lba+n ≤ e.1

def Inside (lba n : Nat) (e : Nat × DirtyEntry) : Prop :=
  e.1 ≤ lba ∧ lba+n ≤ e.1+e.2.blockCount

instance (lba n : Nat) (e : Nat × DirtyEntry) : Decidable (Clear lba n e) :=
  inferInstanceAs (Decidable (_ ∨ _))

instance (lba n : Nat) (e : Nat × DirtyEntry) : Decidable (Inside lba n e) :=
  inferInstanceAs (Decidable (_ ∧ _))

/-- Each entry holds exactly the bytes of its blocks, at least one block and
fewer than `2^32` bytes, and no two entries share a block. -/
structure DirtyMap.Disjoint (m : DirtyMap) (bs : Nat) : Prop where
  full : ∀ e ∈ m.entries.entries, e.2.data.length = e.2.blockCount*bs
  some_block : ∀ e ∈ m.entries.entries, 1 ≤ e.2.blockCount
  short : ∀ e ∈ m.entries.entries, e.2.data.length < 2^32
  clear : ∀ e ∈ m.entries.entries, ∀ f ∈ m.entries.entries, e ≠ f → Clear e.1 e.2.blockCount f

namespace DirtyMap.Disjoint

theorem empty (bs : Nat) : DirtyMap.new.Disjoint bs := by
  constructor <;> intro e he <;> cases he

theorem patch_covers {lba bs p : Nat} {e : DirtyEntry} (h : e.data.length = e.blockCount*bs) :
    (Patch.mk (lba*bs) e.data).Covers p ↔ lba*bs ≤ p ∧ p < (lba+e.blockCount)*bs := by
  simp [Patch.Covers,h,Nat.add_mul]

theorem clear_apart {lba n bs p : Nat} {e : Nat × DirtyEntry}
    (hl : e.2.data.length = e.2.blockCount*bs) (hc : Clear lba n e) (h₁ : lba*bs ≤ p)
    (h₂ : p < (lba+n)*bs) : ¬ (Patch.mk (e.1*bs) e.2.data).Covers p := by
  rw [patch_covers hl]
  rintro ⟨h₃,h₄⟩
  rcases hc with hc | hc
  · have := Nat.mul_le_mul_right bs hc
    omega
  · have := Nat.mul_le_mul_right bs hc
    omega

variable {m : DirtyMap} {bs : Nat}

theorem apart (h : m.Disjoint bs) : (m.patches bs).Pairwise Patch.Apart := by
  unfold DirtyMap.patches
  rw [List.pairwise_map]
  refine List.Pairwise.imp_of_mem ?_ m.entries.sorted
  intro a b ha hb hab p hp
  rw [patch_covers (h.full a ha)] at hp
  exact clear_apart (h.full b hb) (h.clear a ha b hb (fun he => by subst he; omega)) hp.1 hp.2

theorem readOverlap_inside (h : m.Disjoint bs) {e : Nat × DirtyEntry}
    (he : e ∈ m.entries.entries) {lba n : Nat} (hn : 1 ≤ n) (hi : Inside lba n e) :
    m.readOverlap lba n bs =
      some ((e.2.data.drop ((lba-e.1)*bs)).take (n*bs)) := by
  obtain ⟨f,hf⟩ := OrdMap.lastLe_isSome he hi.1
  obtain ⟨hfm,hfl⟩ := OrdMap.lastLe_mem hf
  have hmax := OrdMap.lastLe_max hf he hi.1
  have hef : f = e := by
    by_contra hne
    have hc := h.clear f hfm e he hne
    have hb := h.some_block f hfm
    unfold Clear at hc
    unfold Inside at hi
    omega
  subst hef
  have hlen : (lba-f.1)*bs+n*bs ≤ f.2.data.length := by
    rw [h.full f hfm,← Nat.add_mul]
    exact Nat.mul_le_mul_right bs (by unfold Inside at hi; omega)
  simp [DirtyMap.readOverlap,hf,hi.1,hi.2,hlen,slice]

theorem readOverlap_clear (h : m.Disjoint bs) {lba n : Nat} (hn : 1 ≤ n)
    (hc : ∀ e ∈ m.entries.entries, Clear lba n e) : m.readOverlap lba n bs = none := by
  cases hf : m.entries.lastLe lba with
  | none => simp [DirtyMap.readOverlap,hf]
  | some f =>
    obtain ⟨hfm,hfl⟩ := OrdMap.lastLe_mem hf
    have hcf := hc f hfm
    have hb := h.some_block f hfm
    unfold Clear at hcf
    simp only [DirtyMap.readOverlap,hf,Option.bind_eq_bind,Option.bind_some]
    rw [if_neg (by omega)]

theorem image_outside {d : Image} {p : Nat}
    (h : ∀ e ∈ m.entries.entries, ¬ (Patch.mk (e.1*bs) e.2.data).Covers p) :
    Patch.applyAll d (m.patches bs) p = d p := by
  refine Patch.applyAll_outside (fun w hw => ?_)
  obtain ⟨e,he,rfl⟩ := mem_patches.mp hw
  exact h e he

theorem image_entry (h : m.Disjoint bs) {d : Image} {p : Nat} {x : UInt8} {e : Nat × DirtyEntry}
    (he : e ∈ m.entries.entries) (hx : (Patch.mk (e.1*bs) e.2.data).at? p = some x) :
    Patch.applyAll d (m.patches bs) p = x := by
  have hcov := Patch.covers_of_at? hx
  refine Patch.applyAll_agree ⟨_,mem_patches.mpr ⟨e,he,rfl⟩,hcov⟩ (fun w hw hwp => ?_)
  obtain ⟨f,hf,rfl⟩ := mem_patches.mp hw
  by_cases hef : f = e
  · rw [hef]
    exact hx
  · rw [patch_covers (h.full f hf)] at hwp
    exact absurd hcov (clear_apart (h.full e he) (h.clear f hf e he hef) hwp.1 hwp.2)

end DirtyMap.Disjoint

end IscsiFuse.Block
