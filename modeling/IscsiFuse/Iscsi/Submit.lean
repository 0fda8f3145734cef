import IscsiFuse.Iscsi.Read
set_option autoImplicit false

namespace IscsiFuse.Iscsi
open Tiling

theorem computeReadChunks_head {s n m : Nat} {gs : List (Nat × Nat)} (hn : 0 < n)
    (h : computeReadChunks s n m = some gs) :
    ∃ rest, gs = (s,min n m) :: rest ∧ (rest = [] ↔ n ≤ m) := by
  cases n with
  | zero => omega
  | succ n =>
    simp only [computeReadChunks,chunkLoop,Option.bind_eq_bind,Option.bind_eq_some_iff] at h
    obtain ⟨next,_,rest,hr,hg⟩ := h
    obtain ⟨_,ht,hb⟩ := chunkLoop_tiles hr
    refine ⟨rest,(Option.some.inj hg).symm,fun he => ?_,fun hle => ?_⟩
    · rw [he,total_nil] at ht
      omega
    · cases rest with
      | nil => rfl
      | cons g rest =>
        have hg := hb g (by simp)
        rw [total_cons] at ht
        omega

theorem sliceChunks_mem {bs off : Nat} {data : Bytes} {gs : List (Nat × Nat)} {w : WriteCommand}
    (hd : off+total gs*bs ≤ data.length) (hw : w ∈ sliceChunks bs data off gs) :
    (w.lba,w.blocks) ∈ gs ∧ w.data.length = w.blocks*bs := by
  induction gs generalizing off with
  | nil => cases hw
  | cons g gs ih =>
    obtain ⟨lba,blocks⟩ := g
    rw [total_cons,Nat.add_mul] at hd
    simp only at hd
    rcases List.mem_cons.mp hw with rfl | hw
    · refine ⟨by simp,?_⟩
      simp only [List.length_take,List.length_drop]
      omega
    · obtain ⟨hm,hl⟩ := ih (by omega) hw
      exact ⟨List.mem_cons_of_mem _ hm,hl⟩

namespace Pipeline

def new (lun : Nat) (negotiated : NegotiatedParams) : Pipeline := ⟨encodeLun lun,0,0,negotiated⟩

def setGeometry (p : Pipeline) (blockSize totalBlocks : Nat) : Pipeline :=
  { p with blockSize := blockSize, totalBlocks := totalBlocks }

def totalBytes (p : Pipeline) : Option Nat := mulU64 p.totalBlocks p.blockSize

def immediateData (p : Pipeline) (data : Bytes) : Option Bytes :=
  if p.negotiated.immediateData ∧ data ≠ [] then
    let immLen := min (data.length%2^32) p.negotiated.firstBurstLength
    if 0 < immLen then some (data.take immLen) else none
  else none

/-- The command of `scsi_write_single_inner`. -/
def writeCommand (p : Pipeline) (w : WriteCommand) : Option Command := do
  let edtl ← mulU32 w.blocks p.blockSize
  pure { cdb := buildWrite w.lba w.blocks
         lun := BitVec.ofNat 64 p.lun
         edtl := BitVec.ofNat 32 edtl
         read := false
         writeData := some w.data
         immediateData := p.immediateData w.data }

def synchronizeCacheCommand (p : Pipeline) : Command :=
  ⟨buildSynchronizeCache10 0 0,BitVec.ofNat 64 p.lun,0,false,none,none⟩

def readCapacity10Command (p : Pipeline) : Command :=
  ⟨buildReadCapacity10,BitVec.ofNat 64 p.lun,8,true,none,none⟩

def readCapacity16Command (p : Pipeline) : Command :=
  ⟨buildReadCapacity16 32,BitVec.ofNat 64 p.lun,32,true,none,none⟩

inductive Submits (p : Pipeline) : Command → Prop
  | read (lba blockCount edtl : Nat) : mulU32 blockCount p.blockSize = some edtl →
      Submits p (p.readCommand lba blockCount edtl)
  | write (w : WriteCommand) (c : Command) : p.writeCommand w = some c → Submits p c
  | synchronizeCache : Submits p p.synchronizeCacheCommand
  | readCapacity10 : Submits p p.readCapacity10Command
  | readCapacity16 : Submits p p.readCapacity16Command

theorem writeCommand_eq_some {p : Pipeline} {w : WriteCommand} {c : Command}
    (h : p.writeCommand w = some c) : w.blocks*p.blockSize < 2^32 ∧
      c = ⟨buildWrite w.lba w.blocks,BitVec.ofNat 64 p.lun,BitVec.ofNat 32 (w.blocks*p.blockSize),
        false,some w.data,p.immediateData w.data⟩ := by
  simp only [writeCommand,Option.bind_eq_bind,Option.bind_eq_some_iff,mulU32_eq_some] at h
  obtain ⟨_,⟨hlt,rfl⟩,h⟩ := h
  exact ⟨hlt,(Option.some.inj h).symm⟩

theorem writeCommand_isSome {p : Pipeline} {w : WriteCommand} (h : w.blocks*p.blockSize < 2^32) :
    ∃ c, p.writeCommand w = some c := by
  have hm := mulU32_eq_some.mpr ⟨h,rfl⟩
  simp [writeCommand,hm]

theorem Submits.lun {p : Pipeline} {c : Command} (h : p.Submits c) :
    c.lun = BitVec.ofNat 64 p.lun := by
  cases h with
  | write w c h =>
    obtain ⟨_,rfl⟩ := writeCommand_eq_some h
    rfl
  | _ => rfl

theorem immediateData_eq_some {p : Pipeline} {data d : Bytes} (h : p.immediateData data = some d) :
    p.negotiated.immediateData = true ∧
      d.length = min (data.length%2^32) p.negotiated.firstBurstLength := by
  unfold immediateData at h
  split at h
  · rename_i hc
    simp only at h
    split at h
    · cases h
      have hm := Nat.mod_le data.length (2^32)
      exact ⟨hc.1,by rw [List.length_take]; omega⟩
    · cases h
  · cases h

theorem immediateData_length (p : Pipeline) (data : Bytes) :
    ((p.immediateData data).getD []).length = if p.negotiated.immediateData then
      min (data.length%2^32) p.negotiated.firstBurstLength else 0 := by
  cases hd : p.immediateData data with
  | some d =>
    obtain ⟨hi,hl⟩ := immediateData_eq_some hd
    rw [Option.getD_some,if_pos hi,hl]
  | none =>
    rw [Option.getD_none,List.length_nil]
    split
    · rename_i hi
      unfold immediateData at hd
      split at hd
      · simp only at hd
        split at hd
        · cases hd
        · omega
      · rename_i hc
        obtain rfl : data = [] := by
          by_contra hne
          exact hc ⟨hi,hne⟩
        simp
    · rfl

/-- The commands of one `scsi_write`: none, one with all of the data, or one for each chunk
of at most `max_write_blocks`, the first of which has that many. -/
theorem writeCommands_cases {p : Pipeline} {lba : Nat} {data : Bytes} {ws : List WriteCommand}
    (h : p.writeCommands lba data = some ws) :
    (data.length%2^32/p.blockSize = 0 ∧ ws = []) ∨
    (0 < data.length%2^32/p.blockSize ∧ data.length%2^32/p.blockSize ≤ p.maxWriteBlocks ∧
      ws = [⟨lba,data.length%2^32/p.blockSize,data⟩]) ∨
    (p.maxWriteBlocks < data.length%2^32/p.blockSize ∧
      (∀ w ∈ ws, w.blocks ≤ p.maxWriteBlocks ∧ w.data.length = w.blocks*p.blockSize) ∧
      ∃ w ∈ ws, w.blocks = p.maxWriteBlocks) := by
  unfold writeCommands at h
  split at h
  · rename_i he
    cases h
    rw [List.isEmpty_iff.mp he]
    exact Or.inl (by simp)
  · split at h
    · cases h
    · simp only [Option.bind_eq_bind,Option.bind_eq_some_iff,computeWriteChunks] at h
      obtain ⟨gs,hg,h⟩ := h
      obtain ⟨ht,hn,hb⟩ := computeReadChunks_tiles hg
      have hdiv := Nat.div_mul_le_self (data.length%2^32) p.blockSize
      have hmod := Nat.mod_le data.length (2^32)
      generalize hblocks : data.length%2^32/p.blockSize = blocks at hg hn h hdiv ⊢
      rcases Nat.eq_zero_or_pos blocks with rfl | hpos
      · cases hg
        exact Or.inl ⟨rfl,by simpa [sliceChunks] using h.symm⟩
      · obtain ⟨rest,rfl,hrest⟩ := computeReadChunks_head hpos hg
        cases rest with
        | nil => exact Or.inr (Or.inl ⟨hpos,hrest.mp rfl,by simpa using h.symm⟩)
        | cons g rest =>
          have hlt : p.maxWriteBlocks < blocks := by
            by_contra hle
            exact absurd (hrest.mpr (by omega)) (by simp)
          rw [if_neg (by simp)] at h
          cases h
          refine Or.inr (Or.inr ⟨hlt,fun w hw => ?_,?_⟩)
          · obtain ⟨hm,hl⟩ := sliceChunks_mem (by rw [hn]; omega) hw
            exact ⟨(hb _ hm).2,hl⟩
          · refine ⟨_,List.mem_cons_self ..,?_⟩
            exact Nat.min_eq_right (Nat.le_of_lt hlt)

theorem writeCommands_isSome {p : Pipeline} {lba : Nat} {data : Bytes} (hd : p.blockSize ≠ 0)
    (hb : p.blockSize ≤ p.negotiated.maxBurstLength)
    (hl : lba+data.length%2^32/p.blockSize < 2^64) : ∃ ws, p.writeCommands lba data = some ws := by
  have hm : 0 < p.maxWriteBlocks := by
    rw [maxWriteBlocks,maxReadBlocksFor,if_neg hd]
    exact Nat.div_pos hb (Nat.pos_of_ne_zero hd)
  obtain ⟨gs,hg⟩ := computeReadChunks_isSome hm hl
  unfold writeCommands
  split
  · exact ⟨_,rfl⟩
  · simp only [computeWriteChunks,hg,Option.bind_eq_bind,Option.bind_some]
    split <;> exact ⟨_,rfl⟩

theorem writeCommands_mem {p : Pipeline} {lba : Nat} {data : Bytes} {ws : List WriteCommand}
    {w : WriteCommand} (h : p.writeCommands lba data = some ws) (hlt : data.length < 2^32)
    (hd : p.blockSize ∣ data.length) (hw : w ∈ ws) :
    lba ≤ w.lba ∧ w.lba+w.blocks ≤ lba+data.length/p.blockSize ∧ w.blocks ≤ p.maxWriteBlocks ∧
      w.data.length = w.blocks*p.blockSize := by
  unfold writeCommands at h
  split at h
  · cases h
    cases hw
  · split at h
    · cases h
    · simp only [Option.bind_eq_bind,Option.bind_eq_some_iff,computeWriteChunks] at h
      obtain ⟨gs,hg,h⟩ := h
      rw [Nat.mod_eq_of_lt hlt] at hg h
      obtain ⟨ht,hn,hb⟩ := computeReadChunks_tiles hg
      have hmem : (w.lba,w.blocks) ∈ gs ∧ w.data.length = w.blocks*p.blockSize := by
        split at h
        · rename_i hlen
          cases h
          obtain ⟨g,rfl⟩ := List.length_eq_one_iff.mp hlen
          obtain rfl := List.mem_singleton.mp hw
          obtain ⟨rfl,_⟩ := ht
          rw [total_cons,total_nil,Nat.add_zero] at hn
          exact ⟨by simp [← hn],(Nat.div_mul_cancel hd).symm⟩
        · cases h
          exact sliceChunks_mem (by rw [hn,Nat.div_mul_cancel hd]; omega) hw
      have hbounds := tiles_bounds ht hmem.1
      rw [hn] at hbounds
      exact ⟨hbounds.1,hbounds.2,(hb _ hmem.1).2,hmem.2⟩

end Pipeline

end IscsiFuse.Iscsi
