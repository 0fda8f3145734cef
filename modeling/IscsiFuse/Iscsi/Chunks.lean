import IscsiFuse.Library.Tiling
import IscsiFuse.Iscsi.Login
set_option autoImplicit false

/-!
Chunking of large requests and the SCSI WRITE commands that `scsi_write`
submits. Machine integers are natural numbers; casts reduce modulo the width,
and an addition or multiplication that leaves its width has no result, since it
ends the task that makes it.
-/

namespace IscsiFuse.Iscsi
open Tiling

def addU64 (a b : Nat) : Option Nat := if a+b < 2^64 then some (a+b) else none

def mulU32 (a b : Nat) : Option Nat := if a*b < 2^32 then some (a*b) else none

def mulU64 (a b : Nat) : Option Nat := if a*b < 2^64 then some (a*b) else none

theorem addU64_eq_some {a b c : Nat} : addU64 a b = some c ↔ a+b < 2^64 ∧ a+b = c := by
  unfold addU64
  split <;> simp_all

theorem mulU32_eq_some {a b c : Nat} : mulU32 a b = some c ↔ a*b < 2^32 ∧ a*b = c := by
  unfold mulU32
  split <;> simp_all

theorem mulU64_eq_some {a b c : Nat} : mulU64 a b = some c ↔ a*b < 2^64 ∧ a*b = c := by
  unfold mulU64
  split <;> simp_all

def slice (b : Bytes) (i j : Nat) : Option Bytes :=
  if i ≤ j ∧ j ≤ b.length then some ((b.drop i).take (j-i)) else none

theorem slice_eq_some {b c : Bytes} {i j : Nat} :
    slice b i j = some c ↔ (i ≤ j ∧ j ≤ b.length) ∧ (b.drop i).take (j-i) = c := by
  unfold slice
  split <;> simp_all

/-- The `while remaining > 0` loop of `compute_read_chunks`. The first argument
bounds the number of iterations. -/
def chunkLoop (maxBlocks : Nat) : Nat → Nat → Nat → Option (List (Nat × Nat))
  | _, 0, _ => some []
  | 0, _+1, _ => none
  | fuel+1, remaining+1, currentLba => do
      let chunk := min (remaining+1) maxBlocks
      let next ← addU64 currentLba chunk
      let rest ← chunkLoop maxBlocks fuel (remaining+1-chunk) next
      pure ((currentLba,chunk) :: rest)

/-- An iteration that makes progress takes at least one block, so `block_count`
iterations are enough for every loop that ends. -/
def computeReadChunks (startLba blockCount maxBlocks : Nat) : Option (List (Nat × Nat)) :=
  chunkLoop maxBlocks blockCount blockCount startLba

def computeWriteChunks (startLba blockCount _blockSize maxBlocks : Nat) :
    Option (List (Nat × Nat)) :=
  computeReadChunks startLba blockCount maxBlocks

def maxReadBlocksFor (maxBurstLength blockSize : Nat) : Nat :=
  if blockSize = 0 then 0 else maxBurstLength/blockSize

theorem chunkLoop_tiles {m fuel n s : Nat} {gs : List (Nat × Nat)}
    (h : chunkLoop m fuel n s = some gs) :
    Tiles s gs ∧ total gs = n ∧ ∀ g ∈ gs, 1 ≤ g.2 ∧ g.2 ≤ m := by
  induction fuel generalizing n s gs with
  | zero =>
    cases n with
    | zero => cases h; simp [Tiles]
    | succ n => cases h
  | succ fuel ih =>
    cases n with
    | zero => cases h; simp [Tiles]
    | succ n =>
      simp only [chunkLoop,Option.bind_eq_bind,Option.bind_eq_some_iff,addU64_eq_some] at h
      obtain ⟨_,⟨_,rfl⟩,rest,hr,hg⟩ := h
      cases hg
      obtain ⟨ht,hn,hb⟩ := ih hr
      have hpos : 0 < m := by
        by_contra hm
        have hz : m = 0 := by omega
        subst hz
        cases fuel <;> simp [chunkLoop] at hr
        have := hn
        cases rest with
        | nil => simp at this
        | cons g rest => have := hb g (by simp); omega
      refine ⟨⟨rfl,ht⟩,by rw [total_cons,hn]; omega,?_⟩
      intro g hg
      rcases List.mem_cons.mp hg with rfl | hg
      · exact ⟨by simp; omega,by simp⟩
      · exact hb g hg

theorem chunkLoop_isSome {m fuel n s : Nat} (hm : 0 < m) (hf : n ≤ fuel) (hs : s+n < 2^64) :
    ∃ gs, chunkLoop m fuel n s = some gs := by
  induction fuel generalizing n s with
  | zero =>
    obtain rfl : n = 0 := by omega
    exact ⟨[],rfl⟩
  | succ fuel ih =>
    cases n with
    | zero => exact ⟨[],rfl⟩
    | succ n =>
      obtain ⟨gs,hg⟩ := ih (n := n+1-min (n+1) m) (s := s+min (n+1) m) (by omega) (by omega)
      refine ⟨(s,min (n+1) m) :: gs,?_⟩
      simp only [chunkLoop,Option.bind_eq_bind,Option.bind_eq_some_iff,addU64_eq_some]
      exact ⟨_,⟨by omega,rfl⟩,gs,hg,rfl⟩

theorem chunkLoop_end {m fuel n s : Nat} {gs : List (Nat × Nat)} (hn : 0 < n)
    (h : chunkLoop m fuel n s = some gs) : s+n < 2^64 := by
  induction fuel generalizing n s gs with
  | zero =>
    cases n with
    | zero => omega
    | succ n => cases h
  | succ fuel ih =>
    cases n with
    | zero => omega
    | succ n =>
      simp only [chunkLoop,Option.bind_eq_bind,Option.bind_eq_some_iff,addU64_eq_some] at h
      obtain ⟨_,⟨hlt,rfl⟩,rest,hr,_⟩ := h
      by_cases hle : n+1 ≤ m
      · omega
      · have hi := ih (by omega) hr
        omega

theorem computeReadChunks_tiles {s n m : Nat} {gs : List (Nat × Nat)}
    (h : computeReadChunks s n m = some gs) :
    Tiles s gs ∧ total gs = n ∧ ∀ g ∈ gs, 1 ≤ g.2 ∧ g.2 ≤ m := chunkLoop_tiles h

theorem computeReadChunks_isSome {s n m : Nat} (hm : 0 < m) (hs : s+n < 2^64) :
    ∃ gs, computeReadChunks s n m = some gs := chunkLoop_isSome hm (Nat.le_refl n) hs

structure Pipeline where
  lun : Nat
  blockSize : Nat
  totalBlocks : Nat
  negotiated : NegotiatedParams
  deriving DecidableEq, Repr

def Pipeline.maxReadBlocks (p : Pipeline) : Nat :=
  maxReadBlocksFor p.negotiated.maxBurstLength p.blockSize

def Pipeline.maxWriteBlocks (p : Pipeline) : Nat :=
  maxReadBlocksFor p.negotiated.maxBurstLength p.blockSize

/-- One SCSI WRITE: the range in its CDB and the bytes registered for it. -/
structure WriteCommand where
  lba : Nat
  blocks : Nat
  data : Bytes
  deriving DecidableEq, Repr

/-- What a block array holds after the command: the target takes the expected
transfer length, `blocks * block_size` bytes, of the data. -/
def WriteCommand.patch (bs : Nat) (c : WriteCommand) : Patch :=
  ⟨c.lba*bs,c.data.take (c.blocks*bs)⟩

def sliceChunks (bs : Nat) (data : Bytes) : Nat → List (Nat × Nat) → List WriteCommand
  | _, [] => []
  | offset, (lba,blocks) :: gs =>
      ⟨lba,blocks,(data.drop offset).take (blocks*bs)⟩ ::
        sliceChunks bs data (offset+blocks*bs) gs

/-- The commands one call of `scsi_write` submits. There are none for empty data
and for data whose length, cast to 32 bits, is less than a block. -/
def Pipeline.writeCommands (p : Pipeline) (lba : Nat) (data : Bytes) :
    Option (List WriteCommand) :=
  if data.isEmpty then some []
  else if p.blockSize = 0 then none
  else do
    let blockCount := data.length%2^32/p.blockSize
    let chunks ← computeWriteChunks lba blockCount p.blockSize p.maxWriteBlocks
    if chunks.length = 1 then pure [⟨lba,blockCount,data⟩]
    else pure (sliceChunks p.blockSize data 0 chunks)

theorem sliceChunks_patch (bs : Nat) (data : Bytes) (i : Nat) (gs : List (Nat × Nat)) :
    (sliceChunks bs data i gs).map (WriteCommand.patch bs) = cut bs data i gs := by
  induction gs generalizing i with
  | nil => rfl
  | cons g gs ih =>
    obtain ⟨lba,blocks⟩ := g
    simp [sliceChunks,WriteCommand.patch,cut,ih]

def Pipeline.carried (p : Pipeline) (data : Bytes) : Bytes :=
  data.take (data.length%2^32/p.blockSize*p.blockSize)

theorem Pipeline.carried_length (p : Pipeline) (data : Bytes) :
    (p.carried data).length = data.length%2^32/p.blockSize*p.blockSize := by
  have h₁ := Nat.div_mul_le_self (data.length%2^32) p.blockSize
  have h₂ := Nat.mod_le data.length (2^32)
  rw [carried,List.length_take,Nat.min_eq_left (by omega)]

theorem Pipeline.carried_eq {p : Pipeline} {data : Bytes} (hl : data.length < 2^32)
    (hd : p.blockSize ∣ data.length) : p.carried data = data := by
  rw [carried,Nat.mod_eq_of_lt hl,Nat.div_mul_cancel hd,List.take_length]

theorem Pipeline.writeCommands_patches {p : Pipeline} {lba : Nat} {data : Bytes}
    {cs : List WriteCommand} (h : p.writeCommands lba data = some cs) :
    ∃ gs, Tiles lba gs ∧ (p.carried data).length = total gs*p.blockSize ∧
      cs.map (WriteCommand.patch p.blockSize) = cut p.blockSize (p.carried data) 0 gs := by
  rw [carried_length]
  unfold writeCommands at h
  split at h
  · rename_i he
    cases h
    simp only [List.isEmpty_iff] at he
    subst he
    exact ⟨[],trivial,by simp,rfl⟩
  · split at h
    · cases h
    · simp only [Option.bind_eq_bind,Option.bind_eq_some_iff,computeWriteChunks] at h
      obtain ⟨gs,hg,h⟩ := h
      obtain ⟨ht,hn,_⟩ := computeReadChunks_tiles hg
      refine ⟨gs,ht,by rw [hn],?_⟩
      rw [carried,cut_take (by rw [hn]; omega)]
      split at h
      · rename_i hlen
        cases h
        obtain ⟨g,rfl⟩ := List.length_eq_one_iff.mp hlen
        obtain ⟨rfl,_⟩ := ht
        rw [total_cons,total_nil,Nat.add_zero] at hn
        simp [WriteCommand.patch,cut,hn]
      · cases h
        exact sliceChunks_patch _ _ _ _

end IscsiFuse.Iscsi
