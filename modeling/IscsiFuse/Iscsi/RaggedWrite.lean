import IscsiFuse.Iscsi.Chunking
import IscsiFuse.Iscsi.ScsiWrite
import IscsiFuse.Iscsi.Submit
import Mathlib.Algebra.BigOperators.Ring.List
import Mathlib.Algebra.Order.BigOperators.Group.List
set_option autoImplicit false

/-!
`scsi_write` of data that are not whole blocks, or longer than 32 bits can say. What becomes of
the command of each chunk is given; what is followed is how much of the data the commands carry.
-/

namespace IscsiFuse.Iscsi
open Tiling

theorem chunkLoop_length {m fuel n s k : Nat} {gs : List (Nat × Nat)}
    (h : chunkLoop m fuel n s = some gs) : k < gs.length ↔ k*m < n := by
  obtain ⟨_,ht,hb⟩ := chunkLoop_tiles h
  have hle := total_le_length_mul (fun g hg => (hb g hg).2)
  rw [ht] at hle
  constructor
  · intro hk
    have hn : 0 < n := by
      obtain ⟨g,rest,rfl⟩ := List.exists_cons_of_length_pos (by omega : 0 < gs.length)
      have hg := hb g List.mem_cons_self
      rw [total_cons] at ht
      omega
    have hlt := chunkLoop_full hn h
    have hm := Nat.mul_le_mul_right m (show k ≤ gs.length-1 by omega)
    omega
  · intro hk
    by_contra hc
    have hm := Nat.mul_le_mul_right m (show gs.length ≤ k by omega)
    omega

theorem sliceChunks_blocks (bs : Nat) (data : Bytes) (i : Nat) (gs : List (Nat × Nat)) :
    (sliceChunks bs data i gs).map WriteCommand.blocks = gs.map Prod.snd := by
  induction gs generalizing i with
  | nil => rfl
  | cons g gs ih => rw [sliceChunks,List.map_cons,ih,List.map_cons]

def wentOut : Option Outcome → Bool
  | none => false
  | some (.submitFailed _) => false
  | some _ => true

section

variable (outcomes : Nat → Option Outcome)

def writeResults (n : Nat) : List (Option (Except Error Unit)) :=
  (List.range n).map (fun k => (outcomes k).map scsiWriteSingleInner)

def commandsOut (cs : List Command) : List Command :=
  (cs.zipIdx.filter (fun c => wentOut (outcomes c.2))).map Prod.fst

def Pipeline.scsiWrite (p : Pipeline) (lba : Nat) (data : Bytes) :
    Option (Option (Except Error Unit) × List Command) := do
  let ws ← p.writeCommands lba data
  let cs ← ws.mapM p.writeCommand
  pure (awaitWrites (writeResults outcomes cs.length),commandsOut outcomes cs)

/-- An error, and no command. -/
def Pipeline.RefusesWrite (p : Pipeline) (lba : Nat) (data : Bytes) : Prop :=
  ∃ e, p.scsiWrite outcomes lba data = some (some (.error e),[])

end

/-- The data are not whole blocks, or their length does not fit. -/
def Pipeline.Ragged (p : Pipeline) (data : Bytes) : Prop :=
  data ≠ [] ∧ (¬ p.blockSize ∣ data.length ∨ 2^32 ≤ data.length)

instance (p : Pipeline) (data : Bytes) : Decidable (p.Ragged data) :=
  inferInstanceAs (Decidable (_ ∧ _))

section Results

variable {outcomes : Nat → Option Outcome}

theorem commandsOut_eq_nil {cs : List Command} :
    commandsOut outcomes cs = [] ↔ ∀ k < cs.length, wentOut (outcomes k) = false := by
  rw [commandsOut,List.map_eq_nil_iff,List.filter_eq_nil_iff]
  constructor
  · intro h k hk
    simpa using h (cs[k],k) (List.mem_zipIdx_iff_getElem?.mpr (List.getElem?_eq_getElem hk))
  · intro h c hc
    have hk := (List.getElem?_eq_some_iff.mp (List.mem_zipIdx_iff_getElem?.mp hc)).1
    simp [h _ hk]

theorem commandsOut_eq_self {cs : List Command} (h : ∀ k, wentOut (outcomes k) = true) :
    commandsOut outcomes cs = cs := by
  rw [commandsOut,List.filter_eq_self.mpr (fun c _ => h c.2),List.zipIdx_map_fst]

theorem awaitWrites_error {r : Option (Except Error Unit)} {rs : List (Option (Except Error Unit))}
    (h : r ≠ some (.ok ())) :
    (∃ e, awaitWrites (r :: rs) = some (.error e)) ↔ ∃ e, r = some (.error e) := by
  match r, rs with
  | none, [] => simp [awaitWrites]
  | none, _ :: _ => simp [awaitWrites,joinWrites]
  | some (.error e), [] => simp [awaitWrites]
  | some (.error e), _ :: _ => simp [awaitWrites,joinWrites]
  | some (.ok ()), _ => exact absurd rfl h

theorem scsiWriteSingleInner_submitFailed (e : Error) :
    scsiWriteSingleInner (.submitFailed e) = .error ("submit SCSI WRITE" :: e) := rfl

theorem writeResults_ok {n : Nat}
    (h : ∀ k, ∃ r, outcomes k = some (.response r) ∧ r.status = .good) :
    awaitWrites (writeResults outcomes n) = some (.ok ()) := by
  have hok : ∀ r ∈ writeResults outcomes n, r = some (.ok ()) := by
    intro r hr
    obtain ⟨k,_,rfl⟩ := List.mem_map.mp hr
    obtain ⟨r,ho,hs⟩ := h k
    rw [ho,Option.map_some,Option.some.injEq]
    exact (checkScsiStatus_eq_ok "SCSI WRITE").mpr hs
  rw [awaitWrites_ok (fun r hr => Or.inr (hok r hr)),if_neg (fun hn => by cases hok none hn)]

theorem writeResults_error {n : Nat} (h : ∀ k < n, wentOut (outcomes k) = false) :
    (∃ e, awaitWrites (writeResults outcomes n) = some (.error e)) ↔
      0 < n ∧ ∃ e, outcomes 0 = some (.submitFailed e) := by
  cases n with
  | zero => simp [writeResults,awaitWrites,joinWrites]
  | succ n =>
    have h0 := h 0 (by omega)
    rw [writeResults,List.range_succ_eq_map,List.map_cons]
    cases ho : outcomes 0 with
    | none => rw [awaitWrites_error (by simp)]; simp
    | some o =>
      cases o with
      | submitFailed e =>
        rw [Option.map_some,scsiWriteSingleInner_submitFailed,awaitWrites_error (by simp)]
        simp
      | timedOut => rw [ho] at h0; cases h0
      | closed => rw [ho] at h0; cases h0
      | response r => rw [ho] at h0; cases h0

end Results

namespace Pipeline

variable {p : Pipeline} {lba : Nat} {data : Bytes} {ws : List WriteCommand}

theorem writeCommands_blocks (h : p.writeCommands lba data = some ws) :
    (ws.map WriteCommand.blocks).sum = data.length%2^32/p.blockSize ∧
      (∀ k, k < ws.length ↔ k*p.maxWriteBlocks < data.length%2^32/p.blockSize) ∧
      (0 < data.length%2^32/p.blockSize → lba+data.length%2^32/p.blockSize < 2^64) := by
  unfold writeCommands at h
  split at h
  · rename_i he
    cases h
    rw [List.isEmpty_iff.mp he]
    simp
  · split at h
    · cases h
    · simp only [Option.bind_eq_bind,Option.bind_eq_some_iff,computeWriteChunks] at h
      obtain ⟨gs,hg,h⟩ := h
      have hn := (computeReadChunks_tiles hg).2.1
      have hlen (k : Nat) := chunkLoop_length (k := k) hg
      refine ⟨?_,?_,fun hpos => chunkLoop_end hpos hg⟩
      · split at h
        · cases h
          simp
        · cases h
          rw [sliceChunks_blocks]
          exact hn
      · have hl : ws.length = gs.length := by
          split at h
          · rename_i hone
            cases h
            exact hone.symm
          · cases h
            rw [← List.length_map WriteCommand.blocks,sliceChunks_blocks,List.length_map]
        rw [hl]
        exact hlen

theorem mapM_writeCommand (h : ∀ w ∈ ws, w.blocks*p.blockSize < 2^32) :
    ∃ cs, ws.mapM p.writeCommand = some cs ∧
      cs.map (fun c => c.edtl.toNat) = ws.map (fun w => w.blocks*p.blockSize) := by
  induction ws with
  | nil => exact ⟨[],rfl,rfl⟩
  | cons w ws ih =>
    have hw := h w List.mem_cons_self
    obtain ⟨c,hc⟩ := writeCommand_isSome hw
    obtain ⟨cs,hcs,he⟩ := ih (fun w hw => h w (List.mem_cons_of_mem _ hw))
    refine ⟨c :: cs,by simp [List.mapM_cons,hc,hcs],?_⟩
    obtain ⟨_,rfl⟩ := writeCommand_eq_some hc
    rw [List.map_cons,List.map_cons,he,BitVec.toNat_ofNat,Nat.mod_eq_of_lt hw]

theorem writeCommands_edtl (h : p.writeCommands lba data = some ws) :
    ∃ cs, ws.mapM p.writeCommand = some cs ∧ cs.length = ws.length ∧
      (cs.map (fun c => c.edtl.toNat)).sum = data.length%2^32/p.blockSize*p.blockSize := by
  obtain ⟨hsum,_⟩ := writeCommands_blocks h
  have hfit : ∀ w ∈ ws, w.blocks*p.blockSize < 2^32 := by
    intro w hw
    have hle := List.le_sum_of_mem (List.mem_map_of_mem (f := WriteCommand.blocks) hw)
    rw [hsum] at hle
    have hm := Nat.mul_le_mul_right p.blockSize hle
    have hd := Nat.div_mul_le_self (data.length%2^32) p.blockSize
    omega
  obtain ⟨cs,hcs,he⟩ := mapM_writeCommand hfit
  refine ⟨cs,hcs,?_,?_⟩
  · rw [← List.length_map (fun c : Command => c.edtl.toNat),he,List.length_map]
  · rw [he,List.sum_map_mul_right,hsum]

theorem Ragged.lost (hr : p.Ragged data) :
    data.length%2^32/p.blockSize*p.blockSize < data.length := by
  have hd := Nat.div_mul_le_self (data.length%2^32) p.blockSize
  have hm := Nat.mod_lt data.length (show 0 < 2^32 by decide)
  by_contra hc
  have hlt : data.length < 2^32 := by omega
  rw [Nat.mod_eq_of_lt hlt] at hd hc
  rcases hr.2 with hn | hle
  · exact hn ⟨data.length/p.blockSize,by rw [Nat.mul_comm]; omega⟩
  · omega

theorem scsiWrite_eq (outcomes : Nat → Option Outcome) (h : p.writeCommands lba data = some ws) :
    ∃ cs, p.scsiWrite outcomes lba data =
        some (awaitWrites (writeResults outcomes cs.length),commandsOut outcomes cs) ∧
      (∀ k, k < cs.length ↔ k*p.maxWriteBlocks < data.length%2^32/p.blockSize) ∧
      (cs.map (fun c => c.edtl.toNat)).sum = data.length%2^32/p.blockSize*p.blockSize := by
  obtain ⟨cs,hcs,hl,he⟩ := writeCommands_edtl h
  refine ⟨cs,?_,fun k => ?_,he⟩
  · rw [scsiWrite,h,Option.bind_eq_bind,Option.bind_some,hcs]
    rfl
  · rw [hl]
    exact (writeCommands_blocks h).2.1 k

end Pipeline

/-- A ragged write is refused exactly when it has a whole block, the first submission fails and
no other succeeds. Otherwise data are lost in silence as soon as the target answers Good. -/
theorem ragged_write_refused_iff {p : Pipeline} (hd : 0 < p.blockSize)
    (hb : p.blockSize ≤ p.negotiated.maxBurstLength) {data : Bytes} (hr : p.Ragged data)
    (outcomes : Nat → Option Outcome) (lba : Nat) :
    let blocks := data.length%2^32/p.blockSize
    (p.RefusesWrite outcomes lba data ↔ 0 < blocks ∧ lba+blocks < 2^64 ∧
      (∃ e, outcomes 0 = some (.submitFailed e)) ∧
        ∀ k, k*p.maxWriteBlocks < blocks → wentOut (outcomes k) = false) ∧
    (lba+blocks < 2^64 → (∀ k, ∃ r, outcomes k = some (.response r) ∧ r.status = .good) →
      ∃ cs, p.scsiWrite outcomes lba data = some (some (.ok ()),cs) ∧
        (cs.map (fun c => c.edtl.toNat)).sum < data.length) := by
  intro blocks
  refine ⟨⟨fun h => ?_,fun h => ?_⟩,fun hl hg => ?_⟩
  · obtain ⟨e,h⟩ := h
    have hw : ∃ ws, p.writeCommands lba data = some ws := by
      simp only [Pipeline.scsiWrite,Option.bind_eq_bind,Option.bind_eq_some_iff] at h
      exact ⟨_,h.choose_spec.1⟩
    obtain ⟨ws,hw⟩ := hw
    obtain ⟨cs,hs,hn,_⟩ := Pipeline.scsiWrite_eq outcomes hw
    rw [hs] at h
    obtain ⟨h,hout⟩ := Prod.mk.inj (Option.some.inj h)
    have hout := commandsOut_eq_nil.mp hout
    obtain ⟨hpos,h0⟩ := (writeResults_error hout).mp ⟨e,h⟩
    have hpos : 0 < blocks := by rw [← Nat.zero_mul]; exact (hn 0).mp hpos
    exact ⟨hpos,(Pipeline.writeCommands_blocks hw).2.2 hpos,h0,fun k hk => hout k ((hn k).mpr hk)⟩
  · obtain ⟨hpos,hl,h0,hout⟩ := h
    obtain ⟨ws,hw⟩ := Pipeline.writeCommands_isSome (by omega) hb hl
    obtain ⟨cs,hs,hn,_⟩ := Pipeline.scsiWrite_eq outcomes hw
    have hout : ∀ k < cs.length, wentOut (outcomes k) = false := fun k hk => hout k ((hn k).mp hk)
    have h0' : 0 < cs.length := (hn 0).mpr (by rw [Nat.zero_mul]; exact hpos)
    obtain ⟨e,he⟩ := (writeResults_error hout).mpr ⟨h0',h0⟩
    exact ⟨e,by rw [hs,he,commandsOut_eq_nil.mpr hout]⟩
  · obtain ⟨ws,hw⟩ := Pipeline.writeCommands_isSome (by omega) hb hl
    obtain ⟨cs,hs,_,he⟩ := Pipeline.scsiWrite_eq outcomes hw
    have hout : ∀ k, wentOut (outcomes k) = true := by
      intro k
      obtain ⟨r,hk,_⟩ := hg k
      rw [hk]
      rfl
    refine ⟨cs,by rw [hs,writeResults_ok hg,commandsOut_eq_self hout],?_⟩
    rw [he]
    exact hr.lost

def sectorPipeline : Pipeline := ⟨0,512,16,.defaults10g⟩

set_option maxRecDepth 4000 in
theorem ragged_write_refused_iff_unsent :
    sectorPipeline.RefusesWrite (fun _ => some (.submitFailed ["send command PDU"])) 0
      (List.replicate 700 7) :=
  (ragged_write_refused_iff (by decide) (by decide) (by decide) _ 0).1.mpr
    ⟨by decide,by decide,⟨_,rfl⟩,fun _ _ => rfl⟩

set_option maxRecDepth 4000 in
/-- 700 bytes go out with an EDTL of 512, and 100 bytes do not go out at all. -/
theorem ragged_write_accepted :
    let good : Nat → Option Outcome := fun _ => some (.response ⟨.good,none,none⟩)
    (sectorPipeline.Ragged (List.replicate 700 7) ∧ ∃ c,
      sectorPipeline.scsiWrite good 0 (List.replicate 700 7) = some (some (.ok ()),[c]) ∧
      c.edtl = 512 ∧ c.writeData = some (List.replicate 700 7)) ∧
    sectorPipeline.Ragged (List.replicate 100 7) ∧
      sectorPipeline.scsiWrite good 0 (List.replicate 100 7) = some (some (.ok ()),[]) ∧
      ¬ sectorPipeline.RefusesWrite good 0 (List.replicate 100 7) := by
  refine ⟨⟨by decide,_,rfl,rfl,rfl⟩,by decide,rfl,fun h => ?_⟩
  obtain ⟨e,h⟩ := h
  cases h

end IscsiFuse.Iscsi
