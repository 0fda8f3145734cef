import IscsiFuse.Iscsi.Chunks
import IscsiFuse.Iscsi.Command
set_option autoImplicit false

namespace IscsiFuse.Iscsi
open Tiling

/-- What the target makes of the commands for a chunk. The second is sent when
the first is answered with UNIT ATTENTION. -/
structure ChunkTarget where
  first : Command → Outcome
  retry : Command → Outcome

def PduResponse.unitAttention (r : PduResponse) : Bool :=
  r.status = .checkCondition && (r.sense.bind parseSenseData).any isUnitAttention

def Pipeline.readCommand (p : Pipeline) (lba blockCount edtl : Nat) : Command where
  cdb := buildRead lba blockCount
  lun := BitVec.ofNat 64 p.lun
  edtl := BitVec.ofNat 32 edtl
  read := true
  writeData := none
  immediateData := none

def Pipeline.scsiReadSingleInner (p : Pipeline) (lba blockCount : Nat) (target : ChunkTarget) :
    Option (Except Error Bytes) := do
  let edtl ← mulU32 blockCount p.blockSize
  let command := p.readCommand lba blockCount edtl
  pure (do
    let r ← awaitReply "submit SCSI READ" "SCSI READ" (target.first command)
    match r.status with
    | .good => .ok (r.data.getD [])
    | .checkCondition =>
      if r.unitAttention then do
        let r ← awaitReply "retry SCSI READ after UNIT ATTENTION" "SCSI READ retry"
          (target.retry command)
        checkScsiStatus "SCSI READ retry" r
        .ok (r.data.getD [])
      else .error [s!"SCSI READ at LBA {lba} failed: CheckCondition (sense: {debugBytes r.sense})"]
    | other => .error [s!"SCSI READ at LBA {lba} failed: {other.debug}"])

def awaitReads : List (Option (Except Error Bytes)) → Except Error Bytes
  | [] => .ok []
  | none :: _ => .error ["read chunk task panicked"]
  | some (.error e) :: _ => .error ("read chunk failed" :: e)
  | some (.ok chunk) :: rest => (awaitReads rest).map (chunk ++ ·)

def Pipeline.scsiRead (p : Pipeline) (target : Nat × Nat → ChunkTarget) (lba blockCount : Nat) :
    Option (Except Error Bytes) :=
  if blockCount = 0 then some (.ok [])
  else do
    let chunks ← computeReadChunks lba blockCount p.maxReadBlocks
    match chunks with
    | [c] => p.scsiReadSingleInner c.1 c.2 (target c)
    | _ => some (awaitReads (chunks.map (fun c => p.scsiReadSingleInner c.1 c.2 (target c))))

def ChunkTarget.finalReply (t : ChunkTarget) (c : Command) : Option PduResponse :=
  match t.first c with
  | .response r => if r.unitAttention then
      match t.retry c with
      | .response r => some r
      | _ => none
    else some r
  | _ => none

section

variable (p : Pipeline) (target : Nat × Nat → ChunkTarget)

def Pipeline.finalReply (c : Nat × Nat) : Option PduResponse :=
  (target c).finalReply (p.readCommand c.1 c.2 (c.2*p.blockSize))

/-- The chunk is answered, in the end with Good. -/
def Pipeline.Answered (c : Nat × Nat) : Prop :=
  (p.finalReply target c).any (fun r => r.status = .good)

/-- The data of the reply that decides the chunk. -/
def Pipeline.returned (c : Nat × Nat) : Bytes := ((p.finalReply target c).bind PduResponse.data).getD []

/-- The target returned `d` for the block at `lba`. -/
def Pipeline.Returned (chunks : List (Nat × Nat)) (lba : Nat) (d : Bytes) : Prop :=
  d.length = p.blockSize ∧ ∃ c ∈ chunks, (c.1 ≤ lba ∧ lba < c.1+c.2) ∧
    d = (p.returned target c).window ((lba-c.1)*p.blockSize) p.blockSize

end

variable {p : Pipeline} {target : Nat × Nat → ChunkTarget}

theorem scsiReadSingleInner_eq_ok {c : Nat × Nat} (hc : c.2*p.blockSize < 2^32) {b : Bytes} :
    p.scsiReadSingleInner c.1 c.2 (target c) = some (.ok b) ↔
      p.Answered target c ∧ p.returned target c = b := by
  have hm : mulU32 c.2 p.blockSize = some (c.2*p.blockSize) := if_pos hc
  simp only [Pipeline.scsiReadSingleInner,hm,Option.bind_eq_bind,Option.bind_some,Option.pure_def,
    Option.some.injEq,Pipeline.Answered,Pipeline.returned,Pipeline.finalReply,
    ChunkTarget.finalReply]
  generalize p.readCommand c.1 c.2 (c.2*p.blockSize) = command
  cases (target c).first command with
  | response r =>
    simp only [awaitReply,bind,Except.bind]
    cases hs : r.status with
    | good => simp [PduResponse.unitAttention,hs]
    | checkCondition =>
      cases hu : r.unitAttention with
      | false => simp [hs]
      | true =>
        simp only [if_true]
        cases (target c).retry command with
        | response r' =>
          simp only [Option.any_some,decide_eq_true_eq]
          rw [← checkScsiStatus_eq_ok "SCSI READ retry"]
          cases checkScsiStatus "SCSI READ retry" r' <;> simp
        | _ => simp
    | _ => simp [PduResponse.unitAttention,hs]
  | _ => simp [awaitReply,bind,Except.bind]

theorem awaitReads_eq_ok {chunks : List (Nat × Nat)} (hc : ∀ c ∈ chunks, c.2*p.blockSize < 2^32)
    {b : Bytes} : awaitReads (chunks.map (fun c => p.scsiReadSingleInner c.1 c.2 (target c))) =
      .ok b ↔ (∀ c ∈ chunks, p.Answered target c) ∧ (chunks.map (p.returned target)).flatten = b := by
  induction chunks generalizing b with
  | nil => simp [awaitReads]
  | cons c chunks ih =>
    have ih := @ih (fun d hd => hc d (by simp [hd]))
    have hs (b : Bytes) : p.scsiReadSingleInner c.1 c.2 (target c) = some (.ok b) ↔
        p.Answered target c ∧ p.returned target c = b := scsiReadSingleInner_eq_ok (hc c (by simp))
    rw [List.map_cons]
    by_cases ha : p.Answered target c
    · rw [(hs _).mpr ⟨ha,rfl⟩]
      simp only [awaitReads,List.map_cons,List.flatten_cons,List.forall_mem_cons,ha,true_and]
      cases hr : awaitReads (chunks.map (fun c => p.scsiReadSingleInner c.1 c.2 (target c))) with
      | error e =>
        have hn : ¬ ∀ c ∈ chunks, p.Answered target c := by
          intro hall
          have hx := ih.mpr ⟨hall,rfl⟩
          rw [hr] at hx
          cases hx
        constructor
        · intro h
          cases h
        · intro h
          exact absurd h.1 hn
      | ok d =>
        obtain ⟨hall,hd⟩ := ih.mp hr
        rw [hd]
        constructor
        · intro h
          cases h
          exact ⟨hall,rfl⟩
        · intro h
          rw [← h.2]
          rfl
    · have hno : ∀ b, p.scsiReadSingleInner c.1 c.2 (target c) ≠ some (.ok b) :=
        fun b hb => ha ((hs b).mp hb).1
      cases h : p.scsiReadSingleInner c.1 c.2 (target c) with
      | none => simp [awaitReads,ha]
      | some r =>
        cases r with
        | error e => simp [awaitReads,ha]
        | ok d => exact absurd h (hno d)

theorem chunk_bytes {lba n : Nat} {chunks : List (Nat × Nat)}
    (hg : computeReadChunks lba n p.maxReadBlocks = some chunks) {c : Nat × Nat} (hc : c ∈ chunks) :
    c.2*p.blockSize ≤ p.negotiated.maxBurstLength := by
  have hb := ((computeReadChunks_tiles hg).2.2 c hc).2
  unfold Pipeline.maxReadBlocks maxReadBlocksFor at hb
  split at hb
  · rename_i h0
    rw [h0]
    omega
  · exact (Nat.mul_le_mul_right _ hb).trans (Nat.div_mul_le_self _ _)

theorem scsiRead_eq_ok (hm : p.negotiated.maxBurstLength < 2^32) {lba n : Nat}
    {chunks : List (Nat × Nat)} (hg : computeReadChunks lba n p.maxReadBlocks = some chunks)
    {b : Bytes} : p.scsiRead target lba n = some (.ok b) ↔
      (∀ c ∈ chunks, p.Answered target c) ∧ (chunks.map (p.returned target)).flatten = b := by
  have hc : ∀ c ∈ chunks, c.2*p.blockSize < 2^32 :=
    fun c hc => Nat.lt_of_le_of_lt (chunk_bytes hg hc) hm
  unfold Pipeline.scsiRead
  split
  · rename_i h0
    subst h0
    cases hg
    simp
  · rw [hg]
    simp only [Option.bind_eq_bind,Option.bind_some]
    split
    · rename_i c
      rw [scsiReadSingleInner_eq_ok (hc c (by simp))]
      simp
    · rw [Option.some.injEq]
      exact awaitReads_eq_ok hc

theorem returned_long {lba n : Nat} {chunks : List (Nat × Nat)} {b : Bytes}
    (hg : computeReadChunks lba n p.maxReadBlocks = some chunks)
    (hr : ∀ i < n, p.Returned target chunks (lba+i) (b.window (i*p.blockSize) p.blockSize))
    {c : Nat × Nat} (hc : c ∈ chunks) : c.2*p.blockSize ≤ (p.returned target c).length := by
  obtain ⟨ht,hn,hpos⟩ := computeReadChunks_tiles hg
  have hb := tiles_bounds ht hc
  have h1 := (hpos c hc).1
  obtain ⟨hlen,e,he,hin,hw⟩ := hr (c.1+c.2-1-lba) (by omega)
  rw [show lba+(c.1+c.2-1-lba) = c.1+c.2-1 by omega] at hin hw
  obtain rfl := tiles_unique ht hc he (b := c.1+c.2-1) (by omega) hin
  rw [hw,Bytes.window,List.length_take,List.length_drop] at hlen
  have hm : c.2*p.blockSize = (c.1+c.2-1-c.1)*p.blockSize+p.blockSize := by
    rw [← Nat.succ_mul]
    congr 1
    omega
  by_cases h0 : p.blockSize = 0
  · rw [h0]
    omega
  · omega

/-- `scsi_read` returns the right blocks as success, whatever the target does,
exactly when some chunk fails or every chunk is returned whole. -/
theorem scsiRead_faithful_iff (p : Pipeline) (hm : p.negotiated.maxBurstLength < 2^32)
    (target : Nat × Nat → ChunkTarget) (lba n : Nat) :
    (∀ chunks, computeReadChunks lba n p.maxReadBlocks = some chunks → ∀ b,
      p.scsiRead target lba n = some (.ok b) → b.length = n*p.blockSize ∧
        ∀ i < n, p.Returned target chunks (lba+i) (b.window (i*p.blockSize) p.blockSize)) ↔
    ∀ chunks, computeReadChunks lba n p.maxReadBlocks = some chunks →
      (∃ c ∈ chunks, ¬ p.Answered target c) ∨
        ∀ c ∈ chunks, (p.returned target c).length = c.2*p.blockSize := by
  refine forall_congr' (fun chunks => forall_congr' (fun hg => ?_))
  obtain ⟨ht,hn,_⟩ := computeReadChunks_tiles hg
  constructor
  · intro h
    by_cases hall : ∀ c ∈ chunks, p.Answered target c
    · obtain ⟨hlen,hr⟩ := h _ ((scsiRead_eq_ok hm hg).mpr ⟨hall,rfl⟩)
      refine Or.inr (fun c hc => exact_of_join_length (fun c hc => returned_long hg hr hc) ?_ hc)
      rw [hlen,hn]
    · exact Or.inl (by simpa using hall)
  · intro h b hb
    obtain ⟨hall,rfl⟩ := (scsiRead_eq_ok hm hg).mp hb
    have hl := h.resolve_left (fun ⟨c,hc,hno⟩ => hno (hall c hc))
    refine ⟨by rw [join_length hl,hn],fun i hi => ?_⟩
    obtain ⟨c,hc,hin,hw⟩ := join_window ht hl (Nat.le_add_right lba i) (by omega)
    rw [Nat.add_sub_cancel_left] at hw
    refine ⟨?_,c,hc,hin,hw⟩
    have hu : i*p.blockSize+p.blockSize ≤ n*p.blockSize := by
      rw [← Nat.succ_mul]
      exact Nat.mul_le_mul_right _ hi
    exact Bytes.window_length (by rw [join_length hl,hn]; exact hu)

def twoBlockBursts : Pipeline where
  lun := 0
  blockSize := 1
  totalBlocks := 16
  negotiated := { NegotiatedParams.defaults10g with maxBurstLength := 2 }

/-- A target that answers every command with Good and the given data. -/
def goodTarget (d : Nat × Nat → Bytes) (c : Nat × Nat) : ChunkTarget where
  first := fun _ => .response ⟨.good,some (d c),none⟩
  retry := fun _ => .response ⟨.good,some (d c),none⟩

theorem scsiRead_faithful_whole :
    twoBlockBursts.scsiRead (goodTarget (fun c => List.replicate c.2 5)) 0 3 =
      some (.ok [5,5,5]) ∧
    ∀ chunks, computeReadChunks 0 3 twoBlockBursts.maxReadBlocks = some chunks → ∀ b,
      twoBlockBursts.scsiRead (goodTarget (fun c => List.replicate c.2 5)) 0 3 = some (.ok b) →
      b.length = 3*twoBlockBursts.blockSize ∧ ∀ i < 3, twoBlockBursts.Returned
        (goodTarget (fun c => List.replicate c.2 5)) chunks (0+i)
        (b.window (i*twoBlockBursts.blockSize) twoBlockBursts.blockSize) := by
  refine ⟨rfl,(scsiRead_faithful_iff twoBlockBursts (by decide) _ 0 3).mpr ?_⟩
  intro chunks hg
  have hc : computeReadChunks 0 3 twoBlockBursts.maxReadBlocks = some [(0,2),(2,1)] := rfl
  obtain rfl := Option.some.inj (hc.symm.trans hg)
  exact Or.inr (by decide)

/-- The first chunk is answered with one block of two: the blocks that follow move
up, and the read succeeds. -/
theorem short_reply_shifts_blocks :
    ¬ ∀ chunks, computeReadChunks 0 3 twoBlockBursts.maxReadBlocks = some chunks → ∀ b,
      twoBlockBursts.scsiRead (goodTarget (fun c => [UInt8.ofNat c.2])) 0 3 = some (.ok b) →
      b.length = 3*twoBlockBursts.blockSize ∧ ∀ i < 3, twoBlockBursts.Returned
        (goodTarget (fun c => [UInt8.ofNat c.2])) chunks (0+i)
        (b.window (i*twoBlockBursts.blockSize) twoBlockBursts.blockSize) := by
  intro h
  have hl := (h [(0,2),(2,1)] rfl [2,1] rfl).1
  revert hl
  decide

end IscsiFuse.Iscsi
