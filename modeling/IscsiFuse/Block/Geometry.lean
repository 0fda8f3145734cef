import IscsiFuse.Block.CachedRead
import IscsiFuse.Iscsi.Capacity
set_option autoImplicit false

namespace IscsiFuse.Block
open IscsiFuse.Iscsi

/-- The numbers of the cache. -/
structure BlockCache where
  maxCapacity : Nat
  blockSize : Nat
  chunkBlocks : Nat
  raMinBlocks : Nat
  raMaxBlocks : Nat

namespace BlockCache

def new (sizeMb blockSize raMaxKb : Nat) : Option BlockCache := do
  let kilobytes ← mulU64 sizeMb 1024
  let bytes ← mulU64 kilobytes 1024
  if blockSize = 0 then none
  else do
    let raBytes ← mulU64 raMaxKb 1024
    pure ⟨bytes/(64*1024),blockSize,64*1024/blockSize%2^32,8,raBytes/blockSize%2^32⟩

def chunkLba (c : BlockCache) (lba : Nat) : Option Nat :=
  if c.chunkBlocks = 0 then none else some (lba/c.chunkBlocks*c.chunkBlocks)

/-- The loops of `read_blocks` and `invalidate_range` for `n` blocks at `lba`: there are a first
and a last chunk, and from every chunk up to the last the address of the next. -/
structure Advances (c : BlockCache) (lba n : Nat) : Prop where
  stop : lba+n < 2^64
  chunks : ∃ first last, c.chunkLba lba = some first ∧ c.chunkLba (lba+n-1) = some last ∧
    ∀ clba, c.chunkBlocks ∣ clba → first ≤ clba → clba ≤ last →
      ∃ next, addU64 clba c.chunkBlocks = some next ∧ clba < next

end BlockCache

inductive Request where
  | read (offset size : Nat)
  | write (offset : Nat) (data : Bytes)

def Request.clamp (total : Nat) : Request → Option (Nat × Nat)
  | .read offset size =>
    if size = 0 ∨ total ≤ offset then none else some (offset,min size ((total-offset)%2^32))
  | .write offset data =>
    if data = [] ∨ total ≤ offset then none else some (offset,min data.length (total-offset))

/-- The arithmetic on the way of a request. -/
def Handles (p : Pipeline) (sizeMb raMaxKb : Nat) (q : Request) : Prop :=
  ∃ total c, p.totalBytes = some total ∧ BlockCache.new sizeMb p.blockSize raMaxKb = some c ∧
    1 ≤ c.chunkBlocks ∧ ∀ offset n, q.clamp total = some (offset,n) →
      ∃ lba count skip, computeAlignment offset n p.blockSize = some (lba,count,skip) ∧
        count = (touched offset n p.blockSize).2 ∧ c.Advances lba count

/-- The capacity in bytes has 64 bits, a block fits into a chunk, so do the settings into 64
bits; and the request is for less than `2^32` blocks and ends a chunk below `2^64`. -/
structure GeometryFits (totalBlocks blockSize sizeMb raMaxKb : Nat) (q : Request) : Prop where
  capacity : totalBlocks*blockSize < 2^64
  block : blockSize ≤ 65536
  size : sizeMb*2^20 < 2^64
  readahead : raMaxKb*1024 < 2^64
  request : ∀ offset n, q.clamp (totalBlocks*blockSize) = some (offset,n) →
    (touched offset n blockSize).2 < 2^32 ∧ (blockSize = 1 → offset+n ≤ 2^64-65536)

theorem Request.clamp_inside {total offset n : Nat} {q : Request}
    (h : q.clamp total = some (offset,n)) : offset < total ∧ offset+n ≤ total := by
  cases q with
  | read o size =>
    rw [Request.clamp] at h
    split at h
    · cases h
    · have hm := Nat.mod_le (total-o) (2^32)
      cases h
      omega
  | write o data =>
    rw [Request.clamp] at h
    split at h
    · cases h
    · cases h
      omega

theorem computeAlignment_isSome {offset size bs : Nat} (hb : 0 < bs) (h : offset+size < 2^64) :
    computeAlignment offset size bs = some ((touched offset size bs).1,
      (touched offset size bs).2%2^32,offset%bs) := by
  rw [computeAlignment,if_neg (by omega),addU64,if_pos h]
  rfl

theorem touched_stop (offset size : Nat) {bs : Nat} (hb : 0 < bs) :
    (touched offset size bs).1+(touched offset size bs).2 = (offset+size+bs-1)/bs :=
  Nat.add_sub_cancel' (Nat.div_le_div_right (by omega))

theorem touched_le {offset size bs n : Nat} (hb : 0 < bs) (h : offset+size ≤ n*bs) :
    (touched offset size bs).1+(touched offset size bs).2 ≤ n := by
  rw [touched_stop offset size hb]
  refine Nat.lt_succ_iff.mp (Nat.div_lt_of_lt_mul ?_)
  rw [Nat.mul_succ,Nat.mul_comm]
  omega

namespace BlockCache

variable {sizeMb blockSize raMaxKb lba n : Nat} {c : BlockCache}

theorem new_eq_some : new sizeMb blockSize raMaxKb = some c ↔
    sizeMb*2^20 < 2^64 ∧ blockSize ≠ 0 ∧ raMaxKb*1024 < 2^64 ∧
      c = ⟨sizeMb*2^20/65536,blockSize,65536/blockSize%2^32,8,raMaxKb*1024/blockSize%2^32⟩ := by
  have hsize : sizeMb*1024*1024 = sizeMb*2^20 := Nat.mul_assoc sizeMb 1024 1024
  simp only [new,Option.bind_eq_bind,Option.bind_eq_some_iff,mulU64_eq_some]
  constructor
  · intro ⟨_,⟨_,rfl⟩,_,⟨hs,rfl⟩,h⟩
    split at h
    · cases h
    · rename_i hb
      simp only [Option.bind_eq_some_iff,mulU64_eq_some] at h
      obtain ⟨_,⟨hr,rfl⟩,h⟩ := h
      cases h
      rw [hsize] at hs
      exact ⟨hs,hb,hr,by rw [hsize]⟩
  · intro ⟨hs,hb,hr,hc⟩
    have hk := Nat.lt_of_le_of_lt (Nat.mul_le_mul_left sizeMb (show 1024 ≤ 2^20 by decide)) hs
    refine ⟨sizeMb*1024,⟨hk,rfl⟩,sizeMb*1024*1024,⟨hsize.symm ▸ hs,rfl⟩,?_⟩
    rw [if_neg hb]
    simp only [Option.bind_eq_some_iff,mulU64_eq_some]
    exact ⟨_,⟨hr,rfl⟩,by rw [hc,hsize]; rfl⟩

theorem new_chunkBlocks (h : new sizeMb blockSize raMaxKb = some c) :
    c.chunkBlocks = 65536/blockSize ∧ (1 ≤ c.chunkBlocks ↔ blockSize ≤ 65536) := by
  obtain ⟨_,hb,_,rfl⟩ := new_eq_some.mp h
  have hle : 65536/blockSize ≤ 65536 := Nat.div_le_self _ _
  have hmod : 65536/blockSize%2^32 = 65536/blockSize := Nat.mod_eq_of_lt (by omega)
  simp only [hmod]
  exact ⟨trivial,Nat.one_le_div_iff (Nat.pos_of_ne_zero hb)⟩

theorem new_device {v : Device} (h : new sizeMb v.blockSize v.raMaxKb = some c) :
    c.chunkBlocks = v.chunkBlocks ∧ c.raMinBlocks = v.raMinBlocks ∧ c.raMaxBlocks = v.raMaxBlocks ∧
      ∀ lba, c.chunkLba lba = v.chunkLba lba := by
  obtain ⟨_,_,_,rfl⟩ := new_eq_some.mp h
  exact ⟨rfl,rfl,rfl,fun _ => rfl⟩

theorem advances_iff (hc : 1 ≤ c.chunkBlocks) : c.Advances lba n ↔
    lba+n < 2^64 ∧ (lba/c.chunkBlocks*c.chunkBlocks ≤ (lba+n-1)/c.chunkBlocks*c.chunkBlocks →
      (lba+n-1)/c.chunkBlocks*c.chunkBlocks+c.chunkBlocks < 2^64) := by
  have hl : ∀ b, c.chunkLba b = some (b/c.chunkBlocks*c.chunkBlocks) := fun b => if_neg (by omega)
  constructor
  · intro ⟨hs,first,last,hf,hla,h⟩
    rw [hl] at hf hla
    cases hf
    cases hla
    refine ⟨hs,fun hle => ?_⟩
    obtain ⟨next,hn,_⟩ := h _ (Nat.dvd_mul_left _ _) hle (Nat.le_refl _)
    exact (addU64_eq_some.mp hn).1
  · intro ⟨hs,h⟩
    refine ⟨hs,_,_,hl _,hl _,fun clba _ hf hla => ?_⟩
    exact ⟨_,addU64_eq_some.mpr ⟨by have := h (by omega); omega,rfl⟩,by omega⟩

theorem Advances.rounds {v : Device} (h : new sizeMb v.blockSize v.raMaxKb = some c)
    (ha : c.Advances lba n) (hn : 0 < n) {clba : Nat} (hd : v.chunkBlocks ∣ clba)
    (hs : lba < clba+v.chunkBlocks) (hlt : clba < lba+n) (s : Worker) :
    (∀ (r : ReadCall) acc chunk, r.startLba = lba → r.blockCount = n → chunk.length = v.chunkBytes →
      ∃ t acc', s.takeChunk v r clba acc chunk = some t ∧
        t.phase = .reading r (clba+v.chunkBlocks) acc') ∧
    ∀ w : WriteCall, w.startLba = lba → w.blockCount = n → ∃ t, s.invalidateStep v w clba = some t ∧
      t.phase = .invalidating w (clba+v.chunkBlocks) := by
  obtain ⟨first,last,hf,hla,hnext⟩ := ha.chunks
  obtain ⟨hcb,_,_,hsame⟩ := new_device h
  rw [hsame] at hf hla
  obtain ⟨hpos,hdl,hle,hup⟩ := chunkLba_bounds hla
  obtain ⟨_,hdf,_,_⟩ := chunkLba_bounds hf
  have hlast : clba ≤ last := by
    by_contra hgt
    have := next_chunk_le hdl hd (Nat.lt_of_not_le hgt)
    omega
  have hfirst : first ≤ clba := by
    by_contra hgt
    have := next_chunk_le hd hdf (Nat.lt_of_not_le hgt)
    omega
  obtain ⟨next,hadd,_⟩ := hnext clba (hcb ▸ hd) hfirst hlast
  rw [hcb] at hadd
  have ho := (addU64_eq_some.mp hadd).1
  constructor
  · intro r acc chunk hr hc hl
    exact ⟨_,_,Worker.takeChunk_whole ho (by omega) hl,rfl⟩
  · intro w hw hc
    rw [← hw,← hc] at hla
    exact ⟨_,Worker.invalidateStep_clear hla hlast ho,rfl⟩

end BlockCache

theorem advances_touched {totalBlocks blockSize offset n : Nat} {c : BlockCache}
    (hb : 0 < blockSize) (hc : c.chunkBlocks = 65536/blockSize) (hpos : 1 ≤ c.chunkBlocks)
    (ht : totalBlocks*blockSize < 2^64) (ho : offset < totalBlocks*blockSize)
    (hn : offset+n ≤ totalBlocks*blockSize) :
    c.Advances (touched offset n blockSize).1 (touched offset n blockSize).2 ↔
      (blockSize = 1 → offset+n ≤ 2^64-65536) := by
  have hle := touched_le hb hn
  have hblocks := Nat.mul_le_mul_left totalBlocks (show 1 ≤ blockSize from hb)
  have hmax : c.chunkBlocks ≤ 65536 := hc ▸ Nat.div_le_self _ _
  have hdiv := Nat.div_mul_le_self
    ((touched offset n blockSize).1+(touched offset n blockSize).2-1) c.chunkBlocks
  rw [BlockCache.advances_iff hpos]
  by_cases hone : blockSize = 1
  · subst hone
    have hstart : (touched offset n 1).1 = offset := Nat.div_one _
    have hcount : (touched offset n 1).2 = n := by
      simp only [touched,Nat.div_one]
      omega
    rw [hstart,hcount,hc,Nat.div_one,forall_prop_of_true rfl]
    omega
  · have htwo := Nat.mul_le_mul_left totalBlocks (show 2 ≤ blockSize by omega)
    exact ⟨fun _ h => absurd h hone,fun _ => ⟨by omega,fun _ => by omega⟩⟩

theorem handles_iff {p : Pipeline} (hb : 0 < p.blockSize) (sizeMb raMaxKb : Nat) (q : Request) :
    Handles p sizeMb raMaxKb q ↔ GeometryFits p.totalBlocks p.blockSize sizeMb raMaxKb q := by
  constructor
  · intro ⟨total,c,ht,hc,hpos,hq⟩
    obtain ⟨hcap,rfl⟩ := mulU64_eq_some.mp ht
    obtain ⟨hs,_,hr,_⟩ := BlockCache.new_eq_some.mp hc
    obtain ⟨hcb,hblock⟩ := BlockCache.new_chunkBlocks hc
    refine ⟨hcap,hblock.mp hpos,hs,hr,fun offset n hcl => ?_⟩
    obtain ⟨ho,hn⟩ := Request.clamp_inside hcl
    obtain ⟨lba,count,skip,ha,hcount,hadv⟩ := hq offset n hcl
    obtain ⟨_,_,rfl,hmod,_⟩ := computeAlignment_eq_some ha
    rw [hcount] at hadv hmod
    have hlt := Nat.mod_lt (touched offset n p.blockSize).2 (show 0 < 2^32 by decide)
    rw [← hmod] at hlt
    exact ⟨hlt,(advances_touched hb hcb hpos hcap ho hn).mp hadv⟩
  · intro ⟨hcap,hblock,hs,hr,hq⟩
    have hc := BlockCache.new_eq_some.mpr ⟨hs,Nat.pos_iff_ne_zero.mp hb,hr,rfl⟩
    obtain ⟨hcb,hiff⟩ := BlockCache.new_chunkBlocks hc
    refine ⟨_,_,mulU64_eq_some.mpr ⟨hcap,rfl⟩,hc,hiff.mpr hblock,fun offset n hcl => ?_⟩
    obtain ⟨ho,hn⟩ := Request.clamp_inside hcl
    obtain ⟨hlt,hend⟩ := hq offset n hcl
    have hadv := (advances_touched hb hcb (hiff.mpr hblock) hcap ho hn).mpr hend
    refine ⟨_,_,_,computeAlignment_isSome hb (Nat.lt_of_le_of_lt hn hcap),Nat.mod_eq_of_lt hlt,?_⟩
    rwa [Nat.mod_eq_of_lt hlt]

/-- The gate lets every geometry through that has a byte in a block; what rests on it is safe
exactly where it fits. -/
theorem geometry_safe_iff {p : Pipeline} {submit : Nat → Command → Outcome}
    {totalBlocks blockSize : Nat} (h : p.readCapacity submit = .ok (totalBlocks,blockSize))
    (sizeMb raMaxKb : Nat) (q : Request) :
    Handles (p.setGeometry blockSize totalBlocks) sizeMb raMaxKb q ↔
      GeometryFits totalBlocks blockSize sizeMb raMaxKb q :=
  handles_iff (p := p.setGeometry blockSize totalBlocks) (Pipeline.readCapacity_bounds h).2.1 sizeMb
    raMaxKb q

def reported (maxLba blockLen : Nat) (_ : Nat) (c : Command) : Outcome :=
  .response ⟨.good,some (
    if c.edtl = 8 then Bytes.toBe 4 (min maxLba 0xFFFFFFFF) ++ Bytes.toBe 4 blockLen
    else Bytes.toBe 8 maxLba ++ Bytes.toBe 4 blockLen),none⟩

theorem readCapacity_reported (p : Pipeline) {m l : Nat} (hm : m+1 < 2^64) (hl : 1 ≤ l ∧ l < 2^32) :
    p.readCapacity (reported m l) = .ok (m+1,l) := by
  have h₁₀ : readCapacity10 (reported m l 0 p.readCapacity10Command) = .ok (min m 0xFFFFFFFF,l) :=
    readCapacity10_answers (by omega) hl ⟨none,[],by rw [List.append_nil]; rfl⟩
  by_cases hs : min m 0xFFFFFFFF = 0xFFFFFFFF
  · rw [hs] at h₁₀
    exact Pipeline.readCapacityFrom_large h₁₀
      (readCapacity16_answers hm hl ⟨none,[],by rw [List.append_nil]; rfl⟩)
  · rw [show m+1 = min m 0xFFFFFFFF+1 by omega]
    exact Pipeline.readCapacityFrom_small h₁₀ hs

theorem geometry_safe_iff_4k : ∃ p : Pipeline, p.readCapacity (reported 999 4096) = .ok (1000,4096) ∧
    Handles (p.setGeometry 4096 1000) 256 8192 (.read 5000 9000) := by
  have h := readCapacity_reported (.new 0 .defaults10g) (m := 999) (l := 4096) (by decide) (by decide)
  refine ⟨_,h,(geometry_safe_iff h 256 8192 (.read 5000 9000)).mpr ⟨by decide,by decide,by decide,
    by decide,fun offset n hc => ?_⟩⟩
  cases hc
  exact ⟨by decide,fun ho => absurd ho (by decide)⟩

/-- Blocks of 128 KB leave no block to a chunk; and 2^63 blocks of 512 bytes have more bytes than
64 bits can count. -/
theorem gate_lets_unsafe_geometry : ∃ p : Pipeline,
    (p.readCapacity (reported 15 131072) = .ok (16,131072) ∧
      (∃ c, BlockCache.new 256 131072 8192 = some c ∧ c.chunkBlocks = 0 ∧ c.chunkLba 0 = none) ∧
      ¬ Handles (p.setGeometry 131072 16) 256 8192 (.read 0 512)) ∧
    p.readCapacity (reported (2^63-1) 512) = .ok (2^63,512) ∧
      (p.setGeometry 512 (2^63)).totalBytes = none ∧
      ¬ Handles (p.setGeometry 512 (2^63)) 256 8192 (.read 0 512) := by
  have h₁ := readCapacity_reported (.new 0 .defaults10g) (m := 15) (l := 131072) (by decide)
    (by decide)
  have h₂ := readCapacity_reported (.new 0 .defaults10g) (m := 2^63-1) (l := 512) (by decide)
    (by decide)
  refine ⟨_,⟨h₁,⟨_,rfl,rfl,rfl⟩,fun h => ?_⟩,h₂,by decide,fun h => ?_⟩
  · exact absurd ((handles_iff (p := Pipeline.setGeometry _ 131072 16) (by decide) _ _ _).mp h).block
      (by decide)
  · exact absurd ((handles_iff (p := Pipeline.setGeometry _ 512 (2^63)) (by decide) _ _ _).mp h).capacity
      (by decide)

end IscsiFuse.Block
