import IscsiFuse.Iscsi.Capacity
import IscsiFuse.Iscsi.Negotiation
set_option autoImplicit false

namespace IscsiFuse.Iscsi
open Tiling

/-- The fewest chunks of at most `m` blocks that the range can be cut into. -/
structure Partition (m blockSize s n : Nat) (gs : List (Nat × Nat)) : Prop where
  tiles : Tiles s gs
  total : total gs = n
  counts : ∀ g ∈ gs, 1 ≤ g.2 ∧ g.2 ≤ m ∧ g.2*blockSize < 2^32
  fewest : ∀ gs', Tiles s gs' → Tiling.total gs' = n → (∀ g ∈ gs', g.2 ≤ m) → gs.length ≤ gs'.length

theorem chunkLoop_full {m fuel n s : Nat} {gs : List (Nat × Nat)} (hn : 0 < n)
    (h : chunkLoop m fuel n s = some gs) : (gs.length-1)*m < n := by
  induction fuel generalizing n s gs with
  | zero =>
    cases n with
    | zero => omega
    | succ n => cases h
  | succ fuel ih =>
    cases n with
    | zero => omega
    | succ n =>
      simp only [chunkLoop,Option.bind_eq_bind,Option.bind_eq_some_iff] at h
      obtain ⟨next,_,rest,hr,hg⟩ := h
      obtain rfl := Option.some.inj hg
      by_cases hle : n+1 ≤ m
      · have ht := (chunkLoop_tiles hr).2.1
        have hb := (chunkLoop_tiles hr).2.2
        cases rest with
        | nil => simp
        | cons g rest =>
          have hg := hb g List.mem_cons_self
          rw [total_cons] at ht
          omega
      · have hlt := ih (by omega) hr
        have hne : rest ≠ [] := by
          intro he
          have ht := (chunkLoop_tiles hr).2.1
          rw [he,total_nil] at ht
          omega
        have hpos := List.length_pos_of_ne_nil hne
        rw [List.length_cons,Nat.add_sub_cancel]
        have hs : rest.length*m = (rest.length-1)*m+m := by
          rw [← Nat.succ_mul]
          congr 1
          omega
        omega

theorem chunkLoop_fewest {m fuel n s : Nat} {gs gs' : List (Nat × Nat)}
    (h : chunkLoop m fuel n s = some gs) (ht : total gs' = n) (hb : ∀ g ∈ gs', g.2 ≤ m) :
    gs.length ≤ gs'.length := by
  have hle := total_le_length_mul hb
  by_cases hn : n = 0
  · subst hn
    cases fuel <;> cases h <;> exact Nat.zero_le _
  · have hlt := chunkLoop_full (by omega) h
    by_contra hc
    have hm := Nat.mul_le_mul_right m (show gs'.length ≤ gs.length-1 by omega)
    omega

theorem chunkLoop_zero {n : Nat} (hn : 0 < n) (fuel s : Nat) : chunkLoop 0 fuel n s = none := by
  cases hc : chunkLoop 0 fuel n s with
  | none => rfl
  | some gs =>
    obtain ⟨_,ht,hb⟩ := chunkLoop_tiles hc
    cases gs with
    | nil =>
      rw [total_nil] at ht
      omega
    | cons g gs =>
      have hg := hb g List.mem_cons_self
      omega

/-- The block length of an answer that is accepted. -/
def AcceptedBlockLength (blockLen : Nat) : Prop :=
  ∃ data lba, parseReadCapacity10 data = .ok (lba,blockLen) ∨
    parseReadCapacity16 data = .ok (lba,blockLen)

theorem AcceptedBlockLength.bounds {l : Nat} (h : AcceptedBlockLength l) : 0 < l ∧ l < 2^32 := by
  obtain ⟨data,lba,h | h⟩ := h <;> exact (parseCapacity_bounds h).2

theorem maxReadBlocksFor_eq_zero {b l : Nat} (h : b < l) : maxReadBlocksFor b l = 0 := by
  rw [maxReadBlocksFor,if_neg (by omega),Nat.div_eq_of_lt h]

theorem maxReadBlocksFor_mul_le (b l : Nat) : maxReadBlocksFor b l*l ≤ b := by
  unfold maxReadBlocksFor
  split
  · omega
  · exact Nat.div_mul_le_self b l

theorem maxReadBlocksFor_pos {b l : Nat} (hl : 0 < l) (h : l ≤ b) : 0 < maxReadBlocksFor b l := by
  rw [maxReadBlocksFor,if_neg (by omega)]
  exact Nat.div_pos h hl

theorem computeReadChunks_partition {b l s n : Nat} {gs : List (Nat × Nat)} (hb : b < 2^32)
    (h : computeReadChunks s n (maxReadBlocksFor b l) = some gs) :
    Partition (maxReadBlocksFor b l) l s n gs := by
  obtain ⟨ht,hn,hc⟩ := computeReadChunks_tiles h
  refine ⟨ht,hn,fun g hg => ⟨(hc g hg).1,(hc g hg).2,?_⟩,
    fun gs' _ ht' hb' => chunkLoop_fewest h ht' hb'⟩
  have hm := Nat.mul_le_mul_right l (hc g hg).2
  have hl := maxReadBlocksFor_mul_le b l
  omega

/-- Every request is cut into the fewest chunks exactly when a command can carry a block: a
burst shorter than a block keeps the loop going for ever. -/
theorem chunking_partitions_iff {p₀ p : NegotiatedParams} {data : Bytes} {l s n : Nat}
    (hp₀ : p₀.maxBurstLength < 2^32) (h : p₀.applyTargetResponse data = .ok p)
    (hl : AcceptedBlockLength l) (hs : s+n < 2^64) :
    let m := maxReadBlocksFor p.maxBurstLength l
    ((∃ gs, computeReadChunks s n m = some gs ∧ computeWriteChunks s n l m = some gs ∧
      Partition m l s n gs) ↔ n = 0 ∨ l ≤ p.maxBurstLength) ∧
    (¬ (n = 0 ∨ l ≤ p.maxBurstLength) → ∀ fuel, chunkLoop m fuel n s = none) := by
  intro m
  have hb : p.maxBurstLength < 2^32 :=
    Nat.lt_of_le_of_lt ((NegotiatedParams.folded_of_applied h).maxBurstLength.2 (Or.inl rfl)) hp₀
  have hforever : ¬ (n = 0 ∨ l ≤ p.maxBurstLength) → ∀ fuel, chunkLoop m fuel n s = none := by
    intro hc fuel
    have hm : m = 0 := maxReadBlocksFor_eq_zero (by omega)
    rw [hm]
    exact chunkLoop_zero (by omega) fuel s
  refine ⟨⟨fun hg => ?_,fun hc => ?_⟩,hforever⟩
  · obtain ⟨gs,hg,_⟩ := hg
    by_contra hc
    have hn := hforever hc n
    rw [computeReadChunks,hn] at hg
    cases hg
  · rcases hc with rfl | hc
    · exact ⟨[],rfl,rfl,computeReadChunks_partition hb rfl⟩
    · obtain ⟨gs,hg⟩ := computeReadChunks_isSome (m := m) (maxReadBlocksFor_pos hl.bounds.1 hc) hs
      exact ⟨gs,hg,hg,computeReadChunks_partition hb hg⟩

theorem accepted4k : AcceptedBlockLength 4096 :=
  ⟨_,0xFFFF,Or.inl (parseCapacity_toBe _ (by decide) (by decide) [])⟩

theorem chunking_partitions_iff_4k : ∃ p,
    NegotiatedParams.defaults10g.applyTargetResponse (utf8 "MaxBurstLength=8192\x00") = .ok p ∧
      ∃ gs, computeReadChunks 7 5 (maxReadBlocksFor p.maxBurstLength 4096) = some gs ∧
        Partition 2 4096 7 5 gs := by
  have h : NegotiatedParams.defaults10g.applyTargetResponse (utf8 "MaxBurstLength=8192\x00") =
    .ok { NegotiatedParams.defaults10g with maxBurstLength := 8192 } := by rfl
  obtain ⟨gs,hg,_,hp⟩ := (chunking_partitions_iff (by decide) h accepted4k
    (show 7+5 < 2^64 by decide)).1.mpr (Or.inr (by decide))
  exact ⟨_,h,gs,hg,hp⟩

/-- Bursts of 512 bytes are accepted, and so are blocks of 4096. -/
theorem chunking_never_ends : AcceptedBlockLength 4096 ∧ ∃ p,
    NegotiatedParams.defaults10g.applyTargetResponse (utf8 "MaxBurstLength=512\x00") = .ok p ∧
      ∀ fuel, chunkLoop (maxReadBlocksFor p.maxBurstLength 4096) fuel 1 0 = none :=
  ⟨accepted4k,{ NegotiatedParams.defaults10g with maxBurstLength := 512 },by rfl,
    fun fuel => chunkLoop_zero (by decide) fuel 0⟩

end IscsiFuse.Iscsi
