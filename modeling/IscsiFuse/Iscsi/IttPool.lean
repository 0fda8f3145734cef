import Mathlib.Logic.Function.Basic
import IscsiFuse.Library.BitScan
import IscsiFuse.Library.ByteWindow
set_option autoImplicit false

namespace IscsiFuse.Iscsi

inductive Half where
  | lo | hi
  deriving DecidableEq, Repr

def Half.base : Half → Nat
  | .lo => 0
  | .hi => 64

def halfOf (itt : Nat) : Half := if itt < 64 then .lo else .hi

/-- Registered write data. The source has the data only; `owner` is the call that
registered it. -/
structure WriteData where
  owner : Nat
  data : Bytes
  deriving DecidableEq

structure IttPool where
  slots : Half → BitVec 64
  completions : Nat → Option Nat
  writeData : Nat → Option WriteData

namespace IttPool

def new : IttPool where
  slots := fun _ => 0
  completions := fun _ => none
  writeData := fun _ => none

/-- Whether the bit of the tag is set. -/
def inUse (p : IttPool) (itt : Nat) : Bool :=
  (p.slots (halfOf itt)).getLsbD (itt-(halfOf itt).base)

def trailingZeros (x : BitVec 64) : Nat := ((List.range 64).find? (fun i => x.getLsbD i)).getD 64

def freeBit (current : BitVec 64) : Nat := trailingZeros (~~~current)

def claim (p : IttPool) (h : Half) (bit : Nat) : IttPool :=
  { p with slots := Function.update p.slots h (p.slots h ||| 1#64 <<< bit) }

def free (p : IttPool) (itt : Nat) : IttPool :=
  let h := halfOf itt
  { p with slots := Function.update p.slots h (p.slots h &&& ~~~(1#64 <<< (itt-h.base))) }

/-- The two loops over the set bits; `bits &= bits - 1` clears the lowest. -/
def outstandingItts (p : IttPool) : Option (List Nat) := do
  let lo ← BitScan.scan trailingZeros 64 (p.slots .lo)
  let hi ← BitScan.scan trailingZeros 64 (p.slots .hi)
  pure (lo ++ hi.map (64 + ·))

def putSender (p : IttPool) (itt : Nat) (tx : Option Nat) : IttPool :=
  { p with completions := Function.update p.completions itt tx }

def putWriteData (p : IttPool) (itt : Nat) (d : Option WriteData) : IttPool :=
  { p with writeData := Function.update p.writeData itt d }

theorem trailingZeros_spec {x : BitVec 64} {i : Nat} (hi : i < 64) :
    trailingZeros x = i ↔ BitScan.Lowest x i := by
  unfold trailingZeros
  cases hf : (List.range 64).find? (fun i => x.getLsbD i) with
  | none =>
    have hx := List.find?_eq_none.mp hf i (List.mem_range.mpr hi)
    constructor
    · intro h
      exact absurd h (by simp only [Option.getD_none]; omega)
    · intro h
      exact absurd h.set hx
  | some k =>
    obtain ⟨hk,_,hlow⟩ := List.find?_range_eq_some.mp hf
    rw [Option.getD_some]
    constructor
    · intro h
      subst h
      exact ⟨hk,fun j hj => by simpa using hlow j hj⟩
    · intro h
      rcases Nat.lt_trichotomy k i with hlt | heq | hlt
      · rw [h.below k hlt] at hk
        cases hk
      · exact heq
      · have hn := hlow i hlt
        rw [h.set] at hn
        cases hn

theorem trailingZeros_lt {x : BitVec 64} :
    trailingZeros x < 64 ↔ ∃ i < 64, x.getLsbD i = true := by
  constructor
  · intro h
    exact ⟨_,h,((trailingZeros_spec h).mp rfl).set⟩
  · intro ⟨i,hi,hb⟩
    unfold trailingZeros
    cases hf : (List.range 64).find? (fun i => x.getLsbD i) with
    | none => exact absurd hb (List.find?_eq_none.mp hf i (List.mem_range.mpr hi))
    | some k => exact List.mem_range.mp (List.mem_of_find?_eq_some hf)

theorem trailingZeros_lowest {x : BitVec 64} (hx : x ≠ 0#64) :
    BitScan.Lowest x (trailingZeros x) := by
  have hb : ∃ i < 64, x.getLsbD i = true := by
    by_contra hno
    refine hx (BitVec.eq_of_getLsbD_eq (fun i hi => ?_))
    rw [BitVec.getLsbD_zero]
    by_contra hb
    exact hno ⟨i,hi,by simpa using hb⟩
  exact (trailingZeros_spec (trailingZeros_lt.mpr hb)).mp rfl

theorem getLsbD_compl {x : BitVec 64} {i : Nat} (hi : i < 64) :
    (~~~x).getLsbD i = !x.getLsbD i := by
  rw [BitVec.getLsbD_not,decide_eq_true hi,Bool.true_and]

theorem freeBit_spec {current : BitVec 64} {i : Nat} (hi : i < 64) :
    freeBit current = i ↔ current.getLsbD i = false ∧ ∀ j < i, current.getLsbD j = true := by
  rw [freeBit,trailingZeros_spec hi]
  constructor
  · intro h
    have hs := h.set
    rw [getLsbD_compl hi,Bool.not_eq_true'] at hs
    refine ⟨hs,fun j hj => ?_⟩
    have hb := h.below j hj
    rwa [getLsbD_compl (by omega),Bool.not_eq_false'] at hb
  · intro ⟨hs,hb⟩
    refine ⟨by rw [getLsbD_compl hi,hs]; rfl,fun j hj => ?_⟩
    rw [getLsbD_compl (by omega),hb j hj]
    rfl

theorem freeBit_lt {current : BitVec 64} :
    freeBit current < 64 ↔ ∃ i < 64, current.getLsbD i = false := by
  rw [freeBit,trailingZeros_lt]
  refine exists_congr (fun i => and_congr_right (fun hi => ?_))
  rw [getLsbD_compl hi,Bool.not_eq_true']

theorem freeBit_clear {current : BitVec 64} (h : freeBit current < 64) :
    current.getLsbD (freeBit current) = false := ((freeBit_spec h).mp rfl).1

theorem halfOf_add {h : Half} {bit : Nat} (hb : bit < 64) : halfOf (h.base+bit) = h := by
  cases h with
  | lo => exact if_pos (by simpa [Half.base] using hb)
  | hi => exact if_neg (by simp [Half.base])

theorem base_le (itt : Nat) : (halfOf itt).base ≤ itt := by
  unfold halfOf
  split <;> simp only [Half.base] <;> omega

theorem sub_base_lt {itt : Nat} (h : itt < 128) : itt-(halfOf itt).base < 64 := by
  unfold halfOf
  split <;> simp only [Half.base] <;> omega

theorem eq_of_bit {i j : Nat} (hh : halfOf i = halfOf j)
    (hb : i-(halfOf i).base = j-(halfOf j).base) : i = j := by
  have hi := base_le i
  have hj := base_le j
  rw [hh] at hi hb
  omega

theorem getLsbD_mask {i j : Nat} (hi : i < 64) : (1#64 <<< i).getLsbD j = decide (j = i) := by
  rw [BitVec.getLsbD_shiftLeft,BitVec.getLsbD_one]
  by_cases h : j = i
  · subst h
    simp [hi]
  · simp only [h,decide_false]
    by_cases hji : j < i
    · simp [hji]
    · simp [show j-i ≠ 0 by omega]

theorem claim_inUse (p : IttPool) {h : Half} {bit : Nat} (hb : bit < 64) (itt : Nat) :
    (p.claim h bit).inUse itt = (p.inUse itt || decide (itt = h.base+bit)) := by
  simp only [inUse,claim]
  by_cases hh : halfOf itt = h
  · subst hh
    have hbase := base_le itt
    rw [Function.update_self,BitVec.getLsbD_or,getLsbD_mask hb]
    congr 1
    rw [decide_eq_decide]
    omega
  · have hne : itt ≠ h.base+bit := by
      intro hx
      rw [hx] at hh
      exact hh (halfOf_add hb)
    rw [Function.update_of_ne hh]
    simp [hne]

theorem inUse_half (p : IttPool) {h : Half} {bit : Nat} (hb : bit < 64) :
    p.inUse (h.base+bit) = (p.slots h).getLsbD bit := by
  rw [inUse,halfOf_add hb,Nat.add_sub_cancel_left]

theorem free_inUse (p : IttPool) {i : Nat} (hi : i < 128) {itt : Nat} (ht : itt < 128) :
    (p.free i).inUse itt = (p.inUse itt && !decide (itt = i)) := by
  simp only [inUse,free]
  by_cases hh : halfOf itt = halfOf i
  · have hbit : itt-(halfOf i).base = i-(halfOf i).base ↔ itt = i := by
      constructor
      · intro hb
        exact eq_of_bit hh (by rw [hh,hb])
      · intro hx
        rw [hx]
    have hlt := sub_base_lt ht
    rw [hh] at hlt
    rw [hh,Function.update_self,BitVec.getLsbD_and,BitVec.getLsbD_not,getLsbD_mask (sub_base_lt hi)]
    simp [hlt,hbit]
  · have hne : itt ≠ i := fun hx => hh (by rw [hx])
    rw [Function.update_of_ne hh]
    simp [hne]

theorem tag_lt {h : Half} {bit : Nat} (hb : bit < 64) : h.base+bit < 128 := by
  cases h <;> simp only [Half.base] <;> omega

theorem freeBit_slots {p : IttPool} {h : Half} :
    IttPool.freeBit (p.slots h) < 64 ↔ ∃ itt < 128, halfOf itt = h ∧ p.inUse itt = false := by
  rw [freeBit_lt]
  constructor
  · intro ⟨i,hi,hb⟩
    exact ⟨h.base+i,tag_lt hi,halfOf_add hi,by rw [inUse_half p hi,hb]⟩
  · intro ⟨itt,hi,hh,hb⟩
    subst hh
    exact ⟨_,sub_base_lt hi,hb⟩

theorem outstandingItts_spec (p : IttPool) : ∃ l, p.outstandingItts = some l ∧
    l.Pairwise (· < ·) ∧ ∀ i, i ∈ l ↔ i < 128 ∧ p.inUse i = true := by
  obtain ⟨lo,hlo,hplo,hmlo⟩ := BitScan.scan_spec (fun _ => trailingZeros_lowest)
    (BitScan.count_le (p.slots .lo))
  obtain ⟨hi,hhi,hphi,hmhi⟩ := BitScan.scan_spec (fun _ => trailingZeros_lowest)
    (BitScan.count_le (p.slots .hi))
  have hbit {x : BitVec 64} {i : Nat} (h : x.getLsbD i = true) : i < 64 := by
    by_contra hc
    rw [BitVec.getLsbD_of_ge x i (by omega)] at h
    cases h
  refine ⟨lo ++ hi.map (64 + ·),by simp [outstandingItts,hlo,hhi],?_,fun i => ?_⟩
  · refine List.pairwise_append.mpr ⟨hplo,List.pairwise_map.mpr (hphi.imp (by omega)),?_⟩
    intro a ha b hb
    obtain ⟨c,_,rfl⟩ := List.mem_map.mp hb
    have hlt := hbit ((hmlo a).mp ha)
    omega
  · rw [List.mem_append,List.mem_map,hmlo]
    simp only [hmhi]
    constructor
    · intro h
      rcases h with h | ⟨c,hc,rfl⟩
      · have hlt := hbit h
        refine ⟨by omega,?_⟩
        have hu := inUse_half p (h := .lo) hlt
        rw [show Half.lo.base+i = i from Nat.zero_add i] at hu
        rw [hu,h]
      · have hlt := hbit hc
        exact ⟨by omega,(inUse_half p (h := .hi) hlt).trans hc⟩
    · intro ⟨hi,hu⟩
      by_cases hlt : i < 64
      · have hh := inUse_half p (h := .lo) hlt
        rw [show Half.lo.base+i = i from Nat.zero_add i,hu] at hh
        exact Or.inl hh.symm
      · have hbit : i-64 < 64 := by omega
        have hh := inUse_half p (h := .hi) hbit
        rw [show Half.hi.base+(i-64) = i from Nat.add_sub_cancel' (show 64 ≤ i by omega),hu] at hh
        exact Or.inr ⟨i-64,hh.symm,by omega⟩

end IttPool
end IscsiFuse.Iscsi
