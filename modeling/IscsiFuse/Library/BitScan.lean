import Mathlib.Data.BitVec
import Mathlib.Data.Finset.Card
import Mathlib.Data.Nat.Bitwise
set_option autoImplicit false

namespace BitScan

variable {w : Nat} {x : BitVec w} {t : Nat}

structure Lowest (x : BitVec w) (t : Nat) : Prop where
  set : x.getLsbD t = true
  below : ∀ j < t, x.getLsbD j = false

theorem Lowest.lt (h : Lowest x t) : t < w := by
  by_contra hw
  have hs := h.set
  rw [BitVec.getLsbD_of_ge x t (by omega)] at hs
  cases hs

theorem Lowest.toNat (h : Lowest x t) : ∃ q, x.toNat = 2^(t+1)*q+2^t := by
  have hm : x.toNat%2^(t+1) = 2^t := by
    apply Nat.eq_of_testBit_eq
    intro j
    rw [Nat.testBit_mod_two_pow,Nat.testBit_two_pow]
    rcases Nat.lt_trichotomy j t with hj | rfl | hj
    · have hb := h.below j hj
      rw [BitVec.getLsbD] at hb
      rw [hb,Bool.and_false,decide_eq_false (by omega)]
    · have hb := h.set
      rw [BitVec.getLsbD] at hb
      rw [hb,decide_eq_true (by omega),decide_eq_true rfl]
      rfl
    · rw [decide_eq_false (by omega),Bool.false_and,decide_eq_false (by omega)]
  exact ⟨x.toNat/2^(t+1),by rw [← hm,Nat.div_add_mod]⟩

theorem Lowest.clear (h : Lowest x t) (j : Nat) :
    (x &&& (x-1#w)).getLsbD j = (x.getLsbD j && decide (j ≠ t)) := by
  obtain ⟨q,hq⟩ := h.toNat
  have hpos := Nat.two_pow_pos t
  have hlt : 2^t < 2^(t+1) := Nat.pow_lt_pow_right (by decide) (by omega)
  have hone : (1#w).toNat = 1 := by
    rw [BitVec.toNat_ofNat]
    exact Nat.mod_eq_of_lt (Nat.one_lt_two_pow (by have := h.lt; omega))
  have hsub : (x-1#w).toNat = 2^(t+1)*q+(2^t-1) := by
    rw [BitVec.toNat_sub_of_le (by rw [BitVec.le_def,hone]; omega),hone,hq]
    omega
  rw [BitVec.getLsbD_and]
  simp only [BitVec.getLsbD]
  rw [hsub,hq,Nat.testBit_two_pow_mul_add q hlt,
    Nat.testBit_two_pow_mul_add q (show 2^t-1 < 2^(t+1) by omega)]
  split
  · rw [Nat.testBit_two_pow,Nat.testBit_two_pow_sub_one]
    rcases Nat.lt_trichotomy j t with hj | rfl | hj
    · simp [show t ≠ j by omega]
    · simp
    · omega
  · rw [Bool.and_self,decide_eq_true (show j ≠ t by omega),Bool.and_true]

/-- How many bits are set. -/
def count (x : BitVec w) : Nat := ((Finset.range w).filter (fun i => x.getLsbD i = true)).card

theorem count_le (x : BitVec w) : count x ≤ w := by
  have h := Finset.card_filter_le (Finset.range w) (fun i => x.getLsbD i = true)
  rwa [Finset.card_range] at h

theorem Lowest.count (h : Lowest x t) : count (x &&& (x-1#w))+1 = count x := by
  have he : (Finset.range w).filter (fun i => (x &&& (x-1#w)).getLsbD i = true) =
      ((Finset.range w).filter (fun i => x.getLsbD i = true)).erase t := by
    ext i
    simp only [Finset.mem_filter,Finset.mem_erase,Finset.mem_range,h.clear,Bool.and_eq_true,
      decide_eq_true_eq]
    exact ⟨fun ⟨hi,hb,hn⟩ => ⟨hn,hi,hb⟩,fun ⟨hn,hi,hb⟩ => ⟨hi,hb,hn⟩⟩
  rw [BitScan.count,he]
  exact Finset.card_erase_add_one (Finset.mem_filter.mpr ⟨Finset.mem_range.mpr h.lt,h.set⟩)

def scan (low : BitVec w → Nat) : Nat → BitVec w → Option (List Nat)
  | fuel, bits => if bits = 0#w then some [] else match fuel with
    | 0 => none
    | fuel+1 => (scan low fuel (bits &&& (bits-1#w))).map (low bits :: ·)

theorem scan_spec {low : BitVec w → Nat} (hlow : ∀ x, x ≠ 0#w → Lowest x (low x)) {fuel : Nat}
    (hf : count x ≤ fuel) :
    ∃ l, scan low fuel x = some l ∧ l.Pairwise (· < ·) ∧ ∀ i, i ∈ l ↔ x.getLsbD i = true := by
  induction fuel generalizing x with
  | zero =>
    by_cases hx : x = 0#w
    · subst hx
      exact ⟨[],by rw [scan,if_pos rfl],List.Pairwise.nil,by simp⟩
    · have hc := (hlow x hx).count
      omega
  | succ fuel ih =>
    by_cases hx : x = 0#w
    · subst hx
      exact ⟨[],by rw [scan,if_pos rfl],List.Pairwise.nil,by simp⟩
    · have hl := hlow x hx
      have hc := hl.count
      obtain ⟨l,hs,hp,hm⟩ := ih (x := x &&& (x-1#w)) (by omega)
      have hrest : ∀ i, i ∈ l ↔ x.getLsbD i = true ∧ i ≠ low x := by
        intro i
        rw [hm,hl.clear,Bool.and_eq_true,decide_eq_true_eq]
      refine ⟨low x :: l,by rw [scan,if_neg hx,hs]; rfl,List.pairwise_cons.mpr ⟨?_,hp⟩,fun i => ?_⟩
      · intro i hi
        obtain ⟨hb,hne⟩ := (hrest i).mp hi
        by_contra hle
        rw [hl.below i (by omega)] at hb
        cases hb
      · rw [List.mem_cons,hrest]
        constructor
        · intro h
          rcases h with rfl | ⟨hb,_⟩
          · exact hl.set
          · exact hb
        · intro hb
          by_cases hi : i = low x
          · exact Or.inl hi
          · exact Or.inr ⟨hb,hi⟩

end BitScan
