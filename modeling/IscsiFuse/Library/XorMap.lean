import Mathlib.Logic.Basic
set_option autoImplicit false

namespace XorMap

variable {l m n : Nat}

def Linear (f : BitVec m → BitVec n) : Prop := ∀ x y, f (x ^^^ y) = f x ^^^ f y

def columns : List (BitVec n) → BitVec m → BitVec n
  | [], _ => 0#n
  | c :: cs, x => (if x.getLsbD 0 then c else 0#n) ^^^ columns cs (x >>> 1)

theorem xor_comm_mid (a b c d : BitVec n) :
    (a ^^^ b) ^^^ (c ^^^ d) = (a ^^^ c) ^^^ (b ^^^ d) := by
  rw [BitVec.xor_assoc,← BitVec.xor_assoc b,BitVec.xor_comm b,BitVec.xor_assoc c,← BitVec.xor_assoc]

theorem ite_xor (a b : Bool) (c : BitVec n) : (if (a ^^ b) then c else 0#n) =
    (if a then c else 0#n) ^^^ (if b then c else 0#n) := by
  cases a <;> cases b <;> simp

theorem setWidth_succ (x : BitVec m) {k : Nat} (hk : k < m) : (x.setWidth (k+1)).setWidth m =
    (x.setWidth k).setWidth m ^^^ (if x.getLsbD k then 1#m <<< k else 0#m) := by
  apply BitVec.eq_of_getLsbD_eq
  intro i hi
  rcases Nat.lt_trichotomy i k with h | rfl | h
  · cases hx : x.getLsbD k <;> simp [hi,h,show i < k+1 by omega]
  · cases hx : x[i] <;> simp [hi,hx]
  · have hne : i-k ≠ 0 := by omega
    cases hx : x.getLsbD k <;> simp [hi,show ¬ i < k by omega,show ¬ i < k+1 by omega,hne]

namespace Linear

variable {f g : BitVec m → BitVec n} {h : BitVec l → BitVec m}

theorem zero (hf : Linear f) : f 0#m = 0#n := by
  have hz := hf 0#m 0#m
  rwa [BitVec.xor_self,BitVec.xor_self] at hz

theorem comp (hf : Linear f) (hh : Linear h) : Linear (fun x => f (h x)) := by
  intro x y
  show f (h (x ^^^ y)) = _
  rw [hh,hf]

theorem xor (hf : Linear f) (hg : Linear g) : Linear (fun x => f x ^^^ g x) := by
  intro x y
  show f (x ^^^ y) ^^^ g (x ^^^ y) = _
  rw [hf,hg,xor_comm_mid]

theorem iterate {f : BitVec n → BitVec n} (hf : Linear f) (k : Nat) : Linear (Nat.repeat f k) := by
  induction k with
  | zero => exact fun _ _ => rfl
  | succ k ih => exact hf.comp ih

theorem columns (cs : List (BitVec n)) : Linear (XorMap.columns (m := m) cs) := by
  induction cs with
  | nil => exact fun _ _ => (BitVec.xor_self).symm
  | cons c cs ih =>
    intro x y
    simp only [XorMap.columns,BitVec.ushiftRight_xor_distrib,BitVec.getLsbD_xor,ih (x >>> 1),ite_xor]
    exact xor_comm_mid _ _ _ _

theorem eq_zero (hf : Linear f) (hb : ∀ i < m, f (1#m <<< i) = 0#n) (x : BitVec m) : f x = 0#n := by
  have hk : ∀ k ≤ m, f ((x.setWidth k).setWidth m) = 0#n := by
    intro k hk
    induction k with
    | zero =>
      rw [show (x.setWidth 0).setWidth m = 0#m from BitVec.eq_of_getLsbD_eq (by simp)]
      exact hf.zero
    | succ k ih =>
      rw [setWidth_succ x (by omega),hf,ih (by omega),BitVec.zero_xor]
      split
      · exact hb k (by omega)
      · exact hf.zero
  have hm := hk m (Nat.le_refl m)
  rwa [BitVec.setWidth_eq,BitVec.setWidth_eq] at hm

theorem vanishes (hf : Linear f) {g : BitVec m → BitVec l} (hg : Linear g) (cs : List (BitVec l))
    (hb : ∀ i < m, XorMap.columns cs (f (1#m <<< i)) = g (1#m <<< i)) {x : BitVec m}
    (hx : f x = 0#n) : g x = 0#l := by
  have hz := (((Linear.columns cs).comp hf).xor hg).eq_zero
    (fun i hi => by rw [hb i hi]; exact BitVec.xor_self) x
  rwa [hx,(Linear.columns cs).zero,BitVec.zero_xor] at hz

end Linear

def parity (x : BitVec n) : BitVec 1 := columns (List.replicate n 1#1) x

theorem parity_linear : Linear (parity (n := n)) := .columns _

theorem Linear.keeps_parity {f : BitVec m → BitVec n} (hf : Linear f)
    (hb : ∀ i < m, parity (f (1#m <<< i)) = parity (1#m <<< i)) (x : BitVec m) :
    parity (f x) = parity x := by
  have hz := ((parity_linear.comp hf).xor parity_linear).eq_zero
    (fun i hi => by rw [hb i hi]; exact BitVec.xor_self) x
  exact BitVec.xor_eq_zero_iff.mp hz

end XorMap
