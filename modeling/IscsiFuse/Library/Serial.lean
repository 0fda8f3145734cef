import Mathlib.Data.BitVec
import Mathlib.Data.Set.Basic
set_option autoImplicit false

/-!
Serial numbers: counters without bound, of which only the low `w` bits are seen. Inside a window
of half the space the comparison of the low bits is the comparison of the counters.
-/

namespace Serial

variable {w : Nat} {a b c : BitVec w} {x y d : Nat}

def Le (a b : BitVec w) : Prop := (b-a).toNat < 2^(w-1)

/-- The counters differ by less than half the space. -/
def Near (w x y : Nat) : Prop := x < y+2^(w-1) ∧ y < x+2^(w-1)

/-- Any two counters of the set are near. -/
def Window (w : Nat) (s : Set Nat) : Prop := ∀ x ∈ s, ∀ y ∈ s, Near w x y

instance (w x y : Nat) : Decidable (Near w x y) := inferInstanceAs (Decidable (_ ∧ _))

theorem two_halves (hw : 0 < w) : 2^w = 2^(w-1)+2^(w-1) := by
  obtain ⟨n,rfl⟩ := Nat.exists_eq_succ_of_ne_zero (Nat.pos_iff_ne_zero.mp hw)
  rw [Nat.succ_sub_one,Nat.pow_succ]
  omega

theorem ofNat_add_sub (w x d : Nat) :
    BitVec.ofNat w (x+d)-BitVec.ofNat w x = BitVec.ofNat w d := by
  rw [BitVec.ofNat_add,BitVec.add_comm,BitVec.add_sub_cancel]

theorem le_add_ofNat (hw : 0 < w) (hd : d < 2^(w-1)) :
    Le (BitVec.ofNat w x) (BitVec.ofNat w (x+d)) := by
  have hh := two_halves hw
  rw [Le,ofNat_add_sub,BitVec.toNat_ofNat,Nat.mod_eq_of_lt (by omega)]
  exact hd

theorem not_le_add_ofNat (hw : 0 < w) (hpos : 0 < d) (hd : d < 2^(w-1)) :
    ¬ Le (BitVec.ofNat w (x+d)) (BitVec.ofNat w x) := by
  have hh := two_halves hw
  have hneg : BitVec.ofNat w x-BitVec.ofNat w (x+d) = -BitVec.ofNat w d := by
    rw [← ofNat_add_sub w x d,neg_sub]
  rw [Le,hneg,BitVec.toNat_neg,BitVec.toNat_ofNat,Nat.mod_eq_of_lt (a := d) (by omega),
    Nat.mod_eq_of_lt (by omega)]
  omega

theorem le_ofNat_iff (hw : 0 < w) (h : Near w x y) :
    Le (BitVec.ofNat w x) (BitVec.ofNat w y) ↔ x ≤ y := by
  obtain ⟨h₁,h₂⟩ := h
  rcases Nat.lt_or_ge y x with hlt | hge
  · obtain ⟨d,rfl⟩ := Nat.exists_eq_add_of_le (Nat.le_of_lt hlt)
    exact ⟨fun hle => absurd hle (not_le_add_ofNat hw (by omega) (by omega)),fun hle => by omega⟩
  · obtain ⟨d,rfl⟩ := Nat.exists_eq_add_of_le hge
    exact ⟨fun _ => hge,fun _ => le_add_ofNat hw (by omega)⟩

theorem Le.refl (a : BitVec w) : Le a a := by
  rw [Le,BitVec.sub_self]
  exact Nat.two_pow_pos _

theorem le_add_iff : Le (a+c) (b+c) ↔ Le a b := by
  rw [Le,Le,add_sub_add_right_eq_sub]

section Window

variable {s : Set Nat} {z : Nat}

theorem Window.le_iff (h : Window w s) (hw : 0 < w) (hx : x ∈ s) (hy : y ∈ s) :
    Le (BitVec.ofNat w x) (BitVec.ofNat w y) ↔ x ≤ y := le_ofNat_iff hw (h x hx y hy)

theorem Window.antisymm (h : Window w s) (hw : 0 < w) (hx : x ∈ s) (hy : y ∈ s)
    (hxy : Le (BitVec.ofNat w x) (BitVec.ofNat w y)) (hyx : Le (BitVec.ofNat w y) (BitVec.ofNat w x)) :
    x = y :=
  Nat.le_antisymm ((h.le_iff hw hx hy).mp hxy) ((h.le_iff hw hy hx).mp hyx)

theorem Window.trans (h : Window w s) (hw : 0 < w) (hx : x ∈ s) (hy : y ∈ s) (hz : z ∈ s)
    (hxy : Le (BitVec.ofNat w x) (BitVec.ofNat w y)) (hyz : Le (BitVec.ofNat w y) (BitVec.ofNat w z)) :
    Le (BitVec.ofNat w x) (BitVec.ofNat w z) :=
  (h.le_iff hw hx hz).mpr (Nat.le_trans ((h.le_iff hw hx hy).mp hxy) ((h.le_iff hw hy hz).mp hyz))

end Window

end Serial
