import IscsiFuse.Library.ByteImage
import Mathlib.Tactic.Ring
set_option autoImplicit false

namespace Bytes

/-- Byte strings of a fixed length. -/
abbrev Sized (n : Nat) := {b : Bytes // b.length = n}

def window (b : Bytes) (off n : Nat) : Bytes := (b.drop off).take n

def place (b : Bytes) (off : Nat) (w : Bytes) : Bytes := b.take off ++ w ++ b.drop (off+w.length)

theorem place_length {b w : Bytes} {off : Nat} (h : off+w.length ≤ b.length) :
    (b.place off w).length = b.length := by
  simp [place]
  omega

theorem getElem?_place {b w : Bytes} {off : Nat} (h : off ≤ b.length) (i : Nat) :
    (b.place off w)[i]? = if off ≤ i ∧ i < off+w.length then w[i-off]? else b[i]? := by
  have hl : (b.take off).length = off := by simp [h]
  rw [place,List.append_assoc]
  by_cases hi : i < off
  · rw [List.getElem?_append_left (by omega),List.getElem?_take,if_pos hi,if_neg (by omega)]
  · rw [List.getElem?_append_right (by omega),hl]
    by_cases hw : i-off < w.length
    · rw [List.getElem?_append_left hw,if_pos (by omega)]
    · rw [List.getElem?_append_right (by omega),List.getElem?_drop,if_neg (by omega)]
      congr 1
      omega

@[simp] theorem window_length {b : Bytes} {off n : Nat} (h : off+n ≤ b.length) :
    (b.window off n).length = n := by
  simp [window]
  omega

theorem window_append {a b c : Bytes} {off n : Nat} (ha : a.length = off) (hb : b.length = n) :
    (a ++ (b ++ c)).window off n = b := by
  rw [window,List.drop_left' ha,List.take_left' hb]

theorem window_add (b : Bytes) (off m n : Nat) :
    b.window off (m+n) = b.window off m ++ b.window (off+m) n := by
  simp only [window,List.take_add,List.drop_drop]

theorem window_place {b w : Bytes} {off : Nat} (h : off ≤ b.length) :
    (b.place off w).window off w.length = w := by
  have hl : (b.take off).length = off := by simp [h]
  rw [window,place,List.append_assoc,List.drop_left' hl]
  exact List.take_left

theorem window_place_apart {b w : Bytes} {off i n : Nat} (h : off ≤ b.length)
    (ha : i+n ≤ off ∨ off+w.length ≤ i) : (b.place off w).window i n = b.window i n := by
  apply List.ext_getElem?
  intro k
  simp only [window,List.getElem?_take,List.getElem?_drop]
  split
  · rw [getElem?_place h,if_neg (by omega)]
  · rfl

def toBe : Nat → Nat → Bytes
  | 0, _ => []
  | n+1, v => UInt8.ofNat (v/256^n) :: toBe n v

def ofBe (b : Bytes) : Nat := b.foldl (fun a x => a*256+x.toNat) 0

@[simp] theorem toBe_length (n v : Nat) : (toBe n v).length = n := by
  induction n with
  | zero => rfl
  | succ n ih => simp [toBe,ih]

theorem foldl_toBe (n v a : Nat) :
    (toBe n v).foldl (fun a x => a*256+x.toNat) a = a*256^n+v%256^n := by
  induction n generalizing a with
  | zero => simp [toBe,Nat.mod_one]
  | succ n ih =>
    have hd : v%256^(n+1) = v/256^n%256*256^n+v%256^n := by
      rw [pow_succ,Nat.mod_mul,Nat.mul_comm (256^n),Nat.add_comm]
    rw [toBe,List.foldl_cons,ih,hd,UInt8.toNat_ofNat']
    ring

theorem foldl_ofBe_lt (b : Bytes) (a : Nat) :
    b.foldl (fun a x => a*256+x.toNat) a < (a+1)*256^b.length := by
  induction b generalizing a with
  | nil => simp
  | cons x b ih =>
    have hx := x.toNat_lt
    have hm := Nat.mul_le_mul_right (256^b.length) (show a*256+x.toNat+1 ≤ (a+1)*256 by omega)
    rw [List.foldl_cons,List.length_cons,pow_succ,Nat.mul_comm (256^b.length),← Nat.mul_assoc]
    exact Nat.lt_of_lt_of_le (ih _) hm

theorem ofBe_lt (b : Bytes) : ofBe b < 256^b.length := by
  have h := foldl_ofBe_lt b 0
  rwa [Nat.zero_add,Nat.one_mul] at h

theorem ofBe_toBe (n v : Nat) : ofBe (toBe n v) = v%256^n := by
  rw [ofBe,foldl_toBe,Nat.zero_mul,Nat.zero_add]

theorem le_foldl_ofBe (b : Bytes) (a : Nat) :
    a*256^b.length ≤ b.foldl (fun a x => a*256+x.toNat) a := by
  induction b generalizing a with
  | nil => simp
  | cons x b ih =>
    have hm := Nat.mul_le_mul_right (256^b.length) (Nat.le_add_right (a*256) x.toNat)
    rw [List.foldl_cons,List.length_cons,pow_succ,Nat.mul_comm (256^b.length),← Nat.mul_assoc]
    exact Nat.le_trans hm (ih _)

theorem toBe_foldl (b : Bytes) (a : Nat) :
    toBe b.length (b.foldl (fun a x => a*256+x.toNat) a) = b := by
  induction b generalizing a with
  | nil => rfl
  | cons x b ih =>
    have hd : b.foldl (fun a x => a*256+x.toNat) (a*256+x.toNat)/256^b.length = a*256+x.toNat :=
      Nat.div_eq_of_lt_le (le_foldl_ofBe b _) (foldl_ofBe_lt b _)
    have hx : UInt8.ofNat (a*256+x.toNat) = x := by
      apply UInt8.toNat.inj
      have hl := x.toNat_lt
      rw [UInt8.toNat_ofNat']
      omega
    rw [List.foldl_cons,List.length_cons,toBe,ih,hd,hx]

theorem toBe_ofBe (b : Bytes) : toBe b.length (ofBe b) = b := toBe_foldl b 0

end Bytes

namespace Patch

def extent (ws : List Patch) : Nat := ws.foldl (fun n w => max n (w.off+w.data.length)) 0

def assemble (ws : List Patch) : Bytes := Image.read (applyAll (fun _ => 0) ws) 0 (extent ws)

theorem extent_snoc (ws : List Patch) (w : Patch) :
    extent (ws ++ [w]) = max (extent ws) (w.off+w.data.length) := by
  simp [extent]

theorem le_extent {ws : List Patch} {w : Patch} (h : w ∈ ws) :
    w.off+w.data.length ≤ extent ws := by
  induction ws using List.reverseRecOn with
  | nil => cases h
  | append_singleton ws v ih =>
    rw [extent_snoc]
    rcases List.mem_append.mp h with h | h
    · exact Nat.le_trans (ih h) (Nat.le_max_left _ _)
    · rw [List.mem_singleton.mp h]
      exact Nat.le_max_right _ _

@[simp] theorem assemble_length (ws : List Patch) : (assemble ws).length = extent ws := by
  simp [assemble]

theorem assemble_grow (ws : List Patch) (n i : Nat) :
    (assemble ws ++ List.replicate (n-(assemble ws).length) 0)[i]? =
      if i < max (extent ws) n then some (applyAll (fun _ => 0) ws i) else none := by
  by_cases hi : i < extent ws
  · rw [List.getElem?_append_left (by simpa using hi),assemble,Image.getElem?_read,if_pos hi,
      if_pos (Nat.lt_of_lt_of_le hi (Nat.le_max_left _ _)),Nat.zero_add]
  · have hz : applyAll (fun _ => 0) ws i = 0 := by
      refine applyAll_outside (fun w hw hc => hi ?_)
      exact Nat.lt_of_lt_of_le hc.2 (le_extent hw)
    rw [List.getElem?_append_right (by simpa using hi),assemble_length,List.getElem?_replicate,hz]
    split <;> split <;> first | rfl | omega

theorem assemble_snoc (ws : List Patch) (w : Patch) :
    assemble (ws ++ [w]) = Bytes.place (assemble ws ++
      List.replicate (w.off+w.data.length-(assemble ws).length) 0) w.off w.data := by
  apply List.ext_getElem?
  intro i
  have hlen : (assemble ws ++ List.replicate (w.off+w.data.length-(assemble ws).length) 0).length =
      max (extent ws) (w.off+w.data.length) := by
    simp
    omega
  rw [Bytes.getElem?_place (by rw [hlen]; omega),assemble_grow,assemble,Image.getElem?_read,
    extent_snoc,Nat.zero_add,applyAll_append,applyAll_cons,applyAll_nil,apply_eq]
  by_cases hc : w.Covers i
  · obtain ⟨x,hx⟩ := exists_at? hc
    have hi : i < max (extent ws) (w.off+w.data.length) :=
      Nat.lt_of_lt_of_le hc.2 (Nat.le_max_right _ _)
    have hc' : w.off ≤ i ∧ i < w.off+w.data.length := hc
    rw [if_pos hi,if_pos hc',hx,Option.getD_some,← hx,at?,if_pos hc.1]
  · have hc' : ¬ (w.off ≤ i ∧ i < w.off+w.data.length) := hc
    rw [if_neg hc',at?_eq_none.mpr hc,Option.getD_none]

theorem extent_le {ws : List Patch} {n : Nat} (h : ∀ w ∈ ws, w.off+w.data.length ≤ n) :
    extent ws ≤ n := by
  induction ws using List.reverseRecOn with
  | nil => exact Nat.zero_le n
  | append_singleton ws v ih =>
    rw [extent_snoc]
    exact Nat.max_le.mpr ⟨ih (fun w hw => h w (by simp [hw])),h v (by simp)⟩

theorem assemble_eq {ws : List Patch} {d : Image} {a n : Nat}
    (hin : ∀ w ∈ ws, w.off+w.data.length ≤ n)
    (hb : ∀ w ∈ ws, ∀ q y, w.at? q = some y → d (a+q) = y)
    (hc : ∀ q < n, ∃ w ∈ ws, w.Covers q) : assemble ws = d.read a n := by
  have hn : extent ws = n := by
    refine Nat.le_antisymm (extent_le hin) ?_
    by_cases h0 : n = 0
    · omega
    · obtain ⟨w,hw,hcov⟩ := hc (n-1) (by omega)
      have hle := le_extent hw
      simp only [Covers] at hcov
      omega
  apply List.ext_getElem?
  intro q
  rw [assemble,Image.getElem?_read,Image.getElem?_read,hn,Nat.zero_add]
  split
  · rename_i hq
    congr 1
    refine applyAll_agree (hc q hq) (fun w hw hcov => ?_)
    obtain ⟨y,hy⟩ := exists_at? hcov
    rw [hy,hb w hw q y hy]
  · rfl

end Patch
