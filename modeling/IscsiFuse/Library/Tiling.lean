import IscsiFuse.Library.ByteWindow
import Mathlib.Algebra.BigOperators.Group.List.Basic
import Mathlib.Tactic.Ring
set_option autoImplicit false

namespace Tiling

def Tiles : Nat → List (Nat × Nat) → Prop
  | _, [] => True
  | s, g :: gs => g.1 = s ∧ Tiles (s+g.2) gs

def total (gs : List (Nat × Nat)) : Nat := (gs.map Prod.snd).sum

@[simp] theorem total_nil : total [] = 0 := rfl

@[simp] theorem total_cons (g : Nat × Nat) (gs : List (Nat × Nat)) :
    total (g :: gs) = g.2+total gs := by simp [total]

theorem total_le_length_mul {m : Nat} {gs : List (Nat × Nat)} (h : ∀ g ∈ gs, g.2 ≤ m) :
    total gs ≤ gs.length*m := by
  induction gs with
  | nil => simp
  | cons g gs ih =>
    have hg := h g List.mem_cons_self
    have ih := ih (fun e he => h e (List.mem_cons_of_mem _ he))
    rw [total_cons,List.length_cons,Nat.add_mul]
    omega

theorem tiles_bounds {s : Nat} {gs : List (Nat × Nat)} (h : Tiles s gs) {g : Nat × Nat}
    (hg : g ∈ gs) : s ≤ g.1 ∧ g.1+g.2 ≤ s+total gs := by
  induction gs generalizing s with
  | nil => cases hg
  | cons f gs ih =>
    obtain ⟨rfl,ht⟩ := h
    rw [total_cons]
    rcases List.mem_cons.mp hg with rfl | hg
    · omega
    · have hi := ih ht hg
      omega

theorem tiles_unique {s : Nat} {gs : List (Nat × Nat)} (h : Tiles s gs) {f g : Nat × Nat}
    (hf : f ∈ gs) (hg : g ∈ gs) {b : Nat} (hb : f.1 ≤ b ∧ b < f.1+f.2)
    (hb' : g.1 ≤ b ∧ b < g.1+g.2) : f = g := by
  induction gs generalizing s with
  | nil => cases hf
  | cons e gs ih =>
    obtain ⟨rfl,ht⟩ := h
    rcases List.mem_cons.mp hf with rfl | hf'
    · rcases List.mem_cons.mp hg with rfl | hg'
      · rfl
      · have hl := tiles_bounds ht hg'
        omega
    · rcases List.mem_cons.mp hg with rfl | hg'
      · have hl := tiles_bounds ht hf'
        omega
      · exact ih ht hf' hg'

def cut (u : Nat) (data : Bytes) : Nat → List (Nat × Nat) → List Patch
  | _, [] => []
  | i, g :: gs => ⟨g.1*u,(data.drop i).take (g.2*u)⟩ :: cut u data (i+g.2*u) gs

theorem cut_shift (u : Nat) (a b : Bytes) (i : Nat) (gs : List (Nat × Nat)) :
    cut u (a ++ b) (a.length+i) gs = cut u b i gs := by
  induction gs generalizing i with
  | nil => rfl
  | cons g gs ih =>
    simp only [cut,List.drop_append,List.drop_eq_nil_of_le (Nat.le_add_right a.length i),
      List.nil_append,Nat.add_sub_cancel_left]
    rw [Nat.add_assoc,ih]

theorem cut_cons {u : Nat} {data : Bytes} {g : Nat × Nat} {gs : List (Nat × Nat)}
    (h : g.2*u ≤ data.length) :
    cut u data 0 (g :: gs) =
      ⟨g.1*u,data.take (g.2*u)⟩ :: cut u (data.drop (g.2*u)) 0 gs := by
  simp only [cut,List.drop_zero,Nat.zero_add,List.cons.injEq,true_and]
  have hl : (data.take (g.2*u)).length = g.2*u := by simp [h]
  have hc := cut_shift u (data.take (g.2*u)) (data.drop (g.2*u)) 0 gs
  rwa [List.take_append_drop,hl,Nat.add_zero] at hc

theorem cut_take {u : Nat} {data : Bytes} {i n : Nat} {gs : List (Nat × Nat)}
    (h : i+total gs*u ≤ n) : cut u (data.take n) i gs = cut u data i gs := by
  induction gs generalizing i with
  | nil => rfl
  | cons g gs ih =>
    rw [total_cons,Nat.add_mul] at h
    simp only [cut]
    rw [ih (by omega),List.drop_take,List.take_take,Nat.min_eq_left (by omega)]

theorem cut_at? {u s : Nat} {data : Bytes} {gs : List (Nat × Nat)} (ht : Tiles s gs)
    (hl : data.length = total gs*u) {w : Patch} (hw : w ∈ cut u data 0 gs) {p : Nat} {x : UInt8}
    (hx : w.at? p = some x) : (Patch.mk (s*u) data).at? p = some x := by
  induction gs generalizing s data with
  | nil => cases hw
  | cons g gs ih =>
    obtain ⟨rfl,ht⟩ := ht
    rw [total_cons,Nat.add_mul] at hl
    rw [cut_cons (by omega)] at hw
    rcases List.mem_cons.mp hw with rfl | hw
    · have hc := Patch.covers_of_at? hx
      simp only [Patch.Covers,List.length_take] at hc
      simp only [Patch.at?,if_pos hc.1] at hx ⊢
      rwa [List.getElem?_take_of_lt (by omega)] at hx
    · have hi := ih ht (by simp; omega) hw
      have hc := Patch.covers_of_at? hi
      simp only [Patch.Covers,Nat.add_mul] at hc
      simp only [Patch.at?,Nat.add_mul,if_pos hc.1,List.getElem?_drop] at hi
      simp only [Patch.at?,if_pos (show g.1*u ≤ p by omega)]
      rwa [show g.2*u+(p-(g.1*u+g.2*u)) = p-g.1*u by omega] at hi

theorem cut_covers {u s : Nat} {data : Bytes} {gs : List (Nat × Nat)} (ht : Tiles s gs)
    (hl : data.length = total gs*u) {p : Nat} (hp : (Patch.mk (s*u) data).Covers p) :
    ∃ w ∈ cut u data 0 gs, w.Covers p := by
  induction gs generalizing s data with
  | nil => simp [Patch.Covers,hl] at hp; omega
  | cons g gs ih =>
    obtain ⟨rfl,ht⟩ := ht
    rw [total_cons,Nat.add_mul] at hl
    rw [cut_cons (by omega)]
    by_cases hg : p < g.1*u+g.2*u
    · refine ⟨_,List.mem_cons_self,hp.1,?_⟩
      simp only [List.length_take]
      omega
    · have hu := hp.2
      obtain ⟨w,hw,hc⟩ := @ih _ (data.drop (g.2*u)) ht (by simp; omega)
        ⟨by simp only [Nat.add_mul]; omega,by simp only [Nat.add_mul,List.length_drop] at hu ⊢; omega⟩
      exact ⟨w,by simp [hw],hc⟩

theorem cut_apart {u s : Nat} {data : Bytes} {gs : List (Nat × Nat)} (ht : Tiles s gs)
    (hl : data.length = total gs*u) : (cut u data 0 gs).Pairwise Patch.Apart := by
  induction gs generalizing s data with
  | nil => exact List.Pairwise.nil
  | cons g gs ih =>
    obtain ⟨rfl,ht⟩ := ht
    rw [total_cons,Nat.add_mul] at hl
    rw [cut_cons (by omega)]
    have hd : (data.drop (g.2*u)).length = total gs*u := by simp; omega
    refine List.pairwise_cons.mpr ⟨fun w hw p hp hc => ?_,ih ht hd⟩
    obtain ⟨x,hx⟩ := Patch.exists_at? hc
    have hb := Patch.covers_of_at? (cut_at? ht hd hw hx)
    have hp := hp.2
    simp only [Patch.Covers,Nat.add_mul,List.length_take] at hb hp
    omega

theorem applyAll_cut {u s : Nat} {data : Bytes} {gs : List (Nat × Nat)} (ht : Tiles s gs)
    (hl : data.length = total gs*u) (d : Image) :
    Patch.applyAll d (cut u data 0 gs) = d.write (s*u) data := by
  induction gs generalizing s data d with
  | nil =>
    simp only [total_nil,Nat.zero_mul,List.length_eq_zero_iff] at hl
    simp [cut,hl]
  | cons g gs ih =>
    obtain ⟨rfl,ht⟩ := ht
    rw [total_cons,Nat.add_mul] at hl
    rw [cut_cons (by omega),Patch.applyAll_cons,ih ht (by simp; omega)]
    have ha := Image.write_append d (g.1*u) (data.take (g.2*u)) (data.drop (g.2*u))
    rw [List.take_append_drop] at ha
    rw [ha,List.length_take,Nat.min_eq_left (by omega),Nat.add_mul]
    rfl

theorem join_window {u s : Nat} {gs : List (Nat × Nat)} {f : Nat × Nat → Bytes} (ht : Tiles s gs)
    (hl : ∀ g ∈ gs, (f g).length = g.2*u) {a : Nat} (h₁ : s ≤ a) (h₂ : a < s+total gs) :
    ∃ g ∈ gs, (g.1 ≤ a ∧ a < g.1+g.2) ∧
      Bytes.window (gs.map f).flatten ((a-s)*u) u = (f g).window ((a-g.1)*u) u := by
  induction gs generalizing s with
  | nil =>
    rw [total_nil] at h₂
    omega
  | cons g gs ih =>
    obtain ⟨rfl,ht⟩ := ht
    have hg := hl g (by simp)
    rw [List.map_cons,List.flatten_cons]
    by_cases ha : a < g.1+g.2
    · refine ⟨g,by simp,⟨h₁,ha⟩,?_⟩
      have hm : (a-g.1)*u+u ≤ g.2*u := by
        rw [← Nat.succ_mul]
        exact Nat.mul_le_mul_right u (by omega)
      rw [Bytes.window,Bytes.window,List.drop_append_of_le_length (by omega),
        List.take_append_of_le_length (by simp; omega)]
    · rw [total_cons] at h₂
      obtain ⟨e,he,hin,hw⟩ := ih ht (fun e he => hl e (by simp [he])) (by omega) (by omega)
      refine ⟨e,by simp [he],hin,?_⟩
      have hm : (a-g.1)*u = g.2*u+(a-(g.1+g.2))*u := by
        rw [← Nat.add_mul]
        congr 1
        omega
      rw [← hw,Bytes.window,Bytes.window,hm,← hg,← List.drop_drop,List.drop_left]

theorem join_length {u : Nat} {gs : List (Nat × Nat)} {f : Nat × Nat → Bytes}
    (hl : ∀ g ∈ gs, (f g).length = g.2*u) : (gs.map f).flatten.length = total gs*u := by
  induction gs with
  | nil => simp
  | cons g gs ih =>
    rw [List.map_cons,List.flatten_cons,List.length_append,hl g (by simp),
      ih (fun e he => hl e (by simp [he])),total_cons,Nat.add_mul]

theorem exact_of_join_length {u : Nat} {gs : List (Nat × Nat)} {f : Nat × Nat → Bytes}
    (hl : ∀ g ∈ gs, g.2*u ≤ (f g).length) (h : (gs.map f).flatten.length ≤ total gs*u)
    {g : Nat × Nat} (hg : g ∈ gs) : (f g).length = g.2*u := by
  have hle : ∀ es : List (Nat × Nat), (∀ e ∈ es, e.2*u ≤ (f e).length) →
      total es*u ≤ (es.map f).flatten.length := by
    intro es hes
    induction es with
    | nil => simp
    | cons e es ih =>
      have ih := ih (fun d hd => hes d (by simp [hd]))
      have he := hes e (by simp)
      rw [List.map_cons,List.flatten_cons,List.length_append,total_cons,Nat.add_mul]
      omega
  induction gs with
  | nil => cases hg
  | cons e gs ih =>
    have hgs := hle gs (fun d hd => hl d (by simp [hd]))
    have he := hl e (by simp)
    rw [List.map_cons,List.flatten_cons,List.length_append,total_cons,Nat.add_mul] at h
    rcases List.mem_cons.mp hg with rfl | hg
    · omega
    · exact ih (fun d hd => hl d (by simp [hd])) (by omega) hg

end Tiling
