import Mathlib.Data.List.Basic
import Mathlib.Data.List.Range
import Mathlib.Data.List.Perm.Basic
set_option autoImplicit false

/-!
Flat byte images and the patches written to them. An image gives a byte to each
position; a patch is a run of bytes at an offset. Lists of patches that agree
wherever they meet have one result in every order.
-/

abbrev Bytes := List UInt8

abbrev Image := Nat → UInt8

namespace Image

/-- The `n` bytes of the image from position `off` on. -/
def read (d : Image) (off n : Nat) : Bytes := (List.range' off n).map d

def write (d : Image) (off : Nat) (b : Bytes) : Image := fun p =>
  if off ≤ p then (b[p-off]?).getD (d p) else d p

@[simp] theorem read_length (d : Image) (off n : Nat) : (d.read off n).length = n := by
  simp [read]

theorem getElem?_read (d : Image) (off n i : Nat) :
    (d.read off n)[i]? = if i < n then some (d (off+i)) else none := by
  simp only [read,List.getElem?_map]
  split
  · rename_i h
    simp [List.getElem?_range' h]
  · rename_i h
    rw [List.getElem?_eq_none (by simpa using h)]
    rfl

theorem read_append (d : Image) (off m n : Nat) :
    d.read off (m+n) = d.read off m ++ d.read (off+m) n := by
  simp [read,← List.range'_append_1]

theorem read_window (d : Image) {off n i m : Nat} (h : i+m ≤ n) :
    ((d.read off n).drop i).take m = d.read (off+i) m := by
  apply List.ext_getElem?
  intro k
  rw [List.getElem?_take,getElem?_read]
  split
  · rename_i hk
    rw [List.getElem?_drop,getElem?_read,if_pos (by omega),Nat.add_assoc]
  · rfl

theorem read_congr {d e : Image} {off n : Nat} (h : ∀ p, off ≤ p → p < off+n → d p = e p) :
    d.read off n = e.read off n := by
  apply List.ext_getElem?
  intro k
  rw [getElem?_read,getElem?_read]
  split
  · rename_i hk
    rw [h (off+k) (by omega) (by omega)]
  · rfl

theorem eq_of_read_eq {d e : Image} {off n p : Nat} (h : d.read off n = e.read off n)
    (hl : off ≤ p) (hu : p < off+n) : d p = e p := by
  have hk := congrArg (·[p-off]?) h
  simp only [getElem?_read] at hk
  rw [if_pos (by omega),if_pos (by omega),Nat.add_sub_cancel' hl] at hk
  exact Option.some.inj hk

@[simp] theorem write_nil (d : Image) (off : Nat) : d.write off [] = d := by
  funext p
  simp [write]

theorem write_append (d : Image) (off : Nat) (a b : Bytes) :
    d.write off (a ++ b) = (d.write off a).write (off+a.length) b := by
  funext p
  unfold write
  by_cases hp : off ≤ p
  · by_cases ha : p-off < a.length
    · rw [if_pos hp,if_neg (by omega),if_pos hp,List.getElem?_append_left ha]
    · rw [if_pos hp,if_pos (by omega),if_pos hp,List.getElem?_append_right (by omega),
        List.getElem?_eq_none (l := a) (by omega)]
      simp only [Option.getD_none]
      rw [show p-off-a.length = p-(off+a.length) by omega]
  · rw [if_neg hp,if_neg (by omega),if_neg hp]

end Image

/-- Bytes to be placed at an offset of an image. -/
structure Patch where
  off : Nat
  data : Bytes
  deriving DecidableEq, Repr

namespace Patch

def Covers (w : Patch) (p : Nat) : Prop := w.off ≤ p ∧ p < w.off+w.data.length

instance (w : Patch) (p : Nat) : Decidable (w.Covers p) := inferInstanceAs (Decidable (_ ∧ _))

/-- The byte the patch gives to a position, if it covers it. -/
def at? (w : Patch) (p : Nat) : Option UInt8 := if w.off ≤ p then w.data[p-w.off]? else none

def Apart (v w : Patch) : Prop := ∀ p, v.Covers p → ¬ w.Covers p

theorem Apart.symm {v w : Patch} (h : v.Apart w) : w.Apart v := fun p hw hv => h p hv hw

theorem at?_eq_none {w : Patch} {p : Nat} : w.at? p = none ↔ ¬ w.Covers p := by
  unfold at? Covers
  split
  · rename_i h
    rw [List.getElem?_eq_none_iff]
    omega
  · rename_i h
    simp [h]

theorem covers_of_at? {w : Patch} {p : Nat} {x : UInt8} (h : w.at? p = some x) : w.Covers p := by
  by_contra hc
  rw [at?_eq_none.mpr hc] at h
  cases h

theorem exists_at? {w : Patch} {p : Nat} (h : w.Covers p) : ∃ x, w.at? p = some x := by
  cases hx : w.at? p with
  | none => exact absurd h (at?_eq_none.mp hx)
  | some x => exact ⟨x,rfl⟩

def apply (d : Image) (w : Patch) : Image := d.write w.off w.data

theorem apply_eq (d : Image) (w : Patch) (p : Nat) : w.apply d p = (w.at? p).getD (d p) := by
  unfold apply Image.write at?
  split <;> rfl

theorem apply_outside {d : Image} {w : Patch} {p : Nat} (h : ¬ w.Covers p) : w.apply d p = d p := by
  rw [apply_eq,at?_eq_none.mpr h]
  rfl

theorem apply_inside {d : Image} {w : Patch} {p : Nat} {x : UInt8} (h : w.at? p = some x) :
    w.apply d p = x := by
  rw [apply_eq,h]
  rfl

theorem apply_comm {d : Image} {v w : Patch} (h : v.Apart w) :
    w.apply (v.apply d) = v.apply (w.apply d) := by
  funext p
  by_cases hv : v.Covers p
  · obtain ⟨x,hx⟩ := exists_at? hv
    rw [apply_outside (h p hv),apply_inside hx,apply_inside hx]
  · rw [apply_eq,apply_outside hv,apply_outside hv,apply_eq]

/-- Apply patches first to last. -/
def applyAll (d : Image) (ws : List Patch) : Image := ws.foldl apply d

@[simp] theorem applyAll_nil (d : Image) : applyAll d [] = d := rfl

@[simp] theorem applyAll_cons (d : Image) (w : Patch) (ws : List Patch) :
    applyAll d (w :: ws) = applyAll (w.apply d) ws := rfl

theorem applyAll_append (d : Image) (vs ws : List Patch) :
    applyAll d (vs ++ ws) = applyAll (applyAll d vs) ws := by
  simp [applyAll]

theorem applyAll_outside {d : Image} {ws : List Patch} {p : Nat}
    (h : ∀ w ∈ ws, ¬ w.Covers p) : applyAll d ws p = d p := by
  induction ws generalizing d with
  | nil => rfl
  | cons w ws ih =>
    rw [applyAll_cons,ih (fun v hv => h v (by simp [hv]))]
    exact apply_outside (h w (by simp))

/-- If some patch covers a position and all that do give it the same byte, that
byte is the result, in whatever order they are applied. -/
theorem applyAll_agree {d : Image} {ws : List Patch} {p : Nat} {x : UInt8}
    (hex : ∃ w ∈ ws, w.Covers p) (hag : ∀ w ∈ ws, w.Covers p → w.at? p = some x) :
    applyAll d ws p = x := by
  induction ws generalizing d with
  | nil => simp at hex
  | cons w ws ih =>
    rw [applyAll_cons]
    have hag' : ∀ v ∈ ws, v.Covers p → v.at? p = some x := fun v hv => hag v (by simp [hv])
    by_cases hr : ∃ v ∈ ws, v.Covers p
    · exact ih hr hag'
    · have hw : w.Covers p := by
        obtain ⟨v,hv,hc⟩ := hex
        rcases List.mem_cons.mp hv with rfl | hv
        · exact hc
        · exact absurd ⟨v,hv,hc⟩ hr
      rw [applyAll_outside (fun v hv hc => hr ⟨v,hv,hc⟩)]
      exact apply_inside (hag w (by simp) hw)

theorem applyAll_last {d : Image} {vs ws : List Patch} {w : Patch} {p : Nat} {x : UInt8}
    (hw : w.at? p = some x) (hws : ∀ v ∈ ws, ¬ v.Covers p) :
    applyAll d (vs ++ w :: ws) p = x := by
  rw [applyAll_append,applyAll_cons,applyAll_outside hws]
  exact apply_inside hw

def lastAt? (ws : List Patch) (p : Nat) : Option UInt8 :=
  ws.foldl (fun a w => (w.at? p).or a) none

@[simp] theorem lastAt?_nil (p : Nat) : lastAt? [] p = none := rfl

theorem lastAt?_snoc (ws : List Patch) (w : Patch) (p : Nat) :
    lastAt? (ws ++ [w]) p = (w.at? p).or (lastAt? ws p) := by
  simp [lastAt?]

theorem applyAll_lastAt? (d : Image) (ws : List Patch) (p : Nat) :
    applyAll d ws p = (lastAt? ws p).getD (d p) := by
  induction ws using List.reverseRecOn with
  | nil => rfl
  | append_singleton ws w ih =>
    rw [applyAll_append,lastAt?_snoc,applyAll_cons,applyAll_nil,apply_eq,ih]
    cases w.at? p <;> rfl

theorem lastAt?_eq_none {ws : List Patch} {p : Nat} :
    lastAt? ws p = none ↔ ∀ w ∈ ws, ¬ w.Covers p := by
  induction ws using List.reverseRecOn with
  | nil => simp
  | append_singleton ws w ih =>
    rw [lastAt?_snoc,Option.or_eq_none_iff,at?_eq_none,ih]
    simp only [List.mem_append,List.mem_singleton]
    constructor
    · intro ⟨hw,h⟩ v hv
      rcases hv with hv | rfl
      · exact h v hv
      · exact hw
    · intro h
      exact ⟨h w (Or.inr rfl),fun v hv => h v (Or.inl hv)⟩

theorem lastAt?_mem {ws : List Patch} {p : Nat} {x : UInt8} (h : lastAt? ws p = some x) :
    ∃ w ∈ ws, w.at? p = some x := by
  induction ws using List.reverseRecOn with
  | nil => cases h
  | append_singleton ws w ih =>
    rw [lastAt?_snoc] at h
    cases hw : w.at? p with
    | none =>
      rw [hw,Option.none_or] at h
      obtain ⟨u,hu,hx⟩ := ih h
      exact ⟨u,by simp [hu],hx⟩
    | some y =>
      rw [hw,Option.some_or] at h
      exact ⟨w,by simp,by rw [hw,h]⟩

theorem apart_of_mem {ws : List Patch} (h : ws.Pairwise Apart) {v w : Patch} (hv : v ∈ ws)
    (hw : w ∈ ws) (hne : v ≠ w) : v.Apart w := by
  have : Std.Symm Apart := ⟨fun _ _ h => h.symm⟩
  exact h.forall hv hw hne

theorem applyAll_perm {vs ws : List Patch} (hp : vs.Perm ws) (hd : vs.Pairwise Apart)
    (d : Image) : applyAll d vs = applyAll d ws := by
  induction hp generalizing d with
  | nil => rfl
  | cons w _ ih => exact ih (List.pairwise_cons.mp hd).2 (w.apply d)
  | swap v w us =>
    obtain ⟨hw,_⟩ := List.pairwise_cons.mp hd
    rw [applyAll_cons,applyAll_cons,applyAll_cons,applyAll_cons,apply_comm (hw v (by simp))]
  | trans h₁ _ ih₁ ih₂ =>
    exact (ih₁ hd d).trans (ih₂ (h₁.pairwise hd (fun h => h.symm)) d)

end Patch
