import Mathlib.Data.List.Basic
import Mathlib.Data.UInt
set_option autoImplicit false

namespace Text

section Separator

variable {α : Type*} {sep : α}

def terminated (sep : α) (cs : List (List α)) : List α := cs.flatMap (· ++ [sep])

theorem terminated_snoc (sep : α) (cs : List (List α)) (c : List α) :
    terminated sep (cs ++ [c]) = terminated sep cs ++ c ++ [sep] := by
  simp [terminated]

variable [DecidableEq α]

theorem splitOn_terminated {cs : List (List α)} (h : ∀ c ∈ cs, sep ∉ c) (last : List α) :
    (terminated sep cs ++ last).splitOn sep = cs ++ last.splitOn sep := by
  induction cs with
  | nil => rfl
  | cons c cs ih =>
    have hc := h c List.mem_cons_self
    rw [terminated,List.flatMap_cons,List.append_assoc,List.append_assoc,List.singleton_append,
      List.splitOn_append_cons_self_of_not_mem hc,← terminated,
      ih (fun x hx => h x (List.mem_cons_of_mem c hx)),List.cons_append]

theorem splitOn_dropLast {cs : List (List α)} (h : ∀ c ∈ cs, sep ∉ c) (hne : cs ≠ []) :
    (terminated sep cs).dropLast.splitOn sep = cs := by
  obtain ⟨ds,c,rfl⟩ := List.eq_nil_or_concat' cs |>.resolve_left hne
  have hds : ∀ d ∈ ds, sep ∉ d := fun d hd => h d (List.mem_append_left [c] hd)
  rw [terminated_snoc,List.dropLast_concat,splitOn_terminated hds,
    List.splitOn_eq_singleton (h c (by simp))]

end Separator

theorem ofNat_high {x : UInt8} {m : Nat} (hx : x.toNat < 128) (h₁ : 128 ≤ m) (h₂ : m < 256) :
    x ≠ UInt8.ofNat m := by
  intro he
  rw [he,UInt8.toNat_ofNat',Nat.mod_eq_of_lt h₂] at hx
  omega

theorem mem_utf8EncodeChar {x : UInt8} {c : Char} (hx : x.toNat < 128) :
    x ∈ String.utf8EncodeChar c ↔ c.toNat = x.toNat := by
  have hx' : x = UInt8.ofNat x.toNat := (UInt8.ofNat_toNat).symm
  have hc : c.toNat = c.val.toNat := rfl
  have hno : ∀ m, 128 ≤ m → m < 256 → x ≠ UInt8.ofNat m := fun m => ofNat_high hx
  unfold String.utf8EncodeChar
  simp only
  split
  · rename_i hle
    rw [List.mem_singleton,hc]
    constructor
    · intro he
      rw [he,UInt8.toNat_ofNat',Nat.mod_eq_of_lt (by omega)]
    · intro he
      rw [he]
      exact hx'
  · refine ⟨fun hm => absurd hm ?_,fun he => by omega⟩
    split
    · simp only [List.mem_cons,List.not_mem_nil,or_false,not_or]
      exact ⟨hno _ (by omega) (by omega),hno _ (by omega) (by omega)⟩
    · split
      · simp only [List.mem_cons,List.not_mem_nil,or_false,not_or]
        exact ⟨hno _ (by omega) (by omega),hno _ (by omega) (by omega),hno _ (by omega) (by omega)⟩
      · simp only [List.mem_cons,List.not_mem_nil,or_false,not_or]
        exact ⟨hno _ (by omega) (by omega),hno _ (by omega) (by omega),hno _ (by omega) (by omega),
          hno _ (by omega) (by omega)⟩

theorem mem_toUTF8 {s : String} {c : Char} (hc : c.toNat < 128) :
    UInt8.ofNat c.toNat ∈ s.toUTF8.data.toList ↔ c ∈ s.toList := by
  have hs : s.toUTF8.data.toList = s.toList.flatMap String.utf8EncodeChar := by
    rw [String.toUTF8_eq_toByteArray,← String.utf8Encode_toList,List.utf8Encode]
    simp
  have hx : (UInt8.ofNat c.toNat).toNat = c.toNat := by
    rw [UInt8.toNat_ofNat',Nat.mod_eq_of_lt (by omega)]
  simp only [hs,List.mem_flatMap,mem_utf8EncodeChar (hx.symm ▸ hc),hx]
  constructor
  · intro ⟨d,hd,he⟩
    rwa [← Char.toNat_inj.mp he]
  · intro h
    exact ⟨c,h,rfl⟩

end Text
