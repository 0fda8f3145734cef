import Mathlib.Data.List.TakeWhile
import IscsiFuse.Iscsi.OperationalText
set_option autoImplicit false

namespace IscsiFuse.Iscsi

/-- An entry of a text, without the NUL that closes it. -/
inductive TextEntry where
  | pair (key value : String)
  | other (text : String)

namespace TextEntry

/-- A key ends at the first separator and an entry at the first NUL; any other entry has no
separator, and it may be empty. -/
def Fits : TextEntry → Prop
  | pair key value => '=' ∉ key.toList ∧ '\x00' ∉ key.toList ∧ '\x00' ∉ value.toList
  | other text => '=' ∉ text.toList ∧ '\x00' ∉ text.toList

def text : TextEntry → String
  | pair key value => key ++ "=" ++ value
  | other text => text

def pair? : TextEntry → Option (String × String)
  | pair key value => some (key,value)
  | other _ => none

end TextEntry

/-- The text of the entries, each closed by NUL. -/
def keyValueText (es : List TextEntry) : String := String.join (es.map (fun e => e.text ++ "\x00"))

def utf8Pair (kv : String × String) : Bytes × Bytes := (utf8 kv.1,utf8 kv.2)

theorem utf8_separator {s : String} : 0x3D ∈ utf8 s ↔ '=' ∈ s.toList :=
  Text.mem_toUTF8 (c := '=') (by decide)

theorem utf8_nul {s : String} : 0 ∈ utf8 s ↔ '\x00' ∈ s.toList :=
  Text.mem_toUTF8 (c := '\x00') (by decide)

theorem utf8_keyValueText (es : List TextEntry) :
    utf8 (keyValueText es) = Text.terminated 0 (es.map (fun e => utf8 e.text)) := by
  rw [keyValueText,String.join,utf8_foldl_append,Text.terminated,List.flatMap_map,List.flatMap_map]
  refine congrArg _ (List.flatMap_congr (fun e _ => ?_))
  exact utf8_append _ _

namespace TextEntry

variable {e : TextEntry}

theorem Fits.framed {key value : String} (h : (pair key value).Fits) :
    Framed (utf8Pair (key,value)) where
  key_nul := fun hm => h.2.1 (utf8_nul.mp hm)
  key_separator := fun hm => h.1 (utf8_separator.mp hm)
  value_nul := fun hm => h.2.2 (utf8_nul.mp hm)

theorem utf8_pair (key value : String) :
    utf8 (pair key value).text = utf8 key ++ 0x3D :: utf8 value := by
  rw [text,utf8_append,utf8_append,List.append_assoc]
  rfl

theorem Fits.nul (h : e.Fits) : 0 ∉ utf8 e.text := by
  cases e with
  | pair key value =>
    rw [utf8_pair]
    exact h.framed.nul
  | other text => exact fun hm => h.2 (utf8_nul.mp hm)

theorem Fits.splits (h : e.Fits) :
    (if utf8 e.text = [] then none else splitOnce 0x3D (utf8 e.text)) = e.pair?.map utf8Pair := by
  cases e with
  | pair key value =>
    have hne : utf8 key ++ 0x3D :: utf8 value ≠ [] :=
      List.append_ne_nil_of_right_ne_nil _ (List.cons_ne_nil _ _)
    rw [utf8_pair,if_neg hne]
    exact splitOnce_framed h.framed
  | other text =>
    have hsep : ∀ b ∈ utf8 text, decide (b ≠ 0x3D) = true :=
      fun b hb => decide_eq_true (fun he => h.1 (utf8_separator.mp (he ▸ hb)))
    simp only [TextEntry.text,splitOnce,List.dropWhile_eq_nil_iff.mpr hsep,ite_self]
    rfl

end TextEntry

section

variable {es : List TextEntry}

theorem splits_entries (h : ∀ e ∈ es, e.Fits) :
    (es.map (fun e => utf8 e.text)).filterMap
        (fun entry => if entry = [] then none else splitOnce 0x3D entry) =
      (es.filterMap TextEntry.pair?).map utf8Pair := by
  rw [List.filterMap_map,List.map_filterMap]
  exact List.filterMap_congr (fun e he => (h e he).splits)

theorem nul_not_mem (h : ∀ e ∈ es, e.Fits) : ∀ c ∈ es.map (fun e => utf8 e.text), 0 ∉ c := by
  intro c hc
  obtain ⟨e,he,rfl⟩ := List.mem_map.mp hc
  exact (h e he).nul

theorem parseKvPairs_text (h : ∀ e ∈ es, e.Fits) :
    parseKvPairs (utf8 (keyValueText es)) = (es.filterMap TextEntry.pair?).map utf8Pair := by
  rw [parseKvPairs,if_pos (isUtf8_utf8 _),utf8_keyValueText]
  rw [← List.append_nil (Text.terminated 0 _),Text.splitOn_terminated (nul_not_mem h),
    List.filterMap_append,splits_entries h]
  simp

theorem dropLast_text (es : List TextEntry) (e : TextEntry) :
    (utf8 (keyValueText (es ++ [e]))).dropLast = utf8 (keyValueText es ++ e.text) := by
  rw [utf8_append,utf8_keyValueText,utf8_keyValueText,List.map_append,List.map_singleton,
    Text.terminated_snoc,List.dropLast_concat]

theorem parseKvPairs_dropLast (h : ∀ e ∈ es, e.Fits) :
    parseKvPairs (utf8 (keyValueText es)).dropLast = (es.filterMap TextEntry.pair?).map utf8Pair := by
  rcases List.eq_nil_or_concat' es with rfl | ⟨fs,e,rfl⟩
  · rfl
  · have hu : isUtf8 (utf8 (keyValueText (fs ++ [e]))).dropLast = true := by
      rw [dropLast_text]
      exact isUtf8_utf8 _
    rw [parseKvPairs,if_pos hu,utf8_keyValueText,
      Text.splitOn_dropLast (nul_not_mem h) (by simp),splits_entries h]

end

/-- The pairs of a text come back in order, whatever entries stand between them and whether or not
the last entry is closed. -/
theorem parseKvPairs_inverts {ps : List (String × String)} {es : List TextEntry}
    (hp : es.filterMap TextEntry.pair? = ps) (h : ∀ e ∈ es, e.Fits) :
    parseKvPairs (utf8 (keyValueText es)) = ps.map utf8Pair ∧
      parseKvPairs (utf8 (keyValueText es)).dropLast = ps.map utf8Pair := by
  subst hp
  exact ⟨parseKvPairs_text h,parseKvPairs_dropLast h⟩

theorem parseKvPairs_inverts_mixed :
    parseKvPairs (utf8 (keyValueText [.other "",.pair "A" "1=2",.other "junk",.pair "B" ""])) =
        [("A","1=2"),("B","")].map utf8Pair ∧
      parseKvPairs (utf8 (keyValueText
        [.other "",.pair "A" "1=2",.other "junk",.pair "B" ""])).dropLast =
        [("A","1=2"),("B","")].map utf8Pair := by
  refine parseKvPairs_inverts rfl (fun e he => ?_)
  simp only [List.mem_cons,List.not_mem_nil,or_false] at he
  rcases he with rfl | rfl | rfl | rfl <;> simp [TextEntry.Fits]

end IscsiFuse.Iscsi
