import IscsiFuse.Iscsi.Command
set_option autoImplicit false

namespace IscsiFuse.Iscsi

/-- Offset and length of the two fields: the first block and the number of blocks. -/
structure CdbLayout where
  lba : Nat × Nat
  blockCount : Nat × Nat
  deriving DecidableEq

namespace CdbLayout

/-- READ(10) and WRITE(10). -/
def ten : CdbLayout := ⟨(2,4),(7,2)⟩

/-- READ(16) and WRITE(16). -/
def sixteen : CdbLayout := ⟨(2,8),(10,4)⟩

def ofOpcode (op : UInt8) : Option CdbLayout :=
  if op = 0x28 ∨ op = 0x2A then some ten
  else if op = 0x88 ∨ op = 0x8A then some sixteen
  else none

def decode (l : CdbLayout) (cdb : Bytes) : Nat × Nat :=
  (Bytes.ofBe (cdb.window l.lba.1 l.lba.2),Bytes.ofBe (cdb.window l.blockCount.1 l.blockCount.2))

def Uses (l : CdbLayout) (i : Nat) : Prop :=
  i = 0 ∨ (l.lba.1 ≤ i ∧ i < l.lba.1+l.lba.2) ∨
    (l.blockCount.1 ≤ i ∧ i < l.blockCount.1+l.blockCount.2)

/-- The CDB asks for `n` blocks from `lba` on, and for nothing else. -/
structure Encodes (l : CdbLayout) (lba n : Nat) (cdb : Bytes) : Prop where
  opcode : ofOpcode (cdb.getD 0 0) = some l
  range : l.decode cdb = (lba,n)
  zero : ∀ i, ¬ l.Uses i → cdb.getD i 0 = 0

def Apart (l : CdbLayout) : Prop := l.lba.1 = 2 ∧ l.lba.1+l.lba.2 ≤ l.blockCount.1

instance (l : CdbLayout) : Decidable l.Apart := inferInstanceAs (Decidable (_ ∧ _))

def place (l : CdbLayout) (op : UInt8) (lba n : Nat) : Bytes :=
  [op,0] ++ Bytes.toBe l.lba.2 lba ++ List.replicate (l.blockCount.1-(l.lba.1+l.lba.2)) 0 ++
    Bytes.toBe l.blockCount.2 n ++ List.replicate (16-(l.blockCount.1+l.blockCount.2)) 0

variable {l : CdbLayout} {op : UInt8} {lba n : Nat}

theorem decode_place (op : UInt8) (h : l.Apart) (hl : lba < 256^l.lba.2)
    (hn : n < 256^l.blockCount.2) : l.decode (l.place op lba n) = (lba,n) := by
  obtain ⟨h2,hle⟩ := h
  have hlba : (l.place op lba n).window l.lba.1 l.lba.2 = Bytes.toBe l.lba.2 lba := by
    simp only [place,List.append_assoc]
    exact Bytes.window_append (a := [op,0]) h2.symm (by simp)
  have hcount : (l.place op lba n).window l.blockCount.1 l.blockCount.2 =
      Bytes.toBe l.blockCount.2 n := by
    rw [place,List.append_assoc]
    exact Bytes.window_append (by simp; omega) (by simp)
  rw [decode,hlba,hcount,Bytes.ofBe_toBe,Bytes.ofBe_toBe,Nat.mod_eq_of_lt hl,Nat.mod_eq_of_lt hn]

theorem place_opcode (l : CdbLayout) (op : UInt8) (lba n : Nat) :
    (l.place op lba n).getD 0 0 = op := rfl

theorem place_encodes (ho : ofOpcode op = some l) (h : l.Apart) (hl : lba < 256^l.lba.2)
    (hn : n < 256^l.blockCount.2) : l.Encodes lba n (l.place op lba n) where
  opcode := ho
  range := decode_place op h hl hn
  zero := by
    intro i hi
    obtain ⟨h2,hle⟩ := h
    simp only [Uses,not_or,not_and,not_lt] at hi
    obtain ⟨hi₀,hi₁,hi₂⟩ := hi
    rw [List.getD_eq_getElem?_getD,place]
    simp only [List.getElem?_append,List.length_append,Bytes.toBe_length,List.length_replicate,
      List.length_cons,List.length_nil,List.getElem?_replicate]
    -- Only the first byte and the two fields hold anything, and `i` is in none of them.
    split_ifs
    · obtain rfl : i = 1 := by omega
      rfl
    · omega
    · rfl
    · rfl
    · omega
    · rfl
    · rfl

end CdbLayout

open CdbLayout

section

variable {lba n : Nat}

theorem cdb10_place (op : UInt8) (lba n : Nat) : (cdb10 op lba n).bytes = ten.place op lba n := rfl

theorem cdb16_place (op : UInt8) (lba n : Nat) :
    (cdb16 op lba n).bytes = sixteen.place op lba n := by
  simp [cdb16,place,sixteen]

def blockRange (short long : UInt8) (cdb : Bytes) : Option (Nat × Nat) :=
  if cdb.getD 0 0 = short then some (ten.decode cdb)
  else if cdb.getD 0 0 = long then some (sixteen.decode cdb)
  else none

theorem blockRange_select {short long : UInt8} (hne : short ≠ long) (hl : lba < 2^64)
    (hn : n < 2^32) : blockRange short long (if lba ≤ 2^32-1 ∧ n ≤ 2^16-1 then cdb10 short lba n
      else cdb16 long lba n).bytes = some (lba,n) := by
  split
  · rename_i h
    rw [cdb10_place,blockRange,place_opcode,if_pos rfl]
    exact congrArg some (decode_place short (by decide) (show lba < 2^32 by omega)
      (show n < 2^16 by omega))
  · rw [cdb16_place,blockRange,place_opcode,if_neg hne.symm,if_pos rfl]
    exact congrArg some (decode_place long (by decide) hl hn)

end

/-- `build_read` and `build_write` lay out the same range in the same way, and only their opcodes
differ; the short form is taken exactly when it has room. -/
theorem cdb_selection {lba n : Nat} (hl : lba < 2^64) (hn : n < 2^32) :
    ∃ l : CdbLayout, (l = if lba < 2^32 ∧ n < 2^16 then ten else sixteen) ∧
      l.Encodes lba n (buildRead lba n).bytes ∧ l.Encodes lba n (buildWrite lba n).bytes ∧
      (buildRead lba n).bytes.getD 0 0 = (if l = ten then 0x28 else 0x88) ∧
      (buildWrite lba n).bytes.getD 0 0 = (if l = ten then 0x2A else 0x8A) ∧
      (buildRead lba n).bytes.tail = (buildWrite lba n).bytes.tail := by
  by_cases h : lba < 2^32 ∧ n < 2^16
  · have hle : lba ≤ 2^32-1 ∧ n ≤ 2^16-1 := by omega
    rw [buildRead,buildWrite,if_pos hle,if_pos hle,if_pos h]
    exact ⟨ten,rfl,place_encodes rfl (by decide) h.1 h.2,place_encodes rfl (by decide) h.1 h.2,
      rfl,rfl,rfl⟩
  · have hgt : ¬ (lba ≤ 2^32-1 ∧ n ≤ 2^16-1) := by omega
    rw [buildRead,buildWrite,if_neg hgt,if_neg hgt,if_neg h]
    rw [buildRead16,buildWrite16,cdb16_place,cdb16_place]
    exact ⟨sixteen,rfl,place_encodes rfl (by decide) hl hn,place_encodes rfl (by decide) hl hn,
      rfl,rfl,rfl⟩

/-- One block more than fits into the short form. -/
theorem cdb_selection_long :
    ∃ l : CdbLayout, (l = if 5 < 2^32 ∧ 65536 < 2^16 then ten else sixteen) ∧
      l.Encodes 5 65536 (buildRead 5 65536).bytes ∧ l.Encodes 5 65536 (buildWrite 5 65536).bytes ∧
      (buildRead 5 65536).bytes.getD 0 0 = (if l = ten then 0x28 else 0x88) ∧
      (buildWrite 5 65536).bytes.getD 0 0 = (if l = ten then 0x2A else 0x8A) ∧
      (buildRead 5 65536).bytes.tail = (buildWrite 5 65536).bytes.tail :=
  cdb_selection (by decide) (by decide)

end IscsiFuse.Iscsi
