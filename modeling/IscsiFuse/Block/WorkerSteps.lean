import IscsiFuse.Block.Worker
set_option autoImplicit false

/-! What each operation of the worker can do, said once. Invariants are derived
from these and never unfold the operations. -/

namespace IscsiFuse.Block
open IscsiFuse.Iscsi

theorem chunkBlocks_bounds {v : Device} (h : 1 ≤ v.blockSize ∧ v.blockSize ≤ 65536) :
    1 ≤ v.chunkBlocks ∧ v.chunkBlocks ≤ 65536 := by
  have hle : 64*1024/v.blockSize ≤ 65536 := Nat.div_le_self _ _
  rw [Device.chunkBlocks,Nat.mod_eq_of_lt (by omega)]
  exact ⟨(Nat.one_le_div_iff h.1).mpr h.2,hle⟩

theorem chunkLba_bounds {v : Device} {lba c : Nat} (h : v.chunkLba lba = some c) :
    0 < v.chunkBlocks ∧ v.chunkBlocks ∣ c ∧ c ≤ lba ∧ lba < c+v.chunkBlocks := by
  unfold Device.chunkLba at h
  split at h
  · cases h
  · rename_i hc
    cases h
    have hd := Nat.div_add_mod lba v.chunkBlocks
    have hm := Nat.mod_lt lba (Nat.pos_of_ne_zero hc)
    rw [Nat.mul_comm] at hd
    exact ⟨Nat.pos_of_ne_zero hc,Nat.dvd_mul_left _ _,by omega,by omega⟩

theorem next_chunk_le {a b c : Nat} (ha : c ∣ a) (hb : c ∣ b) (h : a < b) : a+c ≤ b := by
  obtain ⟨x,rfl⟩ := ha
  obtain ⟨y,rfl⟩ := hb
  have hxy : x+1 ≤ y := Nat.lt_of_mul_lt_mul_left h
  have hm := Nat.mul_le_mul_left c hxy
  rwa [Nat.mul_add,Nat.mul_one] at hm

theorem le_of_last_lt {v : Device} {lba n clba last : Nat} (hl : v.chunkLba (lba+n-1) = some last)
    (hd : v.chunkBlocks ∣ clba) (h : last < clba) : lba+n ≤ clba := by
  obtain ⟨_,hdl,_,hlt⟩ := chunkLba_bounds hl
  have hnext := next_chunk_le hdl hd h
  omega

theorem last_lt_iff {v : Device} {lba n clba last : Nat} (hn : 0 < n)
    (hl : v.chunkLba (lba+n-1) = some last) (hd : v.chunkBlocks ∣ clba) :
    last < clba ↔ lba+n ≤ clba := by
  obtain ⟨_,_,hle,_⟩ := chunkLba_bounds hl
  exact ⟨le_of_last_lt hl hd,fun h => by omega⟩

structure SameStore (s t : Worker) : Prop where
  inner : t.inner = s.inner
  fetches : t.fetches = s.fetches
  disk : t.disk = s.disk

theorem SameStore.refl (s : Worker) : SameStore s s := ⟨rfl,rfl,rfl⟩

namespace Worker

variable {v : Device} {s t : Worker}

@[simp] theorem answer_phase (s : Worker) (e : Event) : (s.answer e).phase = .idle := rfl

@[simp] theorem answer_log (s : Worker) (e : Event) : (s.answer e).log = s.log ++ [e] := rfl

theorem flushDone_sameStore (s : Worker) (r : Reply Unit) (k : Caller) :
    SameStore s (s.flushDone r k) := by cases k <;> exact ⟨rfl,rfl,rfl⟩

theorem startFlush_cases {k : Caller} (h : s.startFlush v k = some t) :
    (s.dirty.entries.entries = [] ∧ t = s.flushDone (.ok ()) k) ∨
    (s.dirty.entries.entries ≠ [] ∧
      ∃ cmds, s.dirty.drainSorted.1.mapM (fun e => v.pipeline.writeCommands e.1 e.2) = some cmds ∧
      t = { s with dirty := .new,
                   phase := .flushing k s.dirty.drainSorted.1
                     (cmds.flatten.map (fun c => ⟨c,.pending⟩)) }) := by
  unfold startFlush at h
  split at h
  · rename_i he
    cases h
    exact Or.inl ⟨(DirtyMap.isEmpty_iff _).mp he,rfl⟩
  · rename_i he
    simp only [Option.bind_eq_bind,Option.bind_eq_some_iff] at h
    obtain ⟨cmds,hc,h⟩ := h
    cases h
    exact Or.inr ⟨fun hn => he ((DirtyMap.isEmpty_iff _).mpr hn),cmds,hc,rfl⟩

theorem startFlush_sameStore {k : Caller} (h : s.startFlush v k = some t) : SameStore s t := by
  rcases startFlush_cases h with ⟨_,rfl⟩ | ⟨_,_,_,rfl⟩
  · exact flushDone_sameStore _ _ _
  · exact ⟨rfl,rfl,rfl⟩

theorem awaitWrites_good {k : Caller} {dr : List (Nat × Bytes)} {cmds : List FlushCmd}
    (h : ∀ c ∈ cmds, c.status = .good) : s.awaitWrites k dr cmds =
      some { s with phase := .syncing k dr, log := s.log ++ [.syncIssued] } := by
  have hf : cmds.find? (fun c => c.status ≠ .good) = none := by
    rw [List.find?_eq_none]
    intro c hc
    simp [h c hc]
  rw [awaitWrites,hf]

theorem awaitWrites_cases {k : Caller} {dr : List (Nat × Bytes)} {cmds : List FlushCmd}
    (h : s.awaitWrites k dr cmds = some t) :
    ((∀ c ∈ cmds, c.status = .good) ∧
      t = { s with phase := .syncing k dr, log := s.log ++ [.syncIssued] }) ∨
    (∃ c ∈ cmds, ∃ b, c.status = .failed b ∧ ∃ left err,
      t = { s with stray := left }.flushDone (.err err) k) := by
  unfold awaitWrites at h
  split at h
  · rename_i hf
    cases h
    exact Or.inl ⟨fun c hc => by simpa using List.find?_eq_none.mp hf c hc,rfl⟩
  · rename_i c hf
    split at h
    · rename_i b hb
      cases h
      exact Or.inr ⟨c,List.mem_of_find?_eq_some hf,b,hb,_,_,rfl⟩
    · cases h

end Worker

structure ReadCall.Of (v : Device) (offset size : Nat) (r : ReadCall) : Prop where
  inside : offset < v.totalBytes
  args : r.offset = offset ∧ r.size = size
  clamped : r.actualSize = min size ((v.totalBytes-offset)%2^32)
  aligned : computeAlignment offset r.actualSize v.blockSize =
    some (r.startLba,r.blockCount,r.skip)

structure WriteCall.Of (v : Device) (s : Worker) (offset : Nat) (data : Bytes) (w : WriteCall) :
    Prop where
  inside : offset < v.totalBytes
  nonempty : data ≠ []
  args : w.offset = offset ∧ w.data = data
  clamped : w.actualLen = min data.length (v.totalBytes-offset)
  aligned : ∃ skip, computeAlignment offset w.actualLen v.blockSize =
    some (w.startLba,w.blockCount,skip)
  replaced : w.replaced = s.dirty.entries.get? w.startLba

inductive WriteCall.Buffer (v : Device) (s : Worker) (rmwOk : Bool) (w : WriteCall) : Bytes → Prop
  | aligned : w.offset%v.blockSize = 0 → w.actualLen%v.blockSize = 0 →
      Buffer v s rmwOk w (w.data.take w.actualLen)
  | merged (old : Bytes) : rmwOk = true →
      ¬ (w.offset%v.blockSize = 0 ∧ w.actualLen%v.blockSize = 0) →
      old = s.disk.read (w.startLba*v.blockSize) (w.blockCount*v.blockSize) →
      w.offset%v.blockSize+w.actualLen ≤ w.blockCount*v.blockSize →
      Buffer v s rmwOk w (old.take (w.offset%v.blockSize) ++ w.data.take w.actualLen ++
        old.drop (w.offset%v.blockSize+w.actualLen))

namespace Worker

variable {v : Device} {s t : Worker}

theorem recvRead_cases {offset size : Nat} (h : s.recvRead v offset size = some t) :
    t = s.answer (.readReply offset size (.ok [])) ∨
    ∃ r : ReadCall, r.Of v offset size ∧
      ((∃ d, s.dirty.readOverlap r.startLba r.blockCount v.blockSize = some d ∧
        r.skip+r.actualSize ≤ d.length ∧
        t = s.readDone r (.ok ((d.drop r.skip).take r.actualSize))) ∨
      ((∀ d, s.dirty.readOverlap r.startLba r.blockCount v.blockSize = some d →
        d.length < r.skip+r.actualSize) ∧
        ∃ clba, v.chunkLba r.startLba = some clba ∧
        t = { s with phase := .reading r clba [] })) := by
  unfold recvRead at h
  split at h
  · cases h
    exact Or.inl rfl
  · rename_i hne
    simp only [Option.bind_eq_bind,Option.bind_eq_some_iff] at h
    obtain ⟨⟨lba,n,skip⟩,ha,h⟩ := h
    refine Or.inr ⟨⟨offset,size,lba,n,skip,min size ((v.totalBytes-offset)%2^32)⟩,
      ⟨by omega,⟨rfl,rfl⟩,rfl,ha⟩,?_⟩
    simp only at h
    split at h
    · rename_i d hd
      split at h
      · rename_i hle
        simp only [Option.bind_eq_some_iff,slice_eq_some] at h
        obtain ⟨_,⟨_,rfl⟩,h⟩ := h
        cases h
        rw [Nat.add_sub_cancel_left]
        exact Or.inl ⟨d,hd,hle,rfl⟩
      · rename_i hlt
        simp only [Option.bind_eq_some_iff] at h
        obtain ⟨clba,hc,h⟩ := h
        cases h
        refine Or.inr ⟨fun e he => ?_,clba,hc,rfl⟩
        rw [hd] at he
        cases he
        simpa using hlt
    · rename_i hd
      simp only [Option.bind_eq_some_iff] at h
      obtain ⟨clba,hc,h⟩ := h
      cases h
      refine Or.inr ⟨fun e he => ?_,clba,hc,rfl⟩
      rw [hd] at he
      cases he

theorem recvWrite_cases {offset : Nat} {data : Bytes} {rmwOk : Bool}
    (h : s.recvWrite v offset data rmwOk = some t) :
    (∃ x, t = { s with log := s.log ++ [Event.received offset data] }.answer
      (.writeReply offset data x) ∧
      ((x = .ok 0 ∧ (data = [] ∨ v.totalBytes ≤ offset)) ∨ ∃ e, x = .err e)) ∨
    ∃ (w : WriteCall) (buf : Bytes) (clba : Nat), w.Of v s offset data ∧
      w.Buffer v s rmwOk buf ∧ v.chunkLba w.startLba = some clba ∧
      t = { s with log := s.log ++ [Event.received offset data],
                   dirty := s.dirty.insert w.startLba w.blockCount buf,
                   phase := .invalidating w clba } := by
  unfold recvWrite at h
  simp only at h
  split at h
  · rename_i he
    cases h
    simp only [List.isEmpty_iff] at he
    exact Or.inl ⟨_,rfl,Or.inl ⟨rfl,he⟩⟩
  · rename_i hne
    simp only [List.isEmpty_iff,not_or,Nat.not_le] at hne
    simp only [Option.bind_eq_bind,Option.bind_eq_some_iff] at h
    obtain ⟨⟨lba,n,skip⟩,ha,h⟩ := h
    have hskip := (computeAlignment_eq_some ha).2.2.2.2
    have hof : (WriteCall.mk offset data (min data.length (v.totalBytes-offset)) lba n
        (s.dirty.entries.get? lba)).Of v s offset data :=
      ⟨hne.2,hne.1,⟨rfl,rfl⟩,rfl,⟨skip,ha⟩,rfl⟩
    simp only at h
    split at h
    · rename_i hal
      simp only [Option.bind_eq_some_iff] at h
      obtain ⟨clba,hc,h⟩ := h
      cases h
      exact Or.inr ⟨_,_,clba,hof,.aligned (by rw [← hskip]; exact hal.1) hal.2,hc,rfl⟩
    · rename_i hun
      split at h
      · cases h
        exact Or.inl ⟨_,rfl,Or.inr ⟨_,rfl⟩⟩
      · rename_i hok
        split at h
        · cases h
          exact Or.inl ⟨_,rfl,Or.inr ⟨_,rfl⟩⟩
        · rename_i hlen
          simp only [Option.bind_eq_some_iff] at h
          obtain ⟨clba,hc,h⟩ := h
          cases h
          simp only [Image.read_length,Nat.not_lt] at hlen
          subst hskip
          exact Or.inr ⟨_,_,clba,hof,.merged _ (by simpa using hok) hun rfl hlen,hc,rfl⟩

theorem invalidateStep_cases {w : WriteCall} {clba : Nat}
    (h : s.invalidateStep v w clba = some t) :
    (∃ next, t = { s with inner := Function.update s.inner clba none, phase := .invalidating w next }) ∨
    (∃ ra, { s with ra := ra }.startFlush v (.write w) = some t) ∨
    (∃ ra, t = { s with ra := ra }.answer (.writeReply w.offset w.data
      (.ok (w.actualLen%2^32)))) := by
  unfold invalidateStep at h
  simp only [Option.bind_eq_bind,Option.bind_eq_some_iff] at h
  obtain ⟨last,_,h⟩ := h
  split at h
  · simp only [Option.bind_eq_some_iff] at h
    obtain ⟨next,_,h⟩ := h
    cases h
    exact Or.inl ⟨next,rfl⟩
  · split at h
    · exact Or.inr (Or.inl ⟨_,h⟩)
    · cases h
      exact Or.inr (Or.inr ⟨_,rfl⟩)

theorem takeChunk_cases {r : ReadCall} {clba : Nat} {acc chunk : Bytes}
    (h : s.takeChunk v r clba acc chunk = some t) :
    max r.startLba clba ≤ min (r.startLba+r.blockCount) (clba+v.chunkBlocks) ∧
    ∃ piece, t = { s with phase := .reading r (clba+v.chunkBlocks) (acc ++ piece) } ∧
      (chunk.length = v.chunkBytes → piece =
        (chunk.drop ((max r.startLba clba-clba)*v.blockSize)).take
          ((min (r.startLba+r.blockCount) (clba+v.chunkBlocks)-max r.startLba clba)*v.blockSize)) := by
  unfold takeChunk at h
  simp only [Option.bind_eq_bind,Option.bind_eq_some_iff,addU64_eq_some] at h
  obtain ⟨_,⟨_,rfl⟩,h⟩ := h
  split at h
  · cases h
  · rename_i hle
    simp only [Option.bind_eq_some_iff,slice_eq_some] at h
    obtain ⟨piece,⟨_,hp⟩,h⟩ := h
    cases h
    refine ⟨by omega,piece,rfl,fun hl => ?_⟩
    rw [← hp,hl,Device.chunkBytes]
    congr 1
    rw [← Nat.add_mul,Nat.min_eq_left (Nat.mul_le_mul_right _ (by omega)),← Nat.sub_mul]
    congr 1
    omega

theorem takeChunk_whole {r : ReadCall} {clba : Nat} {acc chunk : Bytes}
    (ha : clba+v.chunkBlocks < 2^64)
    (hle : max r.startLba clba ≤ min (r.startLba+r.blockCount) (clba+v.chunkBlocks))
    (hl : chunk.length = v.chunkBytes) :
    s.takeChunk v r clba acc chunk = some { s with
      phase := .reading r (clba+v.chunkBlocks) (acc ++
        (chunk.drop ((max r.startLba clba-clba)*v.blockSize)).take
          ((min (r.startLba+r.blockCount) (clba+v.chunkBlocks)-max r.startLba clba)*v.blockSize)) } := by
  have hm : (max r.startLba clba-clba)*v.blockSize+
      (min (r.startLba+r.blockCount) (clba+v.chunkBlocks)-max r.startLba clba)*v.blockSize ≤
      chunk.length := by
    rw [hl,Device.chunkBytes,← Nat.add_mul]
    exact Nat.mul_le_mul_right _ (by omega)
  simp only [takeChunk,addU64,if_pos ha,Option.bind_eq_bind,Option.bind_some,
    if_neg (Nat.not_lt.mpr hle),Nat.min_eq_left hm,slice]
  rw [if_pos ⟨by omega,hm⟩]
  simp

theorem triggerReadahead_cases {lba n : Nat} (h : s.triggerReadahead v lba n = some t) :
    ∃ ra tasks, t = { s with ra := ra, tasks := tasks } := by
  unfold triggerReadahead at h
  simp only [Option.bind_eq_bind,Option.bind_eq_some_iff] at h
  obtain ⟨_,_,h⟩ := h
  split at h
  · cases h
    exact ⟨_,_,rfl⟩
  · simp only [Option.bind_eq_some_iff] at h
    obtain ⟨_,_,_,_,h⟩ := h
    split at h
    · simp only [Option.bind_eq_some_iff] at h
      obtain ⟨_,_,_,_,h⟩ := h
      cases h
      exact ⟨_,_,rfl⟩
    · cases h
      exact ⟨_,_,rfl⟩

theorem readStep_cases {r : ReadCall} {clba : Nat} {acc : Bytes}
    (h : s.readStep v r clba acc = some t) :
    ∃ last, v.chunkLba (r.startLba+r.blockCount-1) = some last ∧
    ((clba ≤ last ∧ ∃ chunk, s.inner clba = some chunk ∧ s.takeChunk v r clba acc chunk = some t) ∨
    (clba ≤ last ∧ ∃ d, s.fetches clba = some d ∧ t = { s with phase := .awaiting r clba acc }) ∨
    (clba ≤ last ∧ s.fetches clba = none ∧
      t = { s with fetches := Function.update s.fetches clba
                     (some (s.disk.read (clba*v.blockSize) v.chunkBytes)),
                   phase := .awaiting r clba acc }) ∨
    (last < clba ∧ ∃ ra tasks,
      (acc.length < r.skip+r.actualSize ∧
        t = { s with ra := ra, tasks := tasks }.readDone r (.err .shortRead)) ∨
      t = { s with ra := ra, tasks := tasks }.readDone r
        (.ok ((acc.drop r.skip).take r.actualSize)))) := by
  unfold readStep at h
  simp only [Option.bind_eq_bind,Option.bind_eq_some_iff] at h
  obtain ⟨last,hlast,h⟩ := h
  refine ⟨last,hlast,?_⟩
  split at h
  · rename_i hle
    split at h
    · rename_i chunk hi
      exact Or.inl ⟨hle,chunk,hi,h⟩
    · split at h
      · rename_i d hd
        cases h
        exact Or.inr (Or.inl ⟨hle,d,hd,rfl⟩)
      · rename_i hn
        cases h
        exact Or.inr (Or.inr (Or.inl ⟨hle,hn,rfl⟩))
  · rename_i hgt
    simp only [Option.bind_eq_some_iff] at h
    obtain ⟨u,hu,h⟩ := h
    obtain ⟨ra,tasks,rfl⟩ := triggerReadahead_cases hu
    refine Or.inr (Or.inr (Or.inr ⟨by omega,ra,tasks,?_⟩))
    split at h
    · rename_i hs
      cases h
      exact Or.inl ⟨hs,rfl⟩
    · simp only [Option.bind_eq_some_iff,slice_eq_some] at h
      obtain ⟨_,⟨_,rfl⟩,h⟩ := h
      cases h
      rw [Nat.add_sub_cancel_left]
      exact Or.inr rfl

theorem fetchDone_cases {c : Nat} (h : s.fetchDone v c = some t) :
    ∃ chunk tasks, s.fetches c = some chunk ∧
      ((t = { s with inner := Function.update s.inner c (some chunk),
                     fetches := Function.update s.fetches c none, tasks := tasks } ∧
        ∀ r acc, s.phase ≠ .awaiting r c acc) ∨
      ∃ r acc, s.phase = .awaiting r c acc ∧
        { s with inner := Function.update s.inner c (some chunk),
                 fetches := Function.update s.fetches c none,
                 tasks := tasks }.takeChunk v r c acc chunk = some t) := by
  unfold fetchDone at h
  split at h
  · cases h
  · rename_i chunk hc
    refine ⟨chunk,s.tasks.filterMap (RaTask.resume v c),hc,?_⟩
    simp only at h
    split at h
    · rename_i r clba acc hp
      split at h
      · rename_i hcl
        subst hcl
        exact Or.inr ⟨r,acc,hp,h⟩
      · rename_i hcl
        cases h
        refine Or.inl ⟨rfl,fun r' acc' hp' => ?_⟩
        rw [hp] at hp'
        cases hp'
        exact hcl rfl
    · rename_i hp
      cases h
      exact Or.inl ⟨rfl,fun r acc => hp r c acc⟩

theorem fetchFailed_cases {c : Nat} (h : s.fetchFailed c = some t) :
    ∃ tasks, t = { s with fetches := Function.update s.fetches c none, tasks := tasks } ∨
      ∃ r acc, s.phase = .awaiting r c acc ∧
        t = { s with fetches := Function.update s.fetches c none, tasks := tasks }.readDone r
          (.err .scsiReadFailed) := by
  unfold fetchFailed at h
  split at h
  · cases h
  · refine ⟨s.tasks.map (RaTask.giveUp c),?_⟩
    simp only at h
    split at h
    · rename_i r clba acc hp
      split at h
      · rename_i hcl
        subst hcl
        cases h
        exact Or.inr ⟨r,acc,hp,rfl⟩
      · cases h
        exact Or.inl rfl
    · cases h
      exact Or.inl rfl

theorem raStep_cases {i : Nat} (h : s.raStep v i = some t) :
    ∃ tasks ra, t = { s with tasks := tasks, ra := ra } ∨
      ∃ c, s.fetches c = none ∧
        t = { s with tasks := tasks, ra := ra,
                     fetches := Function.update s.fetches c
                       (some (s.disk.read (c*v.blockSize) v.chunkBytes)) } := by
  unfold raStep at h
  simp only [Option.bind_eq_bind,Option.bind_eq_some_iff] at h
  obtain ⟨rt,_,h⟩ := h
  split at h
  · cases h
  · split at h
    · split at h
      · simp only [Option.bind_eq_some_iff] at h
        obtain ⟨_,_,h⟩ := h
        cases h
        exact ⟨_,_,Or.inl rfl⟩
      · split at h
        · cases h
          exact ⟨_,_,Or.inl rfl⟩
        · rename_i hn
          cases h
          exact ⟨_,s.ra,Or.inr ⟨_,hn,rfl⟩⟩
    · cases h
      exact ⟨_,_,Or.inl rfl⟩

end Worker
end IscsiFuse.Block
