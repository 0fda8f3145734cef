import IscsiFuse.Iscsi.Submit
set_option autoImplicit false

namespace IscsiFuse.Iscsi

def parseCapacity (n : Nat) (op : String) (data : Bytes) : Except Error (Nat × Nat) :=
  if data.length < n+4 then .error [s!"{op} response too short: {data.length} bytes"]
  else
    let maxLba := Bytes.ofBe (data.window 0 n)
    let blockLen := Bytes.ofBe (data.window n 4)
    if blockLen = 0 then .error [s!"{op} returned block length of 0"]
    else .ok (maxLba,blockLen)

def parseReadCapacity10 (data : Bytes) : Except Error (Nat × Nat) :=
  parseCapacity 4 "READ CAPACITY(10)" data

def parseReadCapacity16 (data : Bytes) : Except Error (Nat × Nat) :=
  parseCapacity 8 "READ CAPACITY(16)" data

def replyData (op : String) (o : Outcome) : Except Error Bytes := do
  let response ← awaitReply s!"submit {op}" op o
  checkScsiStatus op response
  match response.data with
  | some data => .ok data
  | none => .error [s!"{op} returned no data"]

def readCapacity10 (o : Outcome) : Except Error (Nat × Nat) := do
  let data ← replyData "READ CAPACITY(10)" o
  parseReadCapacity10 data

def readCapacity16 (o : Outcome) : Except Error (Nat × Nat) := do
  let data ← replyData "READ CAPACITY(16)" o
  let (maxLba,blockLen) ← parseReadCapacity16 data
  if maxLba+1 < 2^64 then .ok (maxLba+1,blockLen)
  else .error ["READ CAPACITY(16) max_lba overflow"]

def Pipeline.readCapacityFrom (p : Pipeline) (submit : Nat → Command → Outcome) :
    List Nat → Error → Option (Nat × Nat) → Except Error (Nat × Nat)
  | [], _, some (maxLba,blockLen) => .ok (maxLba+1,blockLen)
  | [], lastErr, none => .error ("READ CAPACITY failed after retries" :: lastErr)
  | attempt :: rest, _, rc10Overflow =>
    match readCapacity10 (submit attempt p.readCapacity10Command) with
    | .ok (maxLba,blockLen) =>
      if maxLba ≠ 0xFFFFFFFF then .ok (maxLba+1,blockLen)
      else match readCapacity16 (submit attempt p.readCapacity16Command) with
        | .ok result => .ok result
        | .error e => p.readCapacityFrom submit rest e (some (maxLba,blockLen))
    | .error e => p.readCapacityFrom submit rest e rc10Overflow

def Pipeline.readCapacity (p : Pipeline) (submit : Nat → Command → Outcome) :
    Except Error (Nat × Nat) :=
  p.readCapacityFrom submit [0,1,2] ["no attempts"] none

/-- The command ends well, with `answer` in front of what the target returns. -/
def Outcome.Answers (answer : Bytes) (o : Outcome) : Prop :=
  ∃ sense rest, o = .response ⟨.good,some (answer ++ rest),sense⟩

/-- A device of `N` blocks of `L` bytes. Any command may fail, in any way. -/
structure Reports (N L : Nat) (p : Pipeline) (submit : Nat → Command → Outcome) : Prop where
  blocks : 1 ≤ N ∧ N < 2^64
  blockLength : 1 ≤ L ∧ L < 2^32
  answer10 : ∀ k, (submit k p.readCapacity10Command).Answers
      (Bytes.toBe 4 (min (N-1) 0xFFFFFFFF) ++ Bytes.toBe 4 L) ∨
    ∃ e, readCapacity10 (submit k p.readCapacity10Command) = .error e
  answer16 : ∀ k, (submit k p.readCapacity16Command).Answers
      (Bytes.toBe 8 (N-1) ++ Bytes.toBe 4 L) ∨
    ∃ e, readCapacity16 (submit k p.readCapacity16Command) = .error e

theorem ofBe_front {n v : Nat} (h : v < 256^n) (rest : Bytes) :
    Bytes.ofBe (Bytes.window (Bytes.toBe n v ++ rest) 0 n) = v := by
  rw [Bytes.window,List.drop_zero,List.take_left' (Bytes.toBe_length n v),Bytes.ofBe_toBe,
    Nat.mod_eq_of_lt h]

theorem ofBe_behind {n m v : Nat} {front : Bytes} (hf : front.length = m) (h : v < 256^n)
    (rest : Bytes) : Bytes.ofBe (Bytes.window (front ++ (Bytes.toBe n v ++ rest)) m n) = v := by
  rw [Bytes.window_append hf (Bytes.toBe_length n v),Bytes.ofBe_toBe,Nat.mod_eq_of_lt h]

theorem replyData_answers (op : String) {o : Outcome} {answer : Bytes} (h : o.Answers answer) :
    ∃ rest, replyData op o = .ok (answer ++ rest) := by
  obtain ⟨sense,rest,rfl⟩ := h
  exact ⟨rest,rfl⟩

theorem parseCapacity_toBe {n m l : Nat} (op : String) (hm : m < 256^n) (hl : 1 ≤ l ∧ l < 2^32)
    (rest : Bytes) :
    parseCapacity n op (Bytes.toBe n m ++ (Bytes.toBe 4 l ++ rest)) = .ok (m,l) := by
  have h₁ := ofBe_front hm (Bytes.toBe 4 l ++ rest)
  have h₂ := ofBe_behind (n := 4) (Bytes.toBe_length n m) hl.2 rest
  rw [parseCapacity,if_neg (by simp)]
  simp only [h₁,h₂]
  rw [if_neg (by omega)]

theorem ofBe_word {d : Bytes} {off n : Nat} (h : off+n ≤ d.length) :
    Bytes.ofBe (d.window off n) < 256^n := by
  have hb := Bytes.ofBe_lt (d.window off n)
  rwa [Bytes.window_length h] at hb

theorem parseCapacity_bounds {n : Nat} {op : String} {data : Bytes} {m l : Nat}
    (h : parseCapacity n op data = .ok (m,l)) : m < 256^n ∧ 0 < l ∧ l < 2^32 := by
  unfold parseCapacity at h
  split at h
  · cases h
  · have h₁ := ofBe_word (d := data) (show 0+n ≤ data.length by omega)
    have h₂ := ofBe_word (d := data) (show n+4 ≤ data.length by omega)
    simp only at h
    split at h
    · cases h
    · cases h
      exact ⟨h₁,by omega,h₂⟩

theorem readCapacity10_bounds {o : Outcome} {m l : Nat} (h : readCapacity10 o = .ok (m,l)) :
    m < 2^32 ∧ 0 < l ∧ l < 2^32 := by
  obtain ⟨_,_,h⟩ := bind_eq_ok.mp h
  exact parseCapacity_bounds h

theorem readCapacity16_bounds {o : Outcome} {n l : Nat} (h : readCapacity16 o = .ok (n,l)) :
    n < 2^64 ∧ 0 < l ∧ l < 2^32 := by
  obtain ⟨_,_,h⟩ := bind_eq_ok.mp h
  obtain ⟨⟨m,k⟩,hp,h⟩ := bind_eq_ok.mp h
  have hb := parseCapacity_bounds hp
  dsimp only at h
  split at h
  · rename_i hm
    cases h
    exact ⟨hm,hb.2⟩
  · cases h

theorem readCapacity10_answers {m l : Nat} {o : Outcome} (hm : m < 2^32) (hl : 1 ≤ l ∧ l < 2^32)
    (h : o.Answers (Bytes.toBe 4 m ++ Bytes.toBe 4 l)) : readCapacity10 o = .ok (m,l) := by
  obtain ⟨rest,hr⟩ := replyData_answers "READ CAPACITY(10)" h
  rw [readCapacity10,hr,List.append_assoc]
  exact parseCapacity_toBe (n := 4) _ hm hl rest

theorem readCapacity16_answers {m l : Nat} {o : Outcome} (hm : m+1 < 2^64) (hl : 1 ≤ l ∧ l < 2^32)
    (h : o.Answers (Bytes.toBe 8 m ++ Bytes.toBe 4 l)) : readCapacity16 o = .ok (m+1,l) := by
  obtain ⟨rest,hr⟩ := replyData_answers "READ CAPACITY(16)" h
  rw [readCapacity16,hr,List.append_assoc]
  have hp := parseCapacity_toBe "READ CAPACITY(16)" (show m < 256^8 by omega) hl rest
  simp only [bind,Except.bind,parseReadCapacity16,hp]
  rw [if_pos hm]

namespace Pipeline

variable {p : Pipeline} {submit : Nat → Command → Outcome} {k m l : Nat} {ks : List Nat}
  {lastErr e : Error} {overflow : Option (Nat × Nat)}

theorem readCapacityFrom_small (h : readCapacity10 (submit k p.readCapacity10Command) = .ok (m,l))
    (hm : m ≠ 0xFFFFFFFF) :
    p.readCapacityFrom submit (k :: ks) lastErr overflow = .ok (m+1,l) := by
  rw [readCapacityFrom,h]
  exact if_pos hm

theorem readCapacityFrom_large {r : Nat × Nat}
    (h : readCapacity10 (submit k p.readCapacity10Command) = .ok (0xFFFFFFFF,l))
    (h' : readCapacity16 (submit k p.readCapacity16Command) = .ok r) :
    p.readCapacityFrom submit (k :: ks) lastErr overflow = .ok r := by
  rw [readCapacityFrom,h,h']
  rfl

theorem readCapacityFrom_remember
    (h : readCapacity10 (submit k p.readCapacity10Command) = .ok (0xFFFFFFFF,l))
    (h' : readCapacity16 (submit k p.readCapacity16Command) = .error e) :
    p.readCapacityFrom submit (k :: ks) lastErr overflow =
      p.readCapacityFrom submit ks e (some (0xFFFFFFFF,l)) := by
  rw [readCapacityFrom,h,h']
  rfl

theorem readCapacityFrom_retry
    (h : readCapacity10 (submit k p.readCapacity10Command) = .error e) :
    p.readCapacityFrom submit (k :: ks) lastErr overflow =
      p.readCapacityFrom submit ks e overflow := by
  rw [readCapacityFrom,h]

theorem readCapacityFrom_bounds {n : Nat}
    (ho : ∀ q, overflow = some q → q.1 < 2^32 ∧ 0 < q.2 ∧ q.2 < 2^32)
    (h : p.readCapacityFrom submit ks lastErr overflow = .ok (n,l)) :
    n < 2^64 ∧ 0 < l ∧ l < 2^32 := by
  induction ks generalizing lastErr overflow with
  | nil =>
    cases hov : overflow with
    | none =>
      rw [hov] at h
      cases h
    | some q =>
      rw [hov] at h
      have hq := ho q hov
      cases h
      omega
  | cons k ks ih =>
    cases h10 : readCapacity10 (submit k p.readCapacity10Command) with
    | error e =>
      rw [readCapacityFrom_retry h10] at h
      exact ih ho h
    | ok q =>
      have hq := readCapacity10_bounds h10
      by_cases hs : q.1 = 0xFFFFFFFF
      · obtain ⟨m,l'⟩ := q
        obtain rfl : m = 0xFFFFFFFF := hs
        cases h16 : readCapacity16 (submit k p.readCapacity16Command) with
        | error e =>
          rw [readCapacityFrom_remember h10 h16] at h
          refine ih (fun q' hq' => ?_) h
          cases hq'
          exact hq
        | ok r =>
          rw [readCapacityFrom_large h10 h16] at h
          cases h
          exact readCapacity16_bounds h16
      · rw [readCapacityFrom_small h10 hs] at h
        cases h
        omega

theorem readCapacity_bounds {n : Nat} (h : p.readCapacity submit = .ok (n,l)) :
    n < 2^64 ∧ 0 < l ∧ l < 2^32 :=
  readCapacityFrom_bounds (fun _ hq => by cases hq) h

/-- An attempt in which READ CAPACITY(16) ends well. It is submitted only behind a READ
CAPACITY(10) that ended well. -/
def Learns (p : Pipeline) (submit : Nat → Command → Outcome) (k : Nat) : Prop :=
  (∃ r, readCapacity10 (submit k p.readCapacity10Command) = .ok r) ∧
    ∃ r, readCapacity16 (submit k p.readCapacity16Command) = .ok r

end Pipeline

namespace Reports
open Pipeline

variable {N L : Nat} {p : Pipeline} {submit : Nat → Command → Outcome} (h : Reports N L p submit)

include h

theorem reads10 (k : Nat) :
    readCapacity10 (submit k p.readCapacity10Command) = .ok (min (N-1) 0xFFFFFFFF,L) ∨
      ∃ e, readCapacity10 (submit k p.readCapacity10Command) = .error e :=
  (h.answer10 k).imp_left (readCapacity10_answers (by omega) h.blockLength)

theorem reads16 (k : Nat) :
    readCapacity16 (submit k p.readCapacity16Command) = .ok (N,L) ∨
      ∃ e, readCapacity16 (submit k p.readCapacity16Command) = .error e := by
  have hN := h.blocks
  refine (h.answer16 k).imp_left (fun ha => ?_)
  have hr := readCapacity16_answers (m := N-1) (by omega) h.blockLength ha
  rwa [Nat.sub_add_cancel hN.1] at hr

theorem readCapacityFrom_sized (ks : List Nat) (lastErr : Error) {overflow : Option (Nat × Nat)}
    (ho : overflow = none ∨ overflow = some (0xFFFFFFFF,L) ∧ 2^32 ≤ N) :
    (∃ e, p.readCapacityFrom submit ks lastErr overflow = .error e ∧ overflow = none ∧
      ∀ k ∈ ks, ∃ e, readCapacity10 (submit k p.readCapacity10Command) = .error e) ∨
    ∃ n, p.readCapacityFrom submit ks lastErr overflow = .ok (n,L) ∧ n ≤ N ∧
      (N ≤ 2^32 ∨ (∃ k ∈ ks, p.Learns submit k) → n = N) := by
  induction ks generalizing lastErr overflow with
  | nil =>
    rcases ho with rfl | ⟨rfl,hN⟩
    · exact Or.inl ⟨_,rfl,rfl,fun k hk => by cases hk⟩
    · refine Or.inr ⟨_,rfl,by omega,fun hn => ?_⟩
      rcases hn with hn | ⟨k,hk,_⟩
      · omega
      · cases hk
  | cons k ks ih =>
    have hN := h.blocks
    have hlater : ∀ n, ¬ p.Learns submit k → (N ≤ 2^32 ∨ (∃ k ∈ ks, p.Learns submit k) → n = N) →
        (N ≤ 2^32 ∨ (∃ k' ∈ k :: ks, p.Learns submit k') → n = N) := by
      intro n hk hn hx
      refine hn (hx.imp_right (fun hx => ?_))
      obtain ⟨k',hm,hl⟩ := hx
      rcases List.mem_cons.mp hm with rfl | hm
      · exact absurd hl hk
      · exact ⟨k',hm,hl⟩
    rcases h.reads10 k with h10 | ⟨e,h10⟩
    · by_cases hs : min (N-1) 0xFFFFFFFF = 0xFFFFFFFF
      · rw [hs] at h10
        rcases h.reads16 k with h16 | ⟨e,h16⟩
        · exact Or.inr ⟨N,readCapacityFrom_large h10 h16,Nat.le_refl N,fun _ => rfl⟩
        · rw [readCapacityFrom_remember h10 h16]
          rcases ih e (Or.inr ⟨rfl,by omega⟩) with ⟨_,_,hc,_⟩ | ⟨n,hn,hle,hl⟩
          · cases hc
          · exact Or.inr ⟨n,hn,hle,hlater n (fun hk => by simp [Learns,h16] at hk) hl⟩
      · refine Or.inr ⟨N,?_,Nat.le_refl N,fun _ => rfl⟩
        rw [readCapacityFrom_small h10 hs,show min (N-1) 0xFFFFFFFF+1 = N by omega]
    · rw [readCapacityFrom_retry h10]
      rcases ih e ho with ⟨e',he,hc,hall⟩ | ⟨n,hn,hle,hl⟩
      · refine Or.inl ⟨e',he,hc,fun k' hm => ?_⟩
        rcases List.mem_cons.mp hm with rfl | hm
        · exact ⟨e,h10⟩
        · exact hall k' hm
      · exact Or.inr ⟨n,hn,hle,hlater n (fun hk => by simp [Learns,h10] at hk) hl⟩

end Reports

/-- The disk is never reported larger than it is. -/
theorem readCapacity_never_overstates {N L : Nat} {p : Pipeline} {submit : Nat → Command → Outcome}
    (h : Reports N L p submit) :
    (∃ e, p.readCapacity submit = .error e ∧
      ∀ k ∈ [0,1,2], ∃ e, readCapacity10 (submit k p.readCapacity10Command) = .error e) ∨
    ∃ n, p.readCapacity submit = .ok (n,L) ∧ n ≤ N ∧
      (N ≤ 2^32 ∨ (∃ k ∈ [0,1,2], p.Learns submit k) → n = N) := by
  rcases h.readCapacityFrom_sized [0,1,2] ["no attempts"] (Or.inl rfl) with ⟨e,he,_,hall⟩ | ho
  · exact Or.inl ⟨e,he,hall⟩
  · exact Or.inr ho

def largeDevice (k : Nat) (c : Command) : Outcome :=
  if c.edtl = 8 then .response ⟨.good,some (Bytes.toBe 4 0xFFFFFFFF ++ Bytes.toBe 4 512),none⟩
  else if k = 0 then .timedOut
  else .response ⟨.good,some (Bytes.toBe 8 (2^32) ++ Bytes.toBe 4 512 ++ List.replicate 20 0),none⟩

theorem readCapacity_never_overstates_large :
    let p := Pipeline.new 0 .defaults10g
    Reports (2^32+1) 512 p largeDevice ∧ p.readCapacity largeDevice = .ok (2^32+1,512) := by
  intro p
  have h10 : ∀ k, (largeDevice k p.readCapacity10Command).Answers
      (Bytes.toBe 4 0xFFFFFFFF ++ Bytes.toBe 4 512) := fun k => ⟨none,[],rfl⟩
  have h16 : ∀ k, k ≠ 0 → (largeDevice k p.readCapacity16Command).Answers
      (Bytes.toBe 8 (2^32) ++ Bytes.toBe 4 512) := by
    intro k hk
    refine ⟨none,List.replicate 20 0,?_⟩
    simp [largeDevice,hk,p,Pipeline.readCapacity16Command]
  have h : Reports (2^32+1) 512 p largeDevice := by
    refine ⟨by decide,by decide,fun k => Or.inl (h10 k),fun k => ?_⟩
    by_cases hk : k = 0
    · subst hk
      exact Or.inr ⟨_,rfl⟩
    · exact Or.inl (h16 k hk)
  have hr : ∀ k, readCapacity10 (largeDevice k p.readCapacity10Command) = .ok (0xFFFFFFFF,512) :=
    fun k => readCapacity10_answers (by decide) (by decide) (h10 k)
  refine ⟨h,?_⟩
  rcases readCapacity_never_overstates h with ⟨e,_,hall⟩ | ⟨n,hn,_,hl⟩
  · obtain ⟨e',he⟩ := hall 0 (by simp)
    rw [hr 0] at he
    cases he
  · have hlearns : p.Learns largeDevice 1 := ⟨⟨_,hr 1⟩,
      ⟨_,readCapacity16_answers (m := 2^32) (l := 512) (by decide) (by decide) (h16 1 (by decide))⟩⟩
    rw [hn,hl (Or.inr ⟨1,by simp,hlearns⟩)]

end IscsiFuse.Iscsi
