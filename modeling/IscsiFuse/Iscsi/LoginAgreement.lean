import IscsiFuse.Iscsi.LoginPhases
import IscsiFuse.Iscsi.OperationalText
set_option autoImplicit false

namespace IscsiFuse.Iscsi
open KeyedFold

namespace NegotiatedParams

def Key.Selects : (k : Key) → k.rule.Value → k.rule.Value → Prop
  | .headerDigest | .dataDigest => fun (offered selected : Bool) => selected = offered
  | .maxRecvDataSegmentLength => fun _ _ => True
  | .maxBurstLength | .firstBurstLength | .maxOutstandingR2t | .maxConnections
  | .errorRecoveryLevel | .defaultTime2retain => fun (offered selected : Nat) => selected ≤ offered
  | .defaultTime2wait => fun (offered selected : Nat) => offered ≤ selected
  | .initialR2t | .dataPduInOrder | .dataSequenceInOrder =>
    fun (offered selected : Bool) => offered → selected
  | .immediateData => fun (offered selected : Bool) => selected → offered

/-- A target with the parameters `t` has read `request` and answers it with `answer`: it knows
the limit that was declared to it, and the answers, in any order and with any other keys
between them, spell what it selected. It may leave keys unanswered. -/
structure Answers (t : NegotiatedParams) (request answer : Bytes) : Prop where
  fits : t.Fits
  declared : numbers 32 "MaxRecvDataSegmentLength" (parseKvPairs request) =
    [t.maxSendDataSegmentLength]
  selects : ∀ k : Key, ∀ v ∈ given (utf8 k.name) (parseKvPairs request), ∀ x,
    k.rule.read v = .ok x → k.Selects x (k.offered t)
  spells : ∀ k : Key, ∀ v ∈ given (utf8 k.name) (parseKvPairs answer), v = utf8 (k.offer t)

theorem given_offers (p : NegotiatedParams) (k : Key) :
    given (utf8 k.name) p.offers = [utf8 (k.offer p)] := by
  have hname : ∀ j : Key, utf8 j.name = utf8 k.name ↔ j = k := by
    intro j
    constructor
    · intro h
      have hj := congrArg Key.ofName h
      rw [ofName_name,ofName_name] at hj
      exact Option.some.inj hj
    · intro h
      rw [h]
  unfold given offers
  rw [List.filter_map,List.map_map]
  have hfilter : Key.all.filter (fun j => decide (j = k)) = [k] := by cases k <;> rfl
  have hcongr : Key.all.filter ((fun kv : Bytes × Bytes => decide (kv.1 = utf8 k.name)) ∘
      fun j => (utf8 j.name,utf8 (j.offer p))) = Key.all.filter (fun j => decide (j = k)) :=
    List.filter_congr (fun j _ => decide_eq_decide.mpr (hname j))
  rw [hcongr,hfilter]
  rfl

section Agreement

variable {p q t : NegotiatedParams} {answer : Bytes}

theorem combine_selected {k : Key} (h : k.Selects (k.offered p) (k.offered t)) :
    k.rule.combine (k.rule.get p) (k.offered t) = k.offered t := by
  cases k with
  | maxBurstLength | firstBurstLength | maxOutstandingR2t | maxConnections | errorRecoveryLevel =>
    exact Nat.min_eq_right h
  | initialR2t =>
    have hor : ∀ a b : Bool, (a → b) → (a || b) = b := by decide
    exact hor _ _ h
  | immediateData =>
    have hand : ∀ a b : Bool, (b → a) → (a && b) = b := by decide
    exact hand _ _ h
  | _ => rfl

theorem Answers.selected (h : t.Answers (utf8 p.buildOperationalTextFrom) answer) (hp : p.Fits)
    (k : Key) : k.Selects (k.offered p) (k.offered t) := by
  refine h.selects k (utf8 (k.offer p)) ?_ _ (read_offer hp k)
  rw [parseKvPairs_offers,given_offers]
  exact List.mem_singleton_self _

theorem Answers.read (h : t.Answers (utf8 p.buildOperationalTextFrom) answer) {k : Key} {v : Bytes}
    (hv : v ∈ given (utf8 k.name) (parseKvPairs answer)) : k.rule.read v = .ok (k.offered t) := by
  rw [h.spells k v hv]
  exact read_offer h.fits k

theorem Answers.accepted (h : t.Answers (utf8 p.buildOperationalTextFrom) answer) :
    ∃ q, p.applyTargetResponse answer = .ok q := by
  refine applyPair_keyed.run_accepts (fun kv hm => ?_)
  obtain ⟨key,v⟩ := kv
  by_cases hk : ∃ k : Key, key = utf8 k.name
  · obtain ⟨k,rfl⟩ := hk
    have hv : v ∈ given (utf8 k.name) (parseKvPairs answer) :=
      List.mem_map.mpr ⟨_,List.mem_filter.mpr ⟨hm,by simp⟩,rfl⟩
    exact ⟨p,_,by rw [applyPair_key,Rule.answer,h.read hv]; rfl⟩
  · exact ⟨p,p,applyPair_unknown (fun k he => hk ⟨k,he⟩)⟩

theorem Answers.answered (h : t.Answers (utf8 p.buildOperationalTextFrom) answer) (hp : p.Fits)
    (hq : p.applyTargetResponse answer = .ok q) (k : Key) :
    k.rule.get q = if given (utf8 k.name) (parseKvPairs answer) = [] then k.rule.get p
      else k.offered t := by
  have hsame : ∀ x ∈ k.rule.values (parseKvPairs answer), x = k.offered t := by
    intro x hx
    obtain ⟨v,hv,hr⟩ := List.mem_filterMap.mp hx
    rw [rule_key] at hv
    rw [h.read hv] at hr
    exact (Option.some.inj hr).symm
  have hnone : k.rule.values (parseKvPairs answer) = [] ↔
      given (utf8 k.name) (parseKvPairs answer) = [] := by
    rw [Rule.values,rule_key]
    constructor
    · intro hn
      refine List.eq_nil_iff_forall_not_mem.mpr (fun v hv => ?_)
      have hx : k.offered t ∈ (given (utf8 k.name) (parseKvPairs answer)).filterMap
          (fun v => (k.rule.read v).toOption) :=
        List.mem_filterMap.mpr ⟨v,hv,by rw [h.read hv]; rfl⟩
      rw [hn] at hx
      exact List.not_mem_nil hx
    · intro hn
      rw [hn]
      rfl
  have := combine_idempotent k
  rw [(applyPair_keyed.run_values hq k).1,
    foldl_same k.rule.combine hsame (combine_selected (h.selected hp k))]
  simp only [hnone]

end Agreement

end NegotiatedParams

open NegotiatedParams

end IscsiFuse.Iscsi
