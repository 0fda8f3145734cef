import IscsiFuse.Iscsi.OperationalText
import IscsiFuse.Iscsi.Pdu
set_option autoImplicit false

/-!
The two phases of a login, each one request and one response. What the connection
does with a request, sending it and receiving the answer, is `exchange`.
-/

namespace IscsiFuse.Iscsi

structure LoginResult where
  tsih : BitVec 16
  negotiated : NegotiatedParams
  initialCmdSn : BitVec 32
  initialExpStatSn : BitVec 32
  deriving DecidableEq

structure LoginManager where
  isid : Bytes.Sized 6
  initiatorName : String
  targetName : String

def checkLoginResponse (phase : String) (resp : Pdu) : Except Error Unit :=
  if resp.bhs.opcode ≠ .loginResponse then
    .error [s!"expected LoginResponse (0x23), got {resp.bhs.opcode.debug} " ++
      s!"({hexByte resp.bhs.opcode.code})"]
  else if resp.bhs.loginStatusClass ≠ 0 then
    .error [s!"login {phase} phase failed: status-class={resp.bhs.loginStatusClass}, " ++
      s!"status-detail={resp.bhs.loginStatusDetail}"]
  else .ok ()

/-- The data of the final response, if there are any. -/
def NegotiatedParams.applyResponse (params : NegotiatedParams) (resp : Pdu) :
    Except Error NegotiatedParams :=
  match resp.data with
  | some respData => params.applyTargetResponse respData
  | none => .ok params

namespace LoginManager

def new (initiator target : String) : LoginManager where
  isid := ⟨[0x80,0x00,0x00,0x00,0x00,0x01],rfl⟩
  initiatorName := initiator
  targetName := target

def buildSecurityText (m : LoginManager) : String :=
  s!"InitiatorName={m.initiatorName}\x00TargetName={m.targetName}\x00" ++
    "SessionType=Normal\x00AuthMethod=None\x00"

def securityRequest (m : LoginManager) (cid : BitVec 16) : Pdu :=
  let data := utf8 m.buildSecurityText
  ⟨(Bhs.buildLoginRequest m.isid 0 cid 1 1 0 0 1 true).setDataSegmentLength data.length,none,
    some data⟩

def securityPhase (m : LoginManager) (cid : BitVec 16) (exchange : Pdu → Except Error Pdu) :
    Except Error (BitVec 16) := do
  let resp ← exchange (m.securityRequest cid)
  checkLoginResponse "security" resp
  pure resp.bhs.tsih

def operationalRequest (m : LoginManager) (cid tsih : BitVec 16)
    (customParams : Option NegotiatedParams) : Pdu :=
  let data := utf8 (match customParams with
    | some p => p.buildOperationalTextFrom
    | none => NegotiatedParams.buildOperationalText)
  ⟨(Bhs.buildLoginRequest m.isid tsih cid 2 2 1 1 3 true).setDataSegmentLength data.length,none,
    some data⟩

def operationalPhaseWithParams (m : LoginManager) (cid tsih : BitVec 16)
    (customParams : Option NegotiatedParams) (exchange : Pdu → Except Error Pdu) :
    Except Error (NegotiatedParams × BitVec 32 × BitVec 32) := do
  let resp ← exchange (m.operationalRequest cid tsih customParams)
  checkLoginResponse "operational" resp
  let params ← (customParams.getD .defaults10g).applyResponse resp
  pure (params,resp.bhs.expCmdSn,resp.bhs.statSn+1)

def loginWithParams (m : LoginManager) (cid : BitVec 16) (customParams : Option NegotiatedParams)
    (exchange : Pdu → Except Error Pdu) : Except Error LoginResult := do
  let tsih ← m.securityPhase cid exchange
  let (negotiated,initialCmdSn,initialExpStatSn) ←
    m.operationalPhaseWithParams cid tsih customParams exchange
  pure ⟨tsih,negotiated,initialCmdSn,initialExpStatSn⟩

end LoginManager

/-- A Login Response of status class 0. -/
def Pdu.LoginAccepted (p : Pdu) : Prop :=
  p.bhs.opcode = .loginResponse ∧ p.bhs.loginStatusClass = 0

structure Pdu.Transits (p : Pdu) (csg nsg : UInt8) : Prop where
  accepted : p.LoginAccepted
  transit : p.bhs.flags &&& 0x80 ≠ 0
  complete : p.bhs.flags &&& 0x40 = 0
  current : (p.bhs.flags >>> 2) &&& 0x03 = csg
  next : p.bhs.flags &&& 0x03 = nsg

theorem checkLoginResponse_eq_ok (phase : String) {p : Pdu} {u : Unit} :
    checkLoginResponse phase p = .ok u ↔ p.LoginAccepted := by
  unfold checkLoginResponse Pdu.LoginAccepted
  split
  · rename_i h
    simp [h]
  · rename_i h
    split <;> simp_all

theorem byte_transits : ∀ n, n < 256 →
    ((UInt8.ofNat n &&& 0x80 ≠ 0 ∧ UInt8.ofNat n &&& 0x40 = 0 ∧ (UInt8.ofNat n >>> 2) &&& 0x03 = 0 ∧
      UInt8.ofNat n &&& 0x03 = 1) ↔ UInt8.ofNat n &&& 0xCF = 0x81) ∧
    ((UInt8.ofNat n &&& 0x80 ≠ 0 ∧ UInt8.ofNat n &&& 0x40 = 0 ∧ (UInt8.ofNat n >>> 2) &&& 0x03 = 1 ∧
      UInt8.ofNat n &&& 0x03 = 3) ↔ UInt8.ofNat n &&& 0xCF = 0x87) := by
  decide +kernel

theorem transits_iff {p : Pdu} (h : p.LoginAccepted) :
    (p.Transits 0 1 ↔ p.bhs.flags &&& 0xCF = 0x81) ∧
    (p.Transits 1 3 ↔ p.bhs.flags &&& 0xCF = 0x87) := by
  have hbits : ∀ f : UInt8,
      ((f &&& 0x80 ≠ 0 ∧ f &&& 0x40 = 0 ∧ (f >>> 2) &&& 0x03 = 0 ∧ f &&& 0x03 = 1) ↔
        f &&& 0xCF = 0x81) ∧
      ((f &&& 0x80 ≠ 0 ∧ f &&& 0x40 = 0 ∧ (f >>> 2) &&& 0x03 = 1 ∧ f &&& 0x03 = 3) ↔
        f &&& 0xCF = 0x87) := by
    intro f
    rw [← f.ofNat_toNat]
    exact byte_transits f.toNat f.toNat_lt
  constructor
  · rw [← (hbits p.bhs.flags).1]
    exact ⟨fun ht => ⟨ht.transit,ht.complete,ht.current,ht.next⟩,
      fun ⟨ht,hc,hs,hn⟩ => ⟨h,ht,hc,hs,hn⟩⟩
  · rw [← (hbits p.bhs.flags).2]
    exact ⟨fun ht => ⟨ht.transit,ht.complete,ht.current,ht.next⟩,
      fun ⟨ht,hc,hs,hn⟩ => ⟨h,ht,hc,hs,hn⟩⟩

namespace LoginManager

variable {m : LoginManager} {cid tsih : BitVec 16} {customParams : Option NegotiatedParams}
  {exchange : Pdu → Except Error Pdu}

theorem securityPhase_eq_ok : m.securityPhase cid exchange = .ok tsih ↔
    ∃ p, exchange (m.securityRequest cid) = .ok p ∧ p.LoginAccepted ∧ p.bhs.tsih = tsih := by
  unfold securityPhase
  simp only [bind_eq_ok,checkLoginResponse_eq_ok,exists_const,pure,Except.pure,Except.ok.injEq]

theorem operationalPhase_eq_ok {r : NegotiatedParams × BitVec 32 × BitVec 32} :
    m.operationalPhaseWithParams cid tsih customParams exchange = .ok r ↔
      ∃ p, exchange (m.operationalRequest cid tsih customParams) = .ok p ∧ p.LoginAccepted ∧
        ∃ q, (customParams.getD .defaults10g).applyResponse p = .ok q ∧
          r = (q,p.bhs.expCmdSn,p.bhs.statSn+1) := by
  unfold operationalPhaseWithParams
  simp only [bind_eq_ok,checkLoginResponse_eq_ok,exists_const,pure,Except.pure,Except.ok.injEq,
    @eq_comm _ r]

theorem loginWithParams_eq_ok {r : LoginResult} :
    m.loginWithParams cid customParams exchange = .ok r ↔
      ∃ p₁ p₂, (exchange (m.securityRequest cid) = .ok p₁ ∧ p₁.LoginAccepted) ∧
        (exchange (m.operationalRequest cid p₁.bhs.tsih customParams) = .ok p₂ ∧ p₂.LoginAccepted) ∧
        ∃ q, (customParams.getD .defaults10g).applyResponse p₂ = .ok q ∧
          r = ⟨p₁.bhs.tsih,q,p₂.bhs.expCmdSn,p₂.bhs.statSn+1⟩ := by
  unfold loginWithParams
  constructor
  · intro h
    obtain ⟨tsih,hs,h⟩ := bind_eq_ok.mp h
    obtain ⟨o,ho,h⟩ := bind_eq_ok.mp h
    obtain ⟨p₁,h₁,ha₁,rfl⟩ := securityPhase_eq_ok.mp hs
    obtain ⟨p₂,h₂,ha₂,q,hq,rfl⟩ := operationalPhase_eq_ok.mp ho
    exact ⟨p₁,p₂,⟨h₁,ha₁⟩,⟨h₂,ha₂⟩,q,hq,(Except.ok.inj h).symm⟩
  · intro ⟨p₁,p₂,⟨h₁,ha₁⟩,⟨h₂,ha₂⟩,q,hq,hr⟩
    exact bind_eq_ok.mpr ⟨_,securityPhase_eq_ok.mpr ⟨p₁,h₁,ha₁,rfl⟩,
      bind_eq_ok.mpr ⟨_,operationalPhase_eq_ok.mpr ⟨p₂,h₂,ha₂,q,hq,rfl⟩,congrArg _ hr.symm⟩⟩

/-- The target answered each request by moving on as it was asked to. -/
def Agreed (m : LoginManager) (cid : BitVec 16) (customParams : Option NegotiatedParams)
    (exchange : Pdu → Except Error Pdu) : Prop :=
  ∃ p₁ p₂, exchange (m.securityRequest cid) = .ok p₁ ∧ p₁.Transits 0 1 ∧
    exchange (m.operationalRequest cid p₁.bhs.tsih customParams) = .ok p₂ ∧ p₂.Transits 1 3

/-- A login that returns a result has the target's agreement exactly when the flags of the two
responses, wherever both phases accept the rest of them, are those of the two transitions. -/
theorem login_agreed_iff (m : LoginManager) (cid : BitVec 16)
    (customParams : Option NegotiatedParams) (exchange : Pdu → Except Error Pdu) :
    (∀ r, m.loginWithParams cid customParams exchange = .ok r →
      m.Agreed cid customParams exchange) ↔
    ∀ p₁ p₂ q, exchange (m.securityRequest cid) = .ok p₁ → p₁.LoginAccepted →
      exchange (m.operationalRequest cid p₁.bhs.tsih customParams) = .ok p₂ → p₂.LoginAccepted →
      (customParams.getD .defaults10g).applyResponse p₂ = .ok q →
        p₁.bhs.flags &&& 0xCF = 0x81 ∧ p₂.bhs.flags &&& 0xCF = 0x87 := by
  constructor
  · intro h p₁ p₂ q h₁ ha₁ h₂ ha₂ hq
    obtain ⟨p₁',p₂',h₁',ht₁,h₂',ht₂⟩ :=
      h _ (loginWithParams_eq_ok.mpr ⟨p₁,p₂,⟨h₁,ha₁⟩,⟨h₂,ha₂⟩,q,hq,rfl⟩)
    obtain rfl : p₁' = p₁ := Except.ok.inj (h₁'.symm.trans h₁)
    obtain rfl : p₂' = p₂ := Except.ok.inj (h₂'.symm.trans h₂)
    exact ⟨(transits_iff ha₁).1.mp ht₁,(transits_iff ha₂).2.mp ht₂⟩
  · intro h r hr
    obtain ⟨p₁,p₂,⟨h₁,ha₁⟩,⟨h₂,ha₂⟩,q,hq,_⟩ := loginWithParams_eq_ok.mp hr
    obtain ⟨hf₁,hf₂⟩ := h p₁ p₂ q h₁ ha₁ h₂ ha₂ hq
    exact ⟨p₁,p₂,h₁,(transits_iff ha₁).1.mpr hf₁,h₂,(transits_iff ha₂).2.mpr hf₂⟩

end LoginManager

def loginResponse (flags : UInt8) : Pdu :=
  ⟨Bhs.syncRawFromFields { Bhs.newZeroed with opcode := .loginResponse, flags := flags },none,none⟩

/-- A target that stays in the operational stage and has more text to send. -/
def continuing (request : Pdu) : Except Error Pdu :=
  if request.bhs.itt = 1 then .ok (loginResponse 0x81) else .ok (loginResponse 0x44)

theorem login_before_agreement :
    ∃ r, (LoginManager.new "initiator" "target").loginWithParams 0 none continuing = .ok r ∧
      ¬ (LoginManager.new "initiator" "target").Agreed 0 none continuing := by
  refine ⟨⟨0,.defaults10g,0,1⟩,by rfl,?_⟩
  intro ⟨p₁,p₂,_,_,h₂,ht⟩
  obtain rfl : loginResponse 0x44 = p₂ := Except.ok.inj h₂
  exact absurd ht.transit (by decide)

end IscsiFuse.Iscsi
