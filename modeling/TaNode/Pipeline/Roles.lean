import TaNode.Correlation.Lifetimes
import TaNode.Correlation.Growth
import TaNode.Pipeline.Dispatch

/-! Who is the client of a session.

    A SYN, a SYN-ACK, a request or a response says which endpoint of its packet is the client. The
    first such evidence sets the client of the session, evidence for the other endpoint sets the
    conflict mark, and neither is ever taken back:

        evidence   a    a    -    b    a
        client     a    a    a    a    a
        conflict                  ×    ×
        label      →    →    ←    ?    ?

    So within a lifetime the label of a packet depends on its source alone until the conflict, and
    is unknown from then on. -/

namespace TaNode.Pipeline
open Correlation

/-! ### Labels and evidence -/

/-- A packet the parser makes of some frame. -/
def Parsed (pf : PacketFeature) : Prop :=
  ∃ (decode : Bytes → Option Dns) (now : UInt64) (f : Frame), parse decode now f.packet = .ok pf

def source (pf : PacketFeature) : String := endpoint pf.srcIP pf.srcPort

def dest (pf : PacketFeature) : String := endpoint pf.dstIP pf.dstPort

/-- The transport direction `Observe` gave to a packet. -/
def label (m : Met) : TransportDirection := m.obs.direction.transportDirection

def opposite : TransportDirection → TransportDirection
  | .unknown => .unknown
  | .clientToServer => .serverToClient
  | .serverToClient => .clientToServer

/-- The endpoint a packet shows to be the client, if it shows one. -/
def evidenceOf (pf : PacketFeature) : Option String :=
  if pf.proto ≠ .tcp ∨ roleCandidate pf = "" then none else some (roleCandidate pf)

def evidence (ms : List Met) : List String := ms.filterMap fun m => evidenceOf m.packet

/-- Packets that show two clients. -/
def Contradictory (ms : List Met) : Prop := ∃ a ∈ evidence ms, ∃ b ∈ evidence ms, a ≠ b

/-- The labels of a lifetime agree. -/
structure Consistent (ms : List Met) : Prop where
  same : ∀ m₁ ∈ ms, ∀ m₂ ∈ ms, label m₁ ≠ .unknown → label m₂ ≠ .unknown →
    source m₁.packet = source m₂.packet → label m₂ = label m₁
  distinct : ∀ m₁ ∈ ms, ∀ m₂ ∈ ms, label m₁ ≠ .unknown → label m₂ ≠ .unknown →
    source m₁.packet ≠ source m₂.packet → label m₂ = opposite (label m₁)
  conflict : ∀ before m, (before ++ [m]) <+: ms → Contradictory (before ++ [m]) →
    label m = .unknown

/-! ### What the calls keep of the roles -/

/-- A session with the same key and the same roles. -/
structure SameRoles (st st' : SessionState) : Prop where
  key : st'.key = st.key
  client : st'.directionClient = st.directionClient
  conflict : st'.directionConflict = st.directionConflict

variable {lib : Lib} {limits : Limits} {st st' : SessionState}

theorem SameRoles.trans {st'' : SessionState} (h₁ : SameRoles st st') (h₂ : SameRoles st' st'') :
    SameRoles st st'' :=
  ⟨h₂.key.trans h₁.key, h₂.client.trans h₁.client, h₂.conflict.trans h₁.conflict⟩

theorem sweep_roles {now : UInt64} (h : (sweep lib limits now st).1 = some st') :
    SameRoles st st' := by
  simp only [sweep] at h
  split at h
  · cases h
  · obtain rfl := Option.some.inj h
    exact ⟨rfl, rfl, rfl⟩

theorem attach_roles (pf : PacketFeature) (n : UInt64) :
    SameRoles st (attach lib limits st pf n).1 :=
  attach_rule (fun _ _ _ h => ⟨h.key, h.client, h.conflict⟩) (fun _ _ h => ⟨h.key, h.client, h.conflict⟩)
    (fun _ _ h => ⟨h.key, h.client, h.conflict⟩) (fun _ _ h => ⟨h.key, h.client, h.conflict⟩)
    ⟨rfl, rfl, rfl⟩

theorem settle_roles (chosen : Option Nat) (pf : PacketFeature) :
    SameRoles st (settle lib limits st chosen pf).1 := by
  rcases @settle_cases lib limits st chosen pf with ⟨-, h⟩ | ⟨-, h | ⟨i, tx, -, -, h⟩⟩ <;>
    rw [h] <;> exact ⟨rfl, rfl, rfl⟩

/-- The continuation of a message has its message direction refined, not its transport direction. -/
theorem refineDirection_transport (st : SessionState) (pf : PacketFeature)
    (d : DirectionAssessment) :
    (refineDirection lib st pf d).transportDirection = d.transportDirection := by
  have hinfer : ∀ tx, (inferHTTPContinuation lib d st tx pf).transportDirection =
      d.transportDirection := by
    intro tx
    rw [inferHTTPContinuation]
    split
    · rfl
    split
    · rfl
    dsimp only
    generalize (if decide (endpoint pf.srcIP pf.srcPort = st.directionClient) = true then tx.request
      else tx.response) = side
    split
    · rfl
    split
    · rfl
    split
    · rfl
    split
    · rfl
    split
    · rfl
    · rfl
  rw [refineDirection]
  split
  · split
    · exact hinfer _
    · rfl
  · rfl

theorem packetDirection_transport (pf : PacketFeature) :
    (packetDirection pf).transportDirection = .unknown := by
  rw [packetDirection]
  split
  · rfl
  · rfl

/-- The roles of a session after a packet. -/
theorem tally_roles (st : SessionState) (pf : PacketFeature) :
    SameRoles (assessDirection { st with lastUsec := max st.lastUsec pf.packetTimeUsec } pf).1
        (tally st pf).1 ∧
      (tally st pf).2 =
        (assessDirection { st with lastUsec := max st.lastUsec pf.packetTimeUsec } pf).2 := by
  rw [tally]
  dsimp only
  split
  · exact ⟨⟨rfl, rfl, rfl⟩, rfl⟩
  · exact ⟨⟨rfl, rfl, rfl⟩, rfl⟩

/-- The label a client gives a packet. -/
def roleLabel (client : String) (pf : PacketFeature) : TransportDirection :=
  if source pf = client then .clientToServer else .serverToClient

/-- One packet and the roles of its session: the client is set by the first evidence and the
    conflict by evidence for another, and the label follows from the two. -/
structure Assessed (st st' : SessionState) (pf : PacketFeature) (l : TransportDirection) : Prop where
  client : st'.directionClient =
    if st.directionClient = "" then (evidenceOf pf).getD "" else st.directionClient
  conflict : st'.directionConflict = true ↔ st.directionConflict = true ∨
    st.directionClient ≠ "" ∧ ∃ c, evidenceOf pf = some c ∧ c ≠ st.directionClient
  unknown : st'.directionConflict = true → l = .unknown
  labelled : l = .unknown ∨ st'.directionClient ≠ "" ∧ l = roleLabel st'.directionClient pf

theorem assessDirection_assessed (st : SessionState) (pf : PacketFeature) :
    Assessed st (assessDirection st pf).1 pf (assessDirection st pf).2.transportDirection := by
  have hplain := packetDirection_transport pf
  by_cases htcp : pf.proto = .tcp
  · by_cases hcand : roleCandidate pf = ""
    · have hnone : evidenceOf pf = none := if_pos (.inr hcand)
      rw [assessDirection, if_neg (not_not.mpr htcp)]
      dsimp only
      rw [if_pos hcand]
      by_cases hset : st.directionClient ≠ "" ∧ ¬ st.directionConflict
      · rw [if_pos hset]
        refine ⟨by rw [if_neg hset.1], by simp [hnone], fun h => absurd h hset.2,
          .inr ⟨hset.1, rfl⟩⟩
      · rw [if_neg hset]
        refine ⟨?_, by simp [hnone], fun _ => hplain, .inl hplain⟩
        rw [hnone]
        split
        · assumption
        · rfl
    · have hsome : evidenceOf pf = some (roleCandidate pf) := if_neg (by simp [htcp, hcand])
      rw [assessDirection, if_neg (not_not.mpr htcp)]
      dsimp only
      rw [if_neg hcand]
      by_cases hempty : st.directionClient = ""
      · rw [if_pos hempty]
        dsimp only
        by_cases hconflict : st.directionConflict = true
        · rw [if_neg (by simp [hconflict])]
          exact ⟨by simp [hempty, hsome], by simp [hempty], fun _ => hplain, .inl hplain⟩
        · rw [if_pos ⟨hcand, hconflict⟩]
          exact ⟨by simp [hempty, hsome], by simp [hempty], fun h => absurd h hconflict,
            .inr ⟨hcand, rfl⟩⟩
      · rw [if_neg hempty]
        by_cases hother : st.directionClient ≠ roleCandidate pf
        · rw [if_pos hother]
          dsimp only
          rw [if_neg (by simp)]
          refine ⟨by simp [hempty], by simp [hempty, hsome, Ne.symm hother], fun _ => hplain,
            .inl hplain⟩
        · rw [if_neg hother]
          have hagree : st.directionClient = roleCandidate pf := not_not.mp hother
          by_cases hconflict : st.directionConflict = true
          · rw [if_neg (by simp [hconflict])]
            exact ⟨by simp [hempty], by simp [hconflict], fun _ => hplain, .inl hplain⟩
          · rw [if_pos ⟨hempty, hconflict⟩]
            exact ⟨by simp [hempty], by simp [hconflict, hsome, hagree], fun h => absurd h hconflict,
              .inr ⟨hempty, rfl⟩⟩
  · have hnone : evidenceOf pf = none := if_pos (.inl htcp)
    rw [assessDirection, if_pos htcp]
    refine ⟨?_, by simp [hnone], fun _ => hplain, .inl hplain⟩
    rw [hnone]
    split
    · assumption
    · rfl

theorem observed_assessed (orders : Orders) (t : Tracker) (pf : PacketFeature) (n : UInt64) :
    Assessed (found lib limits orders t pf).1 (observed lib limits orders t pf n).1 pf
      (observe lib limits orders t pf n).2.direction.transportDirection := by
  have hassessed := assessDirection_assessed { (found lib limits orders t pf).1 with
    lastUsec := max (found lib limits orders t pf).1.lastUsec pf.packetTimeUsec } pf
  obtain ⟨hroles, hdirection⟩ := tally_roles (found lib limits orders t pf).1 pf
  have hafter := hroles.trans ((@attach_roles lib limits _ pf n).trans (@settle_roles lib limits _
      (attach lib limits (tally (found lib limits orders t pf).1 pf).1 pf n).2 pf))
  have hlabel : (observe lib limits orders t pf n).2.direction.transportDirection =
      (tally (found lib limits orders t pf).1 pf).2.transportDirection :=
    refineDirection_transport _ pf _
  rw [hlabel, hdirection]
  refine ⟨?_, ?_, ?_, ?_⟩
  · rw [observed, hafter.client]
    exact hassessed.client
  · rw [observed, hafter.conflict]
    exact hassessed.conflict
  · rw [observed, hafter.conflict]
    exact hassessed.unknown
  · rw [observed, hafter.client]
    exact hassessed.labelled

/-! ### The roles of a lifetime -/

/-- Addresses without the mark of the session keys. -/
def Plain (pf : PacketFeature) : Prop := '|' ∉ pf.srcIP.toList ∧ '|' ∉ pf.dstIP.toList

theorem Parsed.plain {pf : PacketFeature} (h : Parsed pf) : Plain pf := by
  obtain ⟨_, _, _, h⟩ := h
  exact parse_addresses_notMem (by decide) (by decide) (by decide) (by decide) h

/-- A session beside the packets of its lifetime. -/
structure Roled (st : SessionState) (ms : List Met) : Prop where
  plain : ∀ m ∈ ms, Plain m.packet ∧ (canonicalKey m.packet).1 = st.key
  first : st.directionClient = "" → evidence ms = [] ∧ st.directionConflict = false
  shown : st.directionClient ≠ "" → ∃ m ∈ ms, evidenceOf m.packet = some st.directionClient
  agree : st.directionConflict = false → ∀ c ∈ evidence ms, c = st.directionClient
  labelled : ∀ m ∈ ms, label m = .unknown ∨
    st.directionClient ≠ "" ∧ label m = roleLabel st.directionClient m.packet
  conflict : ∀ before m, (before ++ [m]) <+: ms → Contradictory (before ++ [m]) →
    label m = .unknown

theorem evidenceOf_spec {pf : PacketFeature} {c : String} (h : evidenceOf pf = some c) :
    c ≠ "" ∧ (c = source pf ∨ c = dest pf) := by
  rw [evidenceOf] at h
  split at h
  · cases h
  · rename_i hcand
    rw [not_or] at hcand
    obtain rfl := Option.some.inj h
    refine ⟨hcand.2, ?_⟩
    have hne := hcand.2
    simp only [roleCandidate] at hne ⊢
    split
    · split
      · exact .inr rfl
      · exact .inl rfl
    · rename_i hsyn
      rw [if_neg hsyn] at hne
      cases hdir : pf.messageDirection with
      | none => exact absurd (by rw [hdir]) hne
      | request => exact .inl rfl
      | response => exact .inr rfl

theorem evidence_append (ms : List Met) (m : Met) :
    evidence (ms ++ [m]) = evidence ms ++ (evidenceOf m.packet).toList := by
  rw [evidence, List.filterMap_append, ← evidence]
  cases h : evidenceOf m.packet with
  | none | some => simp [h]

namespace Roled
variable {ms : List Met}

theorem sameRoles (h : Roled st ms) (hsame : SameRoles st st') : Roled st' ms := by
  obtain ⟨hkey, hclient, hconflict⟩ := hsame
  exact ⟨by rw [hkey]; exact h.plain, by rw [hclient, hconflict]; exact h.first,
    by rw [hclient]; exact h.shown, by rw [hclient, hconflict]; exact h.agree,
    by rw [hclient]; exact h.labelled, h.conflict⟩

theorem assessed (h : Roled st ms) {m : Met} (hplain : Plain m.packet)
    (hkey : (canonicalKey m.packet).1 = st.key) (hkey' : st'.key = st.key)
    (ha : Assessed st st' m.packet (label m)) : Roled st' (ms ++ [m]) := by
  have hclient : st.directionClient ≠ "" → st'.directionClient = st.directionClient :=
    fun hne => ha.client.trans (if_neg hne)
  have hagree : st'.directionConflict = false → ∀ c ∈ evidence (ms ++ [m]),
      c = st'.directionClient := by
    intro hfalse c hc
    have hnot : ¬ (st.directionConflict = true ∨ st.directionClient ≠ "" ∧
        ∃ c, evidenceOf m.packet = some c ∧ c ≠ st.directionClient) :=
      fun hyes => by rw [ha.conflict.mpr hyes] at hfalse; cases hfalse
    rw [not_or] at hnot
    have hclear : st.directionConflict = false := by simpa using hnot.1
    rw [evidence_append] at hc
    rcases List.mem_append.mp hc with hold | hnew
    · have hne : st.directionClient ≠ "" := fun hempty => by
        rw [(h.first hempty).1] at hold
        cases hold
      rw [hclient hne]
      exact h.agree hclear c hold
    · have hsome : evidenceOf m.packet = some c := Option.mem_toList.mp hnew
      by_cases hempty : st.directionClient = ""
      · rw [ha.client, if_pos hempty, hsome]
        rfl
      · rw [hclient hempty]
        by_contra hne
        exact hnot.2 ⟨hempty, c, hsome, hne⟩
  refine ⟨fun m' hm' => ?_, fun hempty => ?_, fun hne => ?_, hagree, fun m' hm' => ?_,
    fun before m' hbefore hcontra => ?_⟩
  · rw [hkey']
    rcases List.mem_append.mp hm' with hold | hnew
    · exact h.plain m' hold
    · rw [List.mem_singleton.mp hnew]
      exact ⟨hplain, hkey⟩
  · -- the client is still not set, so the packet showed none
    have hbefore : st.directionClient = "" := by
      by_contra hne
      exact hne ((hclient hne).symm.trans hempty)
    obtain ⟨hnone, hclear⟩ := h.first hbefore
    have hpacket : evidenceOf m.packet = none := by
      rw [ha.client, if_pos hbefore] at hempty
      cases hev : evidenceOf m.packet with
      | none => rfl
      | some c =>
        rw [hev] at hempty
        exact absurd hempty (evidenceOf_spec hev).1
    refine ⟨by rw [evidence_append, hnone, hpacket]; rfl, ?_⟩
    rw [← Bool.not_eq_true, ha.conflict]
    rintro (hold | ⟨hset, -⟩)
    · rw [hclear] at hold
      cases hold
    · exact hset hbefore
  · by_cases hempty : st.directionClient = ""
    · rw [ha.client, if_pos hempty] at hne ⊢
      cases hev : evidenceOf m.packet with
      | none => exact absurd (by rw [hev]; rfl) hne
      | some c => exact ⟨m, List.mem_append_right _ List.mem_cons_self, hev⟩
    · obtain ⟨m', hm', hev⟩ := h.shown hempty
      exact ⟨m', List.mem_append_left _ hm', by rw [hclient hempty]; exact hev⟩
  · rcases List.mem_append.mp hm' with hold | hnew
    · rcases h.labelled m' hold with hunknown | ⟨hne, hlabel⟩
      · exact .inl hunknown
      · rw [hclient hne]
        exact .inr ⟨hne, hlabel⟩
    · rw [List.mem_singleton.mp hnew]
      exact ha.labelled
  · rcases List.prefix_concat_iff.mp hbefore with heq | hold
    · obtain ⟨rfl, hlast⟩ := List.append_inj' heq rfl
      obtain rfl := List.singleton_inj.mp hlast
      obtain ⟨a, ha', b, hb, hab⟩ := hcontra
      refine ha.unknown ?_
      by_contra hfalse
      have hclear : st'.directionConflict = false := by simpa using hfalse
      exact hab ((hagree hclear a ha').trans (hagree hclear b hb).symm)
    · exact h.conflict before m' hold hcontra

/-- The client of a session is one of the endpoints of each of its packets. -/
theorem endpoint_client (h : Roled st ms) (hne : st.directionClient ≠ "") {m : Met} (hm : m ∈ ms) :
    st.directionClient = source m.packet ∨ st.directionClient = dest m.packet := by
  obtain ⟨m₀, hm₀, hev⟩ := h.shown hne
  obtain ⟨hplain₀, hkey₀⟩ := h.plain m₀ hm₀
  obtain ⟨hplain, hkey⟩ := h.plain m hm
  obtain ⟨-, hends⟩ := canonicalKey_endpoints hplain₀ hplain (hkey₀.trans hkey.symm)
  rcases (evidenceOf_spec hev).2 with hclient | hclient <;> rw [hclient]
  · rcases hends with ⟨hsource, -⟩ | ⟨hsource, -⟩
    · exact .inl hsource
    · exact .inr hsource
  · rcases hends with ⟨-, hdest⟩ | ⟨-, hdest⟩
    · exact .inr hdest
    · exact .inl hdest

theorem consistent (h : Roled st ms) : Consistent ms := by
  have hlabel : ∀ m ∈ ms, label m ≠ .unknown →
      st.directionClient ≠ "" ∧ label m = roleLabel st.directionClient m.packet :=
    fun m hm hknown => (h.labelled m hm).resolve_left hknown
  refine ⟨fun m₁ hm₁ m₂ hm₂ h₁ h₂ hsource => ?_, fun m₁ hm₁ m₂ hm₂ h₁ h₂ hsource => ?_, h.conflict⟩
  · rw [(hlabel m₁ hm₁ h₁).2, (hlabel m₂ hm₂ h₂).2, roleLabel, roleLabel, hsource]
  · obtain ⟨hne, hlabel₁⟩ := hlabel m₁ hm₁ h₁
    obtain ⟨hplain₁, hkey₁⟩ := h.plain m₁ hm₁
    obtain ⟨hplain₂, hkey₂⟩ := h.plain m₂ hm₂
    obtain ⟨-, hends⟩ := canonicalKey_endpoints hplain₁ hplain₂ (hkey₁.trans hkey₂.symm)
    have hdest : dest m₁.packet = source m₂.packet := by
      rcases hends with ⟨hsame, -⟩ | ⟨-, hdest⟩
      · exact absurd hsame hsource
      · exact hdest
    rw [hlabel₁, (hlabel m₂ hm₂ h₂).2, roleLabel, roleLabel]
    rcases h.endpoint_client hne hm₁ with hclient | hclient
    · rw [hclient, if_pos rfl, if_neg (Ne.symm hsource)]
      rfl
    · rw [hclient, hdest, if_pos rfl, if_neg hsource]
      rfl

end Roled

theorem roled_rule (lib : Lib) (limits : Limits) :
    SessionRule lib limits (fun _ _ pf _ => Parsed pf) Roled where
  fresh pf :=
    ⟨fun _ hm => (List.not_mem_nil hm).elim, fun _ => ⟨rfl, rfl⟩, fun h => absurd rfl h,
      fun _ _ hc => (List.not_mem_nil hc).elim, fun _ hm => (List.not_mem_nil hm).elim,
      fun before m h => absurd (List.prefix_nil.mp h) (by simp)⟩
  swept hswept h := h.sameRoles (sweep_roles hswept)
  hit h := h.sameRoles ⟨rfl, rfl, rfl⟩
  put _ _ _ h := h.sameRoles ⟨rfl, rfl, rfl⟩
  packet := by
    intro t orders pf n ms life hparsed h
    have hkey : (observed lib limits orders t pf n).1.key = (found lib limits orders t pf).1.key :=
      (observed_key n t).trans (found_key orders t pf).symm
    exact h.assessed hparsed.plain (found_key orders t pf).symm hkey
      (observed_assessed orders t pf n)

/-- In every lifetime of every run, packets of one source have one label, packets of the two
    endpoints have opposite labels, and from contradictory evidence on the label is unknown. -/
theorem roles_consistent (lib : Lib) (limits : Limits) {tr : Diary}
    (hrun : DiaryRun lib limits (fun _ _ pf _ => Parsed pf) tr) (key : String) (life : Nat) :
    Consistent (tr.lifetime key life) := by
  have hnil : Consistent [] :=
    ⟨fun _ hm => (List.not_mem_nil hm).elim, fun _ hm => (List.not_mem_nil hm).elim,
      fun before m h => absurd (List.prefix_nil.mp h) (by simp)⟩
  exact ((roled_rule lib limits).run (fun _ _ h => h.consistent) hnil hrun).shown key life

/-- A packet of the opening frame and the answer to it. -/
def handshake : PacketFeature × PacketFeature :=
  (((parse (fun _ => none) 0 opening.packet).toOption).getD {},
    ((parse (fun _ => none) 0 answer.packet).toOption).getD {})

theorem handshake_parsed : Parsed handshake.1 ∧ Parsed handshake.2 :=
  ⟨⟨fun _ => none, 0, opening, rfl⟩, ⟨fun _ => none, 0, answer, rfl⟩⟩

/-- The two packets of a handshake have opposite labels. -/
theorem roles_consistent_handshake :
    let tr := (Diary.observe sampleLib defaults {} {} handshake.1 0).observe sampleLib defaults {}
      handshake.2 0
    Consistent (tr.lifetime (canonicalKey handshake.1).1 0) ∧
      (tr.lifetime (canonicalKey handshake.1).1 0).map label = [.clientToServer, .serverToClient] :=
  ⟨roles_consistent sampleLib defaults
    (.next (.next (.start rfl) (.observe {} _ 0 handshake_parsed.1))
      (.observe {} _ 0 handshake_parsed.2)) _ _, by decide +kernel⟩

end TaNode.Pipeline
