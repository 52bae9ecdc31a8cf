import MonsterMQ.AuthAcl
import MonsterMQ.PeerLinkFrame
import MonsterMQ.StateRuns

/-!
# PeerLink handshake

The MAC inputs of `internal/peerlink/wire/mac.go`, the source's HELLO checks (`Manager.checkHello`) and the
consumer's checks of HELLO_OK (`puller.handshake`), then a network of such nodes under an attacker who
delivers any frame to any of them.
-/

namespace MonsterMQ.PeerLink

open LittleEndian List
open Auth (ascii)

/-- `lp(x)`: a 16-bit length before the bytes, cut to what the length can say. -/
def appendLP (x : Bytes) : Bytes :=
  let x := x.take 0xffff
  put16 (UInt16.ofNat x.length) ++ x

@[grind =] def macLabelConsumer : Bytes := ascii "mmq-peer/1 C"
def macLabelSource : Bytes := ascii "mmq-peer/1 S"

def consumerMACInput (nonceS nonceC : Bytes32) (consumerID sourceID exporter : Bytes) : Bytes :=
  appendLP macLabelConsumer ++ (appendLP nonceS.bytes ++ (appendLP nonceC.bytes ++
    (appendLP consumerID ++ (appendLP sourceID ++ appendLP exporter))))

def sourceMACInput (nonceC nonceS : Bytes32) (sourceID consumerID exporter : Bytes) : Bytes :=
  appendLP macLabelSource ++ (appendLP nonceC.bytes ++ (appendLP nonceS.bytes ++
    (appendLP sourceID ++ (appendLP consumerID ++ appendLP exporter))))

@[grind =] def matchMAC (MAC : Bytes → Bytes → Bytes32) (secrets : List Bytes) (input : Bytes) (mac : Bytes32) :
    Option ℕ :=
  secrets.findIdx? fun s => MAC s input = mac

theorem appendLP_of_short {x : Bytes} (h : x.length < 65536) : appendLP x = put 2 x.length ++ x := by
  have htake : x.take 0xffff = x := take_of_length_le (by omega)
  rw [appendLP, htake, put16, toNat_ofNat16 h]

theorem appendLP_append_inj {x y r s : Bytes} (hx : x.length < 65536) (hy : y.length < 65536)
    (h : appendLP x ++ r = appendLP y ++ s) : x = y ∧ r = s := by
  rw [appendLP_of_short hx, appendLP_of_short hy, append_assoc, append_assoc] at h
  obtain ⟨hlen, hrest⟩ := append_inj h (by simp)
  have hsize : x.length = y.length := by
    have hget := congrArg get hlen
    rwa [get_put_of_lt hx, get_put_of_lt hy] at hget
  exact append_inj hrest hsize

private theorem appendLP_inj {x y : Bytes} (hx : x.length < 65536) (hy : y.length < 65536)
    (h : appendLP x = appendLP y) : x = y := by
  have h' : appendLP x ++ [] = appendLP y ++ [] := by rw [h]
  exact (appendLP_append_inj hx hy h').1

theorem short_bytes32 (b : Bytes32) : b.bytes.length < 65536 := by
  rw [b.length_eq]
  decide

theorem short_macLabelConsumer : macLabelConsumer.length < 65536 := by
  rw [macLabelConsumer, Auth.ascii_eq rfl]
  decide

theorem short_macLabelSource : macLabelSource.length < 65536 := by
  rw [macLabelSource, Auth.ascii_eq rfl]
  decide

private theorem macLabelConsumer_ne_source : macLabelConsumer ≠ macLabelSource := by
  rw [macLabelConsumer, macLabelSource, Auth.ascii_eq rfl, Auth.ascii_eq rfl]
  decide

theorem bytes32_inj {a b : Bytes32} (h : a.bytes = b.bytes) : a = b := by
  cases a
  cases b
  cases h
  rfl

theorem fields_inj {label : Bytes} (hlabel : label.length < 65536) {n₁ n₂ n₁' n₂' : Bytes32}
    {a b e a' b' e' : Bytes} (ha : a.length < 65536) (hb : b.length < 65536) (he : e.length < 65536)
    (ha' : a'.length < 65536) (hb' : b'.length < 65536) (he' : e'.length < 65536)
    (h : appendLP label ++ (appendLP n₁.bytes ++ (appendLP n₂.bytes ++
        (appendLP a ++ (appendLP b ++ appendLP e)))) =
      appendLP label ++ (appendLP n₁'.bytes ++ (appendLP n₂'.bytes ++
        (appendLP a' ++ (appendLP b' ++ appendLP e'))))) :
    n₁ = n₁' ∧ n₂ = n₂' ∧ a = a' ∧ b = b' ∧ e = e' := by
  obtain ⟨-, h⟩ := appendLP_append_inj hlabel hlabel h
  obtain ⟨hn₁, h⟩ := appendLP_append_inj (short_bytes32 _) (short_bytes32 _) h
  obtain ⟨hn₂, h⟩ := appendLP_append_inj (short_bytes32 _) (short_bytes32 _) h
  obtain ⟨hid, h⟩ := appendLP_append_inj ha ha' h
  obtain ⟨hid', h⟩ := appendLP_append_inj hb hb' h
  exact ⟨bytes32_inj hn₁, bytes32_inj hn₂, hid, hid', appendLP_inj he he' h⟩

structure NodeID where
  bytes : Bytes
  short : bytes.length ≤ 64
  deriving DecidableEq

/-- `strings.ToLower` as far as its result may be ASCII: beside the capital letters, the dotted
capital `I` and the Kelvin sign become ASCII letters; every other text outside ASCII stays so. -/
def lowerID : Bytes → Bytes
  | [] => []
  | 0xC4 :: 0xB0 :: r => 0x69 :: lowerID r
  | 0xE2 :: 0x84 :: 0xAA :: r => 0x6B :: lowerID r
  | b :: r => (if 0x41 ≤ b ∧ b ≤ 0x5A then b + 0x20 else b) :: lowerID r

def nodeIDByte (b : UInt8) : Bool :=
  (0x61 ≤ b && b ≤ 0x7A) || (0x30 ≤ b && b ≤ 0x39) || b == 0x2E || b == 0x5F || b == 0x2D

def canonicalNodeID (id : Bytes) : Option NodeID :=
  let c := lowerID id
  if h : c ≠ [] ∧ c.length ≤ 64 ∧ c.all nodeIDByte then some ⟨c, h.2.1⟩ else none

/-- The TLS exporter value of a connection: `ExporterLen` bytes, or none when it failed. -/
structure Exporter where
  bytes : Bytes
  length_le : bytes.length ≤ 32
  deriving DecidableEq

structure ConnectionState where
  peerCertificates : List Bytes

/-- A `consumerSlot` as far as the HELLO checks read it. -/
structure HelloSlot where
  nodeID : NodeID
  secrets : List Bytes
  requireClientCert : Bool

structure Puller where
  nodeID : NodeID
  secrets : List Bytes
  insecureSkipVerify : Bool

structure Manager where
  nodeID : NodeID
  peers : List NodeID
  consumers : List HelloSlot
  allowUnauthenticatedPeers : Bool

def Manager.consumerByID (m : Manager) (id : NodeID) : Option HelloSlot :=
  m.consumers.reverse.find? fun c => c.nodeID = id

/-- The code the two ends call: HMAC-SHA256, the certificate checks and `%q`. -/
structure Library where
  MAC : Bytes → Bytes → Bytes32
  verifyClient : List Bytes → HelloSlot → Bool
  verifyServer : List Bytes → Puller → Except Bytes Unit
  quote : Bytes → Bytes

def helloFlagMAC : UInt16 := 1

def goAwayUnknownPeer : UInt16 := 2
def goAwayNotAllowed : UInt16 := 3
def goAwayAuthFailed : UInt16 := 4
def goAwayIdentityMismatch : UInt16 := 5
def goAwaySelfConnection : UInt16 := 6
def goAwayWrongNode : UInt16 := 7

structure HelloResult where
  slot : Option HelloSlot
  secretIdx : Option ℕ
  code : UInt16
  reason : Bytes

/-- Whether the client certificate authenticates the consumer, or why it is refused. -/
def clientCertificate (lib : Library) (slot : HelloSlot) (cs : Option ConnectionState) : Except Bytes Bool :=
  match cs with
  | some ⟨c :: certs⟩ =>
    if lib.verifyClient (c :: certs) slot then .ok true
    else .error (ascii "client certificate does not match the consumer NodeId")
  | _ => if slot.requireClientCert then .error (ascii "client certificate required") else .ok false

/-- The checks of HELLO in order; the first failure wins. -/
@[grind =] def Manager.checkHello (lib : Library) (m : Manager) (h : Hello) (cs : Option ConnectionState)
    (nonceS : Bytes32) (exporter : Exporter) : HelloResult :=
  match canonicalNodeID h.consumerNodeID with
  | none => ⟨none, none, goAwayUnknownPeer, ascii "invalid consumer NodeId"⟩
  | some cid =>
    if cid = m.nodeID then
      ⟨none, none, goAwaySelfConnection, ascii "consumer NodeId equals the source NodeId"⟩
    else match m.consumerByID cid with
    | none =>
      if cid ∈ m.peers then ⟨none, none, goAwayNotAllowed, ascii "peer has Serve: false"⟩
      else ⟨none, none, goAwayUnknownPeer, ascii "consumer NodeId is not a configured peer"⟩
    | some slot =>
      if canonicalNodeID h.expectedSourceNodeID ≠ some m.nodeID then
        ⟨some slot, none, goAwayWrongNode,
          ascii "consumer expected source " ++ lib.quote h.expectedSourceNodeID⟩
      else match clientCertificate lib slot cs with
      | .error reason => ⟨some slot, none, goAwayIdentityMismatch, reason⟩
      | .ok certAuth =>
        if slot.secrets ≠ [] then
          if cs.isNone then
            ⟨some slot, none, goAwayAuthFailed, ascii "shared secret configured; plaintext not allowed"⟩
          else if h.flags &&& helloFlagMAC = 0 then
            ⟨some slot, none, goAwayAuthFailed, ascii "shared secret configured but no MAC"⟩
          else
            match matchMAC lib.MAC slot.secrets
                (consumerMACInput nonceS h.nonceC cid.bytes m.nodeID.bytes exporter.bytes) h.mac with
            | none => ⟨some slot, none, goAwayAuthFailed, ascii "MAC mismatch"⟩
            | some i => ⟨some slot, some i, 0, []⟩
        else if !certAuth && !m.allowUnauthenticatedPeers then
          ⟨some slot, none, goAwayAuthFailed, ascii "peer not authenticated"⟩
        else ⟨some slot, none, 0, []⟩

/-- Whether the consumer puts a MAC into its HELLO. -/
def Puller.sendsMAC (p : Puller) (cs : Option ConnectionState) (exporter : Exporter) : Bool :=
  cs.isSome && !p.secrets.isEmpty && !exporter.bytes.isEmpty

/-- Whether the server certificate authenticates the source, or why it is refused. -/
def serverCertificate (lib : Library) (p : Puller) (cs : Option ConnectionState) : Except Bytes Bool :=
  match cs with
  | some ⟨c :: certs⟩ =>
    if p.insecureSkipVerify then .ok false
    else match lib.verifyServer (c :: certs) p with
      | .ok () => .ok true
      | .error err => if p.secrets.isEmpty then .error (ascii "server certificate: " ++ err) else .ok false
  | _ => .ok false

/-- The checks of HELLO_OK: the secret whose MAC it carries, if one was asked for, or the code and
the reason of the refusal. -/
@[grind =] def Puller.checkHelloOK (lib : Library) (m : Manager) (p : Puller) (nonceC nonceS : Bytes32)
    (cs : Option ConnectionState) (exporter : Exporter) (ok : HelloOK) : Except (UInt16 × Bytes) (Option ℕ) :=
  let sid := canonicalNodeID ok.sourceNodeID
  if sid = some m.nodeID then .error (goAwaySelfConnection, ascii "source NodeId equals own NodeId")
  else if sid ≠ some p.nodeID then
    .error (goAwayWrongNode, ascii "source announced NodeId " ++ lib.quote ok.sourceNodeID)
  else match serverCertificate lib p cs with
  | .error reason => .error (goAwayIdentityMismatch, reason)
  | .ok certVerified =>
    if cs.isSome ∧ p.secrets ≠ [] then
      if exporter.bytes = [] then .error (goAwayAuthFailed, ascii "source MAC mismatch")
      else
        match matchMAC lib.MAC p.secrets
            (sourceMACInput nonceC nonceS p.nodeID.bytes m.nodeID.bytes exporter.bytes) ok.macS with
        | none => .error (goAwayAuthFailed, ascii "source MAC mismatch")
        | some i => .ok (some i)
    else if !certVerified && !m.allowUnauthenticatedPeers then
      .error (goAwayAuthFailed, ascii "source not authenticated")
    else .ok none

inductive Direction where
  | consumer
  | source
  deriving DecidableEq

structure Handshake where
  nonceS : Bytes32
  nonceC : Bytes32
  consumerID : NodeID
  sourceID : NodeID
  exporter : Exporter
  deriving DecidableEq

/-- A MAC under a secret: made by one end, or accepted by the other. -/
structure Tag where
  secret : Bytes
  direction : Direction
  handshake : Handshake
  deriving DecidableEq

@[grind =] def Handshake.input (t : Handshake) : Direction → Bytes
  | .consumer => consumerMACInput t.nonceS t.nonceC t.consumerID.bytes t.sourceID.bytes t.exporter.bytes
  | .source => sourceMACInput t.nonceC t.nonceS t.sourceID.bytes t.consumerID.bytes t.exporter.bytes

def Tag.input (t : Tag) : Bytes := t.handshake.input t.direction

structure Network where
  made : List Tag
  accepted : List Tag

/-- A node's turn. The attacker owns the network: the nonce a consumer is shown and the frames that
arrive are arbitrary, and any node may start or serve any number of handshakes. -/
inductive Turn where
  | hello (m : Manager) (p : Puller) (nonceS nonceC : Bytes32) (cs : Option ConnectionState)
      (exporter : Exporter)
  /-- `admitted`: the session is admitted and its resume point found, so that HELLO_OK is sent. -/
  | serve (m : Manager) (h : Hello) (cs : Option ConnectionState) (nonceS : Bytes32) (exporter : Exporter)
      (admitted : Bool)
  | conclude (m : Manager) (p : Puller) (nonceC nonceS : Bytes32) (cs : Option ConnectionState)
      (exporter : Exporter) (ok : HelloOK)

def Network.served (w : Network) (m : Manager) (h : Hello) (nonceS : Bytes32) (exporter : Exporter)
    (admitted : Bool) (slot : HelloSlot) (i : ℕ) : Network :=
  let secret := slot.secrets.getD i []
  let seen : Handshake := ⟨nonceS, h.nonceC, slot.nodeID, m.nodeID, exporter⟩
  { made := if admitted then ⟨secret, .source, seen⟩ :: w.made else w.made
    accepted := ⟨secret, .consumer, seen⟩ :: w.accepted }

@[grind =] def Network.turn (lib : Library) (w : Network) : Turn → Network
  | .hello m p nonceS nonceC cs exporter =>
    if p.sendsMAC cs exporter then
      { w with
        made := ⟨p.secrets.headD [], .consumer, ⟨nonceS, nonceC, m.nodeID, p.nodeID, exporter⟩⟩ :: w.made }
    else w
  | .serve m h cs nonceS exporter admitted =>
    let r := m.checkHello lib h cs nonceS exporter
    match r.code == 0, r.slot, r.secretIdx with
    | true, some slot, some i => w.served m h nonceS exporter admitted slot i
    | _, _, _ => w
  | .conclude m p nonceC nonceS cs exporter ok =>
    match p.checkHelloOK lib m nonceC nonceS cs exporter ok with
    | .ok (some i) =>
      { w with
        accepted := ⟨p.secrets.getD i [], .source, ⟨nonceS, nonceC, m.nodeID, p.nodeID, exporter⟩⟩ ::
          w.accepted }
    | _ => w

/-- HMAC under the secret at a check: a MAC that fits the checked input was made under the secret,
and no input it was made for collides with the checked one. -/
structure SecureAt (lib : Library) (w : Network) (t : Tag) (mac : Bytes32) : Prop where
  unforgeable : lib.MAC t.secret t.input = mac →
    ∃ e ∈ w.made, e.secret = t.secret ∧ lib.MAC t.secret e.input = mac
  collisionFree : ∀ e ∈ w.made, e.secret = t.secret →
    lib.MAC t.secret e.input = lib.MAC t.secret t.input → e.input = t.input

/-- HMAC is secure at every check a turn may make. -/
def SecureTurn (lib : Library) (w : Network) : Turn → Prop
  | .hello .. => True
  | .serve m h _ nonceS exporter _ => ∀ slot ∈ m.consumers, ∀ secret ∈ slot.secrets,
      SecureAt lib w ⟨secret, .consumer, ⟨nonceS, h.nonceC, slot.nodeID, m.nodeID, exporter⟩⟩ h.mac
  | .conclude m p nonceC nonceS _ exporter ok => ∀ secret ∈ p.secrets,
      SecureAt lib w ⟨secret, .source, ⟨nonceS, nonceC, m.nodeID, p.nodeID, exporter⟩⟩ ok.macS

theorem short_nodeID (n : NodeID) : n.bytes.length < 65536 := by
  have h := n.short
  omega

theorem short_exporter (e : Exporter) : e.bytes.length < 65536 := by
  have h := e.length_le
  omega

theorem nodeID_inj {a b : NodeID} (h : a.bytes = b.bytes) : a = b := by
  cases a
  cases b
  cases h
  rfl

theorem exporter_inj {a b : Exporter} (h : a.bytes = b.bytes) : a = b := by
  cases a
  cases b
  cases h
  rfl

theorem consumerMACInput_ne_source {n₁ n₂ n₁' n₂' : Bytes32} {a b e a' b' e' : Bytes} :
    consumerMACInput n₁ n₂ a b e ≠ sourceMACInput n₁' n₂' a' b' e' := by
  intro h
  have hlabel := appendLP_append_inj short_macLabelConsumer short_macLabelSource h
  exact macLabelConsumer_ne_source hlabel.1

theorem tag_eq_of_input {t u : Tag} (hsecret : t.secret = u.secret) (hinput : t.input = u.input) : t = u := by
  obtain ⟨s, d, ⟨nonceS, nonceC, cid, sid, e⟩⟩ := t
  obtain ⟨s', d', ⟨nonceS', nonceC', cid', sid', e'⟩⟩ := u
  obtain rfl : s = s' := hsecret
  cases d <;> cases d'
  case consumer.consumer =>
    obtain ⟨hnS, hnC, hc, hs, he⟩ := fields_inj short_macLabelConsumer (short_nodeID _) (short_nodeID _)
      (short_exporter _) (short_nodeID _) (short_nodeID _) (short_exporter _) hinput
    obtain rfl : nonceS = nonceS' := hnS
    obtain rfl : nonceC = nonceC' := hnC
    obtain rfl : cid = cid' := nodeID_inj hc
    obtain rfl : sid = sid' := nodeID_inj hs
    obtain rfl : e = e' := exporter_inj he
    rfl
  case consumer.source => exact absurd hinput consumerMACInput_ne_source
  case source.consumer => exact absurd hinput.symm consumerMACInput_ne_source
  case source.source =>
    obtain ⟨hnC, hnS, hs, hc, he⟩ := fields_inj short_macLabelSource (short_nodeID _) (short_nodeID _)
      (short_exporter _) (short_nodeID _) (short_nodeID _) (short_exporter _) hinput
    obtain rfl : nonceS = nonceS' := hnS
    obtain rfl : nonceC = nonceC' := hnC
    obtain rfl : cid = cid' := nodeID_inj hc
    obtain rfl : sid = sid' := nodeID_inj hs
    obtain rfl : e = e' := exporter_inj he
    rfl

/-- A MAC that fits at a secure check was made for the very handshake the check is about. -/
theorem mem_made_of_secure {lib : Library} {w : Network} {t : Tag} {mac : Bytes32}
    (hsecure : SecureAt lib w t mac) (hmac : lib.MAC t.secret t.input = mac) : t ∈ w.made := by
  obtain ⟨e, he, hsecret, htag⟩ := hsecure.unforgeable hmac
  have hinput := hsecure.collisionFree e he hsecret (htag.trans hmac.symm)
  rwa [tag_eq_of_input hsecret hinput] at he

theorem matchMAC_some {MAC : Bytes → Bytes → Bytes32} {secrets : List Bytes} {input : Bytes}
    {mac : Bytes32} {i : ℕ} (h : matchMAC MAC secrets input mac = some i) :
    secrets.getD i [] ∈ secrets ∧ MAC (secrets.getD i []) input = mac := by
  obtain ⟨hi, hmac, -⟩ := List.findIdx?_eq_some_iff_getElem.mp h
  rw [getD_eq_getElem?_getD, List.getElem?_eq_getElem hi, Option.getD_some]
  exact ⟨getElem_mem hi, of_decide_eq_true hmac⟩

private theorem consumerByID_some {m : Manager} {id : NodeID} {slot : HelloSlot}
    (h : m.consumerByID id = some slot) : slot ∈ m.consumers ∧ slot.nodeID = id := by
  rw [Manager.consumerByID] at h
  have hid := List.find?_some h
  exact ⟨mem_reverse.mp (mem_of_find?_eq_some h), of_decide_eq_true hid⟩

/-- An accepted HELLO with a secret carries the MAC of the source's own view of the handshake. -/
theorem checkHello_mac {lib : Library} {m : Manager} {h : Hello} {cs : Option ConnectionState}
    {nonceS : Bytes32} {exporter : Exporter} {slot : HelloSlot} {i : ℕ}
    (hslot : (m.checkHello lib h cs nonceS exporter).slot = some slot)
    (hidx : (m.checkHello lib h cs nonceS exporter).secretIdx = some i) :
    slot ∈ m.consumers ∧ slot.secrets.getD i [] ∈ slot.secrets ∧
      lib.MAC (slot.secrets.getD i [])
        (consumerMACInput nonceS h.nonceC slot.nodeID.bytes m.nodeID.bytes exporter.bytes) = h.mac := by
  revert hslot hidx
  rw [Manager.checkHello]
  repeat' split
  all_goals
    intro hslot hidx
    cases hidx
  next hby _ _ _ _ _ _ _ _ hmatch =>
    cases hslot
    obtain ⟨hmem, rfl⟩ := consumerByID_some hby
    exact ⟨hmem, matchMAC_some hmatch⟩

private theorem checkHelloOK_mac {lib : Library} {m : Manager} {p : Puller} {nonceC nonceS : Bytes32}
    {cs : Option ConnectionState} {exporter : Exporter} {ok : HelloOK} {i : ℕ}
    (h : p.checkHelloOK lib m nonceC nonceS cs exporter ok = .ok (some i)) :
    p.secrets.getD i [] ∈ p.secrets ∧ lib.MAC (p.secrets.getD i [])
      (sourceMACInput nonceC nonceS p.nodeID.bytes m.nodeID.bytes exporter.bytes) = ok.macS := by
  revert h
  simp only [Puller.checkHelloOK]
  repeat' split
  all_goals
    intro h
    cases h
  next hmatch => exact matchMAC_some hmatch

theorem turn_accepted {lib : Library} {w : Network} {a : Turn} (hw : w.accepted ⊆ w.made)
    (hsecure : SecureTurn lib w a) : (w.turn lib a).accepted ⊆ (w.turn lib a).made := by
  cases a with
  | hello m p nonceS nonceC cs exporter =>
    rw [Network.turn]
    split
    · exact fun t ht => mem_cons_of_mem _ (hw ht)
    · exact hw
  | serve m h cs nonceS exporter admitted =>
    simp only [Network.turn]
    split
    next slot i _ hslot hidx =>
      obtain ⟨hmem, hsecret, hmac⟩ := checkHello_mac hslot hidx
      have hmade := mem_made_of_secure (hsecure slot hmem _ hsecret) hmac
      have hgrow : w.made ⊆ (w.served m h nonceS exporter admitted slot i).made := by
        cases admitted
        · exact fun t ht => ht
        · exact fun t ht => mem_cons_of_mem _ ht
      exact cons_subset.mpr ⟨hgrow hmade, fun t ht => hgrow (hw ht)⟩
    · exact hw
  | conclude m p nonceC nonceS cs exporter ok =>
    rw [Network.turn]
    split
    next i hok =>
      obtain ⟨hsecret, hmac⟩ := checkHelloOK_mac hok
      have hmade := mem_made_of_secure (hsecure _ hsecret) hmac
      exact cons_subset.mpr ⟨hmade, hw⟩
    · exact hw

/-- The MAC inputs are injective and apart, so in every run of handshakes, whatever the network
delivers, a MAC is accepted only for the direction, nonces, NodeIds and TLS session it was made for. -/
theorem macInputs_unambiguous : (∀ nonceS nonceC nonceS' nonceC' : Bytes32, ∀ cid sid e cid' sid' e' : Bytes,
      cid.length < 65536 → sid.length < 65536 → e.length < 65536 →
      cid'.length < 65536 → sid'.length < 65536 → e'.length < 65536 →
      consumerMACInput nonceS nonceC cid sid e = consumerMACInput nonceS' nonceC' cid' sid' e' →
      nonceS = nonceS' ∧ nonceC = nonceC' ∧ cid = cid' ∧ sid = sid' ∧ e = e') ∧
    (∀ nonceC nonceS nonceC' nonceS' : Bytes32, ∀ sid cid e sid' cid' e' : Bytes,
      sid.length < 65536 → cid.length < 65536 → e.length < 65536 →
      sid'.length < 65536 → cid'.length < 65536 → e'.length < 65536 →
      sourceMACInput nonceC nonceS sid cid e = sourceMACInput nonceC' nonceS' sid' cid' e' →
      nonceC = nonceC' ∧ nonceS = nonceS' ∧ sid = sid' ∧ cid = cid' ∧ e = e') ∧
    (∀ nonceS nonceC nonceS' nonceC' : Bytes32, ∀ cid sid e cid' sid' e' : Bytes,
      consumerMACInput nonceS nonceC cid sid e ≠ sourceMACInput nonceC' nonceS' sid' cid' e') ∧
    ∀ (lib : Library) (turns : List Turn),
      StateRuns.Along (Network.turn lib) (SecureTurn lib) ⟨[], []⟩ turns →
      (StateRuns.run (Network.turn lib) ⟨[], []⟩ turns).accepted ⊆
        (StateRuns.run (Network.turn lib) ⟨[], []⟩ turns).made := by
  refine ⟨?_, ?_, ?_, ?_⟩
  · intro nonceS nonceC nonceS' nonceC' cid sid e cid' sid' e' hc hs he hc' hs' he' h
    exact fields_inj short_macLabelConsumer hc hs he hc' hs' he' h
  · intro nonceC nonceS nonceC' nonceS' sid cid e sid' cid' e' hs hc he hs' hc' he' h
    exact fields_inj short_macLabelSource hs hc he hs' hc' he' h
  · intro nonceS nonceC nonceS' nonceC' cid sid e cid' sid' e'
    exact consumerMACInput_ne_source
  · intro lib turns hsecure
    have hstep : ∀ w a, w.accepted ⊆ w.made → SecureTurn lib w a →
        (w.turn lib a).accepted ⊆ (w.turn lib a).made := fun w a hw ha => turn_accepted hw ha
    exact StateRuns.run_invariant (P := fun w => w.accepted ⊆ w.made) hstep (nil_subset _) hsecure

def exampleSecret : Bytes := List.replicate 16 9

def exampleHandshake : Handshake :=
  ⟨Bytes32.zero, ⟨List.replicate 32 1, length_replicate⟩, ⟨[0x62], by decide⟩, ⟨[0x61], by decide⟩,
    ⟨List.replicate 32 7, by decide⟩⟩

def exampleMAC : Bytes32 :=
  ⟨[0xcc, 0xb5, 0xbc, 0x69, 0x8f, 0x4a, 0x3a, 0x3d, 0x8d, 0x1f, 0x24, 0x80, 0x6b, 0xcd, 0x5c, 0x31,
    0xfe, 0x2f, 0xcb, 0x5e, 0xd5, 0x1a, 0xa5, 0xf6, 0x0f, 0xee, 0xca, 0x65, 0x11, 0x64, 0xcb, 0xdd], rfl⟩

def exampleMACS : Bytes32 :=
  ⟨[0x55, 0xbe, 0x1e, 0x7c, 0x61, 0x6a, 0xf5, 0xc5, 0x04, 0x16, 0x2b, 0x21, 0xe9, 0xeb, 0xa6, 0x22,
    0x58, 0xde, 0x2f, 0x2c, 0x0c, 0x09, 0x0a, 0x38, 0x65, 0xa8, 0x91, 0x14, 0xd4, 0x1f, 0xc2, 0x4a], rfl⟩

@[grind =] def exampleLibrary : Library where
  MAC _ input := if input = exampleHandshake.input .consumer then exampleMAC else exampleMACS
  verifyClient _ _ := false
  verifyServer _ _ := .error []
  quote id := id

def exampleConsumer : Manager := ⟨exampleHandshake.consumerID, [exampleHandshake.sourceID], [], false⟩

def exampleSlot : HelloSlot := ⟨exampleHandshake.consumerID, [exampleSecret], false⟩

def exampleSource : Manager := ⟨exampleHandshake.sourceID, [exampleHandshake.consumerID], [exampleSlot], false⟩

def examplePuller : Puller := ⟨exampleHandshake.sourceID, [exampleSecret], true⟩

def exampleHello : Hello :=
  ⟨helloFlagMAC, 0, 1, 0, 0, 0, 0, 0, exampleHandshake.nonceC, exampleMAC, [0x62], [0x61], [], [], [], []⟩

def exampleHelloOK : HelloOK :=
  ⟨0, 0, 0, 0, 0, 0, 0, 0, 0, 0, 0, 0, exampleMACS, [0x61], [], [], [], []⟩

def exampleTurns : List Turn :=
  [.hello exampleConsumer examplePuller exampleHandshake.nonceS exampleHandshake.nonceC (some ⟨[]⟩)
      exampleHandshake.exporter,
    .serve exampleSource exampleHello (some ⟨[]⟩) exampleHandshake.nonceS exampleHandshake.exporter true,
    .conclude exampleConsumer examplePuller exampleHandshake.nonceC exampleHandshake.nonceS (some ⟨[]⟩)
      exampleHandshake.exporter exampleHelloOK]

theorem exampleMAC_consumer (secret : Bytes) :
    exampleLibrary.MAC secret (exampleHandshake.input .consumer) = exampleMAC := by
  simp only [exampleLibrary, if_true]

theorem exampleMAC_source (secret : Bytes) :
    exampleLibrary.MAC secret (exampleHandshake.input .source) = exampleMACS := by
  have hne : exampleHandshake.input .source ≠ exampleHandshake.input .consumer :=
    fun h => consumerMACInput_ne_source h.symm
  simp only [exampleLibrary, if_neg hne]

private theorem exampleMAC_ne : exampleMAC ≠ exampleMACS := by
  intro h
  have hhead := congrArg (fun b => b.bytes.head?) h
  revert hhead
  decide

theorem example_checkHello :
    exampleSource.checkHello exampleLibrary exampleHello (some ⟨[]⟩) exampleHandshake.nonceS
      exampleHandshake.exporter = ⟨some exampleSlot, some 0, 0, []⟩ := by
  have hmatch : matchMAC exampleLibrary.MAC [exampleSecret]
      (consumerMACInput exampleHandshake.nonceS exampleHandshake.nonceC exampleHandshake.consumerID.bytes
        exampleHandshake.sourceID.bytes exampleHandshake.exporter.bytes) exampleMAC = some 0 := by
    have hmac := exampleMAC_consumer exampleSecret
    rw [Handshake.input] at hmac
    rw [matchMAC, List.findIdx?_cons, hmac]
    simp
  have hid : canonicalNodeID [0x62] = some exampleHandshake.consumerID := by decide
  have hid' : canonicalNodeID [0x61] = some exampleHandshake.sourceID := by decide
  have hby : Manager.consumerByID exampleSource exampleHandshake.consumerID = some exampleSlot := rfl
  have hne : exampleHandshake.consumerID ≠ exampleHandshake.sourceID := by decide
  have hflags : helloFlagMAC ≠ 0 := by decide
  simp only [Manager.checkHello, exampleHello, hid, hid', hby]
  simp [exampleSource, exampleSlot, hne, clientCertificate, hflags, hmatch]

theorem example_checkHelloOK :
    examplePuller.checkHelloOK exampleLibrary exampleConsumer exampleHandshake.nonceC
      exampleHandshake.nonceS (some ⟨[]⟩) exampleHandshake.exporter exampleHelloOK = .ok (some 0) := by
  have hmatch : matchMAC exampleLibrary.MAC [exampleSecret]
      (sourceMACInput exampleHandshake.nonceC exampleHandshake.nonceS exampleHandshake.sourceID.bytes
        exampleHandshake.consumerID.bytes exampleHandshake.exporter.bytes) exampleMACS = some 0 := by
    have hmac := exampleMAC_source exampleSecret
    rw [Handshake.input] at hmac
    rw [matchMAC, List.findIdx?_cons, hmac]
    simp
  have hid : canonicalNodeID [0x61] = some exampleHandshake.sourceID := by decide
  have hne : exampleHandshake.sourceID ≠ exampleHandshake.consumerID := by decide
  have hexporter : exampleHandshake.exporter.bytes ≠ [] := by decide
  simp only [Puller.checkHelloOK, exampleHelloOK, hid]
  simp [exampleConsumer, examplePuller, hne, serverCertificate, hexporter, hmatch]

theorem example_hello (w : Network) :
    w.turn exampleLibrary (.hello exampleConsumer examplePuller exampleHandshake.nonceS
      exampleHandshake.nonceC (some ⟨[]⟩) exampleHandshake.exporter) =
      { w with made := ⟨exampleSecret, .consumer, exampleHandshake⟩ :: w.made } := by
  have hsends : examplePuller.sendsMAC (some ⟨[]⟩) exampleHandshake.exporter = true := by decide
  rw [Network.turn, if_pos hsends]
  rfl

theorem example_serve (w : Network) :
    w.turn exampleLibrary (.serve exampleSource exampleHello (some ⟨[]⟩) exampleHandshake.nonceS
      exampleHandshake.exporter true) =
      ⟨⟨exampleSecret, .source, exampleHandshake⟩ :: w.made,
        ⟨exampleSecret, .consumer, exampleHandshake⟩ :: w.accepted⟩ := by
  simp only [Network.turn, example_checkHello]
  rfl

private theorem example_conclude (w : Network) :
    w.turn exampleLibrary (.conclude exampleConsumer examplePuller exampleHandshake.nonceC
      exampleHandshake.nonceS (some ⟨[]⟩) exampleHandshake.exporter exampleHelloOK) =
      { w with accepted := ⟨exampleSecret, .source, exampleHandshake⟩ :: w.accepted } := by
  simp only [Network.turn, example_checkHelloOK]
  rfl

private theorem example_run : StateRuns.run (Network.turn exampleLibrary) ⟨[], []⟩ exampleTurns =
      ⟨[⟨exampleSecret, .source, exampleHandshake⟩, ⟨exampleSecret, .consumer, exampleHandshake⟩],
        [⟨exampleSecret, .source, exampleHandshake⟩, ⟨exampleSecret, .consumer, exampleHandshake⟩]⟩ := by
  simp only [exampleTurns, StateRuns.run_cons, StateRuns.run_nil, example_hello, example_serve,
    example_conclude]

theorem example_secure :
    StateRuns.Along (Network.turn exampleLibrary) (SecureTurn exampleLibrary) ⟨[], []⟩ exampleTurns := by
  refine ⟨trivial, ?_, ?_, trivial⟩
  · rw [example_hello]
    intro slot hslot secret hsecret
    obtain rfl := mem_singleton.mp hslot
    obtain rfl := mem_singleton.mp hsecret
    refine ⟨fun _ => ⟨_, mem_singleton.mpr rfl, rfl, exampleMAC_consumer _⟩, fun e he _ _ => ?_⟩
    obtain rfl := mem_singleton.mp he
    rfl
  · rw [example_hello, example_serve]
    intro secret hsecret
    obtain rfl := mem_singleton.mp hsecret
    refine ⟨fun _ => ⟨_, mem_cons_self, rfl, exampleMAC_source _⟩, fun e he _ hmac => ?_⟩
    rcases mem_cons.mp he with rfl | he
    · rfl
    · obtain rfl := mem_singleton.mp he
      have hsame : exampleMAC = exampleMACS :=
        (exampleMAC_consumer _).symm.trans (hmac.trans (exampleMAC_source _))
      exact absurd hsame exampleMAC_ne

theorem example_accepted_made :
    (StateRuns.run (Network.turn exampleLibrary) ⟨[], []⟩ exampleTurns).accepted.length = 2 ∧
    (StateRuns.run (Network.turn exampleLibrary) ⟨[], []⟩ exampleTurns).accepted ⊆
      (StateRuns.run (Network.turn exampleLibrary) ⟨[], []⟩ exampleTurns).made :=
  ⟨by rw [example_run]; rfl,
    macInputs_unambiguous.2.2.2 exampleLibrary exampleTurns example_secure⟩

end MonsterMQ.PeerLink
