import MonsterMQ.PeerLinkInterestTrie

/-!
# Access rules

The decision of `Cache.allowClient` in `internal/auth/auth.go`: which rule of a user covers a
topic once the placeholders `%u` and `%c` of its pattern have been replaced.
-/

namespace MonsterMQ.Auth

open LittleEndian PeerLink

@[grind =] def ascii (s : String) : Bytes := s.toList.map fun c => c.toNat.toUInt8

/-- A literal as the list of its characters: what is said of its bytes can then be evaluated
without decoding the string. -/
theorem ascii_eq {s : String} {cs : List Char} (h : s = String.ofList cs) :
    ascii s = cs.map fun c => c.toNat.toUInt8 := by
  rw [h, ascii, String.toList_ofList]

theorem not_mem_ascii {b : UInt8} {s : String} {cs : List Char} (h : s = String.ofList cs)
    (hcs : (cs.all fun c => c.toNat.toUInt8 != b) = true) : b ∉ ascii s := by
  rw [ascii_eq h]
  intro hmem
  obtain ⟨c, hc, heq⟩ := List.mem_map.mp hmem
  have hne := List.all_eq_true.mp hcs c hc
  exact bne_iff_ne.mp hne heq

theorem ascii_append (s t : String) : ascii (s ++ t) = ascii s ++ ascii t := by
  rw [ascii, String.toList_append, List.map_append]
  rfl

@[grind =] def replaceAll (a b : UInt8) (new : Bytes) : Bytes → Bytes
  | [] => []
  | [x] => [x]
  | x :: y :: s =>
    if x = a ∧ y = b then new ++ replaceAll a b new s else x :: replaceAll a b new (y :: s)

def containsPair (a b : UInt8) : Bytes → Bool
  | [] => false
  | [_] => false
  | x :: y :: s => (x = a ∧ y = b) || containsPair a b (y :: s)

def percentByte : UInt8 := 0x25
def userByte : UInt8 := 0x75
def clientByte : UInt8 := 0x63

/-- The pattern with the username and the client ID in place of `%u` and `%c`; nothing when it
needs a client ID and none is known. -/
def resolvePattern (pattern username clientID : Bytes) : Option Bytes :=
  if !pattern.contains percentByte then some pattern
  else
    let resolved := replaceAll percentByte userByte username pattern
    if containsPair percentByte clientByte resolved then
      if clientID = [] then none
      else some (replaceAll percentByte clientByte clientID resolved)
    else some resolved

def levelsMatch : List Bytes → List Bytes → Bool
  | [], tt => tt.isEmpty
  | p :: pp, tt =>
    if p = hashLevel then true
    else match tt with
      | [] => false
      | t :: tt =>
        if p = plusLevel then
          -- a single-level wildcard does not cover a multi-level filter
          if t = hashLevel then false else levelsMatch pp tt
        else if p ≠ t then false
        else levelsMatch pp tt

def topicMatches (pattern topic : Bytes) : Bool :=
  let pp := levels pattern
  let tt := levels topic
  let p0 := pp.headD []
  if (tt.headD []).head? = some dollarByte && p0.head? ≠ some dollarByte &&
      (p0 = plusLevel || p0 = hashLevel) then false
  else levelsMatch pp tt

structure AclRule where
  topicPattern : Bytes
  canSubscribe : Bool
  canPublish : Bool
  deriving DecidableEq, Repr

@[grind =] def AclRule.covers (r : AclRule) (username clientID topic : Bytes) : Bool :=
  match resolvePattern r.topicPattern username clientID with
  | none => false
  | some pattern => topicMatches pattern topic

def isDenyRule (r : AclRule) : Bool := !r.canPublish && !r.canSubscribe

def AclRule.grants (r : AclRule) (write : Bool) : Bool :=
  if write then r.canPublish else r.canSubscribe

structure User where
  enabled : Bool
  isAdmin : Bool
  canSubscribe : Bool
  canPublish : Bool
  deriving DecidableEq, Repr

structure Cache where
  anonymousEnabled : Bool
  aclCheckOnSubscribe : Bool
  users : List (Bytes × User)
  rulesByUser : List (Bytes × List AclRule)
  deriving DecidableEq, Repr

def anonymousUser : Bytes := ascii "Anonymous"

def containsWildcard (topic : Bytes) : Bool := topic.contains 0x23 || topic.contains 0x2B

/-- The loop of `allowClient` over the rules in priority order: the first one that decides
the operation and covers the topic. -/
@[grind =] def decideRules (covers : AclRule → Bool) (write : Bool) : List AclRule → Bool
  | [] => false
  | r :: rs =>
    if !isDenyRule r && !r.grants write then decideRules covers write rs
    else if covers r then !isDenyRule r
    else decideRules covers write rs

@[grind =] def Cache.allowUser (c : Cache) (username clientID topic : Bytes) (write : Bool) : Bool :=
  match c.users.lookup username with
  | none => false
  | some u =>
    if !u.enabled then false
    else if u.isAdmin then true
    else if write && !u.canPublish then false
    else if !write && !u.canSubscribe then false
    else if !write && !c.aclCheckOnSubscribe && containsWildcard topic then true
    else
      let rules := (c.rulesByUser.lookup username).getD []
      if rules.isEmpty then true
      else decideRules (fun r => r.covers username clientID topic) write rules

@[grind =] def Cache.allowClient (c : Cache) (username clientID topic : Bytes) (write : Bool) : Bool :=
  if username = [] then
    if !c.anonymousEnabled then false
    else if (c.users.lookup anonymousUser).isSome then
      c.allowUser anonymousUser clientID topic write
    else true
  else c.allowUser username clientID topic write

end MonsterMQ.Auth
