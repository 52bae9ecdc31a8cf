import MonsterMQ.RedisStructs
import Mathlib.Data.List.Perm.Basic

/-!
# Redis structures against their data types

The commands on one key are compared with a map, a set without repetitions and a list.
-/

namespace MonsterMQ.Redis

open LittleEndian Auth JsonText FiniteMaps List

private theorem isText_type : IsText (ascii "type") := ⟨"type".toList, rfl⟩

private theorem isText_value : IsText (ascii "value") := ⟨"value".toList, rfl⟩

private theorem isText_hash : IsText hash := ⟨"hash".toList, rfl⟩

theorem isText_set : IsText setType := ⟨"set".toList, rfl⟩

theorem isText_list : IsText listType := ⟨"list".toList, rfl⟩

theorem decode_encode {F : Floats} {typ : Bytes} {v w : Json} (htyp : IsText typ) (hw : Parses 9999 w (marshal F v))
    (hrange : numbersInRange F w = true) : decodeStoredValue F (encodeEnvelope F typ v) = ⟨typ, some w⟩ := by
  have htext : Parses 9999 (.str typ) (marshal F (.str typ)) := by
    rw [marshal]
    exact parses_str htyp 9999
  have hall : List.Forall₂ (ParsesMember 9999) [(ascii "type", .str typ), (ascii "value", w)]
      [(ascii "type", marshal F (.str typ)), (ascii "value", marshal F v)] :=
    .cons ⟨rfl, isText_type, htext⟩ (.cons ⟨rfl, isText_value, hw⟩ .nil)
  have hnodup : ([(ascii "type", .str typ), (ascii "value", w)].map (Prod.fst : Bytes × Json → Bytes)).Nodup := by
    have hne : [ascii "type", ascii "value"].Nodup := by decide
    exact hne
  have hread := unmarshal_of_parses (F := F) (parses_obj hall hnodup)
    (by simp [numbersInRange, membersInRange, hrange])
  rw [decodeStoredValue, encodeEnvelope, hread]
  rfl

theorem marshalItems_str (F : Floats) (l : List Bytes) : marshalItems F (l.map .str) = l.map quote := by
  induction l with
  | nil => rfl
  | cons b l ih => rw [map_cons, marshalItems, ih, marshal, map_cons]

theorem numbersInRange_str (F : Floats) (b : Bytes) : numbersInRange F (.str b) = true := by
  simp only [numbersInRange]

private theorem itemsInRange_str (F : Floats) (l : List Bytes) : itemsInRange F (l.map .str) = true := by
  induction l with
  | nil => rfl
  | cons b l ih => rw [map_cons, itemsInRange, ih, numbersInRange_str, Bool.and_self]

private theorem parses_strings {l : List Bytes} (hl : ∀ b ∈ l, IsText b) (d : ℕ) :
    List.Forall₂ (Parses d) (l.map .str) (l.map quote) := by
  induction l with
  | nil => exact .nil
  | cons b l ih =>
    exact .cons (parses_str (hl b mem_cons_self) d) (ih fun c hc => hl c (mem_cons_of_mem b hc))

theorem decode_slice {F : Floats} {typ : Bytes} (htyp : IsText typ) {l : List Bytes} (hl : ∀ b ∈ l, IsText b) :
    decodeStoredValue F (encodeEnvelope F typ (ofSlice (some l))) = ⟨typ, some (.arr (l.map .str))⟩ := by
  refine decode_encode htyp ?_ (itemsInRange_str F l)
  rw [ofSlice, marshal, marshalItems_str]
  exact parses_arr (parses_strings hl 9998)

/-- A slice that is `nil` comes back as null. -/
theorem decode_nil {F : Floats} {typ : Bytes} (htyp : IsText typ) :
    decodeStoredValue F (encodeEnvelope F typ (ofSlice none)) = ⟨typ, some .null⟩ :=
  decode_encode htyp (parses_null 9999) rfl

theorem sprint_str (F : Floats) (l : List Bytes) : (l.map Json.str).map (sprint F) = l := by
  rw [map_map]
  exact map_id l

def Strings (m : FMap Bytes Json) (s : FMap Bytes Bytes) : Prop :=
  ∀ k, m.lookup k = (s.lookup k).map .str

def TextMap (s : FMap Bytes Bytes) : Prop := ∀ k v, s.lookup k = some v → IsText k ∧ IsText v

private theorem lookup_mapOf {ms : List (Bytes × Json)} (k : Bytes) :
    (mapOf ms).lookup k = (ms.map fun p => (⟨p.1, p.2⟩ : Σ _ : Bytes, Json)).dlookup k :=
  AList.lookup_to_alist _

theorem mem_entries_iff {β : Type} {m : FMap Bytes β} {k : Bytes} {v : β} :
    (⟨k, v⟩ : Σ _ : Bytes, β) ∈ m.entries ↔ m.lookup k = some v :=
  ⟨fun h => AList.mem_lookup_iff.mpr h, fun h => AList.mem_lookup_iff.mp h⟩

private theorem marshalMembers_eq (F : Floats) (ms : List (Bytes × Json)) :
    marshalMembers F ms = ms.map fun p => (p.1, marshal F p.2) := by
  induction ms with
  | nil => rfl
  | cons p ms ih => rw [marshalMembers, ih, map_cons]

private theorem membersInRange_of_forall {F : Floats} {ms : List (Bytes × Json)}
    (h : ∀ p ∈ ms, numbersInRange F p.2 = true) : membersInRange F ms = true := by
  induction ms with
  | nil => rfl
  | cons p ms ih =>
    rw [membersInRange, h p mem_cons_self, ih fun q hq => h q (mem_cons_of_mem p hq), Bool.and_self]

theorem decode_map {F : Floats} {m : FMap Bytes Json} {s : FMap Bytes Bytes} (hs : Strings m s) (ht : TextMap s) :
    ∃ ms, decodeStoredValue F (encodeEnvelope F hash (ofMap m)) = ⟨hash, some (.obj ms)⟩ ∧ Strings (mapOf ms) s := by
  let ms := m.entries.map fun e => (e.1, e.2)
  have hstr : ∀ p ∈ ms, ∃ v, p.2 = .str v ∧ IsText p.1 ∧ IsText v := by
    intro p hp
    obtain ⟨⟨k, w⟩, he, rfl⟩ := mem_map.mp hp
    have hlook := hs k
    rw [(mem_entries_iff).mp he] at hlook
    cases hv : s.lookup k with
    | none => simp [hv] at hlook
    | some v =>
      rw [hv] at hlook
      exact ⟨v, Option.some.inj hlook, ht k v hv⟩
  have hall : List.Forall₂ (ParsesMember 9998) ms (marshalMembers F ms) := by
    rw [marshalMembers_eq, List.forall₂_map_right_iff, List.forall₂_same]
    intro p hp
    obtain ⟨v, hv, hk, hvt⟩ := hstr p hp
    refine ⟨rfl, hk, ?_⟩
    rw [hv, marshal]
    exact parses_str hvt 9998
  obtain ⟨ms', hall', hperm⟩ := perm_comp_forall₂ (mergeSort_perm (marshalMembers F ms) _) hall.flip
  have hkeys : (ms'.map Prod.fst).Nodup := by
    rw [(hperm.map Prod.fst).nodup_iff, map_map]
    exact m.nodupKeys
  refine ⟨ms', decode_encode isText_hash ?_ ?_, ?_⟩
  · rw [ofMap, marshal]
    exact parses_obj hall'.flip hkeys
  · rw [numbersInRange]
    apply membersInRange_of_forall
    intro p hp
    obtain ⟨v, hv, -, -⟩ := hstr p (hperm.subset hp)
    rw [hv, numbersInRange_str]
  · intro k
    rw [← hs k, lookup_mapOf]
    have hentries : ms.map (fun p => (⟨p.1, p.2⟩ : Σ _ : Bytes, Json)) = m.entries := by
      rw [map_map]
      exact map_id m.entries
    have hp : (ms'.map fun p => (⟨p.1, p.2⟩ : Σ _ : Bytes, Json)).Perm m.entries := by
      rw [← hentries]
      exact hperm.map _
    exact perm_dlookup k ((perm_nodupKeys hp).mpr m.nodupKeys) hp

inductive Value where
  | hash (m : FMap Bytes Bytes)
  | set (l : List Bytes)
  | list (l : List Bytes)

inductive StructCommand where
  | hset (pairs : List (Bytes × Bytes))
  | hdel (fields : List Bytes)
  | hget (field : Bytes)
  | hgetall
  | hlen
  | hkeys
  | hvals
  | sadd (members : List Bytes)
  | srem (members : List Bytes)
  | smembers
  | sismember (member : Bytes)
  | scard
  | push (isLeft : Bool) (values : List Bytes)
  | pop (isLeft : Bool)
  | lrange (start stop : Bytes)
  | lindex (index : Bytes)
  | llen

@[grind =] def StructCommand.operands : StructCommand → List Bytes
  | .hset pairs => pairs.flatMap fun p => [p.1, p.2]
  | .hdel l | .sadd l | .srem l | .push _ l => l
  | .hget x | .sismember x | .lindex x => [x]
  | .lrange start stop => [start, stop]
  | _ => []

def StructCommand.Complete : StructCommand → Prop
  | .hset pairs => pairs ≠ []
  | .hdel l | .sadd l | .srem l | .push _ l => l ≠ []
  | _ => True

/-- The handler of a command, whose name may be spelled in several ways. -/
@[grind =] def handle (E : Access) (S : Store) (name key : Bytes) (c : StructCommand) : Store × RespValue :=
  let args := name :: key :: c.operands
  match c with
  | .hset _ => handleHset E S args
  | .hdel _ => handleHdel E S args
  | .hget _ => (S, handleHget E S args)
  | .hgetall => (S, handleHgetall E S args)
  | .hlen => (S, handleHlen E S args)
  | .hkeys => (S, handleHkeys E S args)
  | .hvals => (S, handleHvals E S args)
  | .sadd _ => handleSadd E S args
  | .srem _ => handleSrem E S args
  | .smembers => (S, handleSmembers E S args)
  | .sismember _ => (S, handleSismember E S args)
  | .scard => (S, handleScard E S args)
  | .push isLeft _ => handleListPush E S args isLeft
  | .pop isLeft => handleListPop E S args isLeft
  | .lrange _ _ => (S, handleLrange E S args)
  | .lindex _ => (S, handleLindex E S args)
  | .llen => (S, handleLlen E S args)

namespace Value

inductive Kind where
  | hash
  | set
  | list
  deriving DecidableEq, Repr

def Kind.name : Kind → Bytes
  | .hash => Redis.hash
  | .set => setType
  | .list => listType

def kind : Value → Kind
  | .hash _ => .hash
  | .set _ => .set
  | .list _ => .list

def hash? : Value → Option (FMap Bytes Bytes)
  | .hash m => some m
  | _ => none

def set? : Value → Option (List Bytes)
  | .set l => some l
  | _ => none

def list? : Value → Option (List Bytes)
  | .list l => some l
  | _ => none

/-- A command of one type: a key without a value is empty, a value of another type is left alone. -/
@[grind =] def onType {β : Type} (view : Value → Option β) (empty : β) (s : Option Value)
    (body : β → Option Value × RespValue) : Option Value × RespValue :=
  match s with
  | none => body empty
  | some v =>
    match view v with
    | some b => body b
    | none => (s, errWrongType)

def onHash (s : Option Value) (body : FMap Bytes Bytes → Option Value × RespValue) : Option Value × RespValue :=
  onType hash? ∅ s body

def onSet (s : Option Value) (body : List Bytes → Option Value × RespValue) : Option Value × RespValue :=
  onType set? [] s body

def onList (s : Option Value) (body : List Bytes → Option Value × RespValue) : Option Value × RespValue :=
  onType list? [] s body

def position (l : List Bytes) (i : ℤ) : ℤ := if i < 0 then l.length + i else i

/-- The elements at the positions between two, both included. -/
def range (l : List Bytes) (start stop : ℤ) : List Bytes :=
  (l.zipIdx.filter fun p => position l start ≤ p.2 ∧ (p.2 : ℤ) ≤ position l stop).map Prod.fst

def element (l : List Bytes) (i : ℤ) : Option Bytes :=
  if position l i < 0 then none else l[(position l i).toNat]?

/-- What the data types make of a command. A removal gives no value to a key that has none. -/
@[grind =] def reference (s : Option Value) : StructCommand → Option Value × RespValue
  | .hset pairs => onHash s fun m =>
    let m' := pairs.foldl (fun m p => m.insert p.1 p.2) m
    (some (.hash m'), .integer (size m' - size m))
  | .hdel fields => onHash s fun m =>
    (s.map fun _ => .hash (eraseAll fields m), .integer (size m - size (eraseAll fields m)))
  | .hget field => onHash s fun m => (s, .bulk (m.lookup field))
  | .hgetall => onHash s fun m => (s, bulks ((sortedKeys m).flatMap fun k => [k, (m.lookup k).getD []]))
  | .hlen => onHash s fun m => (s, .integer (size m))
  | .hkeys => onHash s fun m => (s, bulks (sortedKeys m))
  | .hvals => onHash s fun m => (s, bulks ((sortedKeys m).map fun k => (m.lookup k).getD []))
  | .sadd members => onSet s fun l =>
    let l' := members.foldl addNew l
    (some (.set l'), .integer (l'.length - l.length))
  | .srem members => onSet s fun l =>
    let l' := l.filter fun m => m ∉ members
    (s.map fun _ => .set l', .integer (l.length - l'.length))
  | .smembers => onSet s fun l => (s, bulks l)
  | .sismember member => onSet s fun l => (s, .integer (if member ∈ l then 1 else 0))
  | .scard => onSet s fun l => (s, .integer l.length)
  | .push isLeft values => onList s fun l =>
    let l' := if isLeft then values.reverse ++ l else l ++ values
    (some (.list l'), .integer l'.length)
  | .pop isLeft => onList s fun l =>
    if isLeft then (s.map fun _ => .list l.tail, .bulk l.head?)
    else (s.map fun _ => .list l.dropLast, .bulk l.getLast?)
  | .lrange start stop =>
    match atoi start, atoi stop with
    | some i, some j => onList s fun l => (s, bulks (range l i j))
    | _, _ => (s, notAnInteger)
  | .lindex index =>
    match atoi index with
    | some i => onList s fun l => (s, .bulk (element l i))
    | none => (s, notAnInteger)
  | .llen => onList s fun l => (s, .integer l.length)

/-- The commands that the handlers answer as the data types do: none lists the elements of a key without
a value, and none removes the last element of a set or a list. -/
def Careful (s : Option Value) (c : StructCommand) : Prop :=
  match s, c with
  | none, .hgetall | none, .hkeys | none, .hvals | none, .smembers => False
  | none, .lrange start stop => atoi start = none ∨ atoi stop = none
  | some (.set l), .srem members => ∃ m ∈ l, m ∉ members
  | some (.list l), .pop _ => l.length ≠ 1
  | _, _ => True

end Value

/-- The connection may read and write the key, which the group of its database keeps. -/
structure Access.Grants (E : Access) (key : Bytes) : Prop where
  noWildcard : 0x2b ∉ key ∧ 0x23 ∉ key
  notNative : E.isNative key = false
  mapped : ∃ g, E.group = some g
  inFilter : E.matchesFilter key = true
  writable : E.isGroupReadOnly = false
  canRead : E.canRead key = true
  canWrite : E.canWrite key = true
  publishes : ∀ payload, E.publishError key payload = none

/-- A decoded value stands for one of the data types. -/
def Shows : Json → Value → Prop
  | .obj ms, .hash m => Strings (mapOf ms) m ∧ TextMap m
  | .arr items, .set l => items = l.map .str ∧ (∀ b ∈ l, IsText b) ∧ l.Nodup
  | .arr items, .list l => items = l.map .str ∧ ∀ b ∈ l, IsText b
  | _, _ => False

def Represents (F : Floats) : Option Bytes → Option Value → Prop
  | none, none => True
  | some p, some s => ∃ v, decodeStoredValue F p = ⟨s.kind.name, some v⟩ ∧ Shows v s
  | _, _ => False

def Typed {α β : Type} (k : Value.Kind) (cast : Json → Option α) (view : Value → Option β) (R : α → β → Prop) :
    Prop :=
  ∀ v s, Shows v s →
    (s.kind ≠ k → view s = none) ∧ (s.kind = k → ∃ a b, cast v = some a ∧ view s = some b ∧ R a b)

theorem typed_hash : Typed .hash asMap Value.hash? fun m' m => Strings m' m ∧ TextMap m := by
  intro v s h
  cases s with
  | hash m =>
    cases v with
    | obj ms => exact ⟨fun hk => absurd rfl hk, fun _ => ⟨mapOf ms, m, rfl, rfl, h⟩⟩
    | _ => exact absurd h id
  | set l | list l => exact ⟨fun _ => rfl, fun hk => by cases hk⟩

theorem typed_set : Typed .set asSlice Value.set? fun arr l => arr = l.map .str ∧ (∀ b ∈ l, IsText b) ∧ l.Nodup := by
  intro v s h
  cases s with
  | hash m | list l => exact ⟨fun _ => rfl, fun hk => by cases hk⟩
  | set l =>
    cases v with
    | arr items => exact ⟨fun hk => absurd rfl hk, fun _ => ⟨items, l, rfl, rfl, h⟩⟩
    | _ => exact absurd h id

theorem typed_list : Typed .list asSlice Value.list? fun arr l => arr = l.map .str ∧ ∀ b ∈ l, IsText b := by
  intro v s h
  cases s with
  | hash m | set l => exact ⟨fun _ => rfl, fun hk => by cases hk⟩
  | list l =>
    cases v with
    | arr items => exact ⟨fun hk => absurd rfl hk, fun _ => ⟨items, l, rfl, rfl, h⟩⟩
    | _ => exact absurd h id

section Handlers

variable {E : Access} {S : Store} {key : Bytes} {α β : Type}

theorem Access.Grants.validateWrite_eq (h : E.Grants key) (cmd : Bytes) : validateWrite E cmd key = none := by
  obtain ⟨g, hg⟩ := h.mapped
  simp [validateWrite, h.noWildcard, h.notNative, hg, h.inFilter, h.writable, h.canWrite]

theorem Access.Grants.readAs_eq (h : E.Grants key) (typ : Bytes) (cast : Json → Option α) (absent : RespValue)
    (body : α → RespValue) : readAs E S key typ cast absent body =
      (readStored E.floats S key typ cast).elim absent errWrongType body := by
  obtain ⟨g, hg⟩ := h.mapped
  simp [readAs, h.canRead, hg]

def published (F : Floats) (S : Store) (key typ : Bytes) : Option Json → Option Bytes
  | none => S key
  | some v => some (encodeEnvelope F typ v)

theorem Access.Grants.finish_eq (h : E.Grants key) (typ : Bytes) (p : Option Json × RespValue) :
    (finish E S key typ p).2 = p.2 ∧ (finish E S key typ p).1 key = published E.floats S key typ p.1 := by
  obtain ⟨new, reply⟩ := p
  cases new with
  | none => exact ⟨rfl, rfl⟩
  | some v =>
    rw [finish, publishMessage, h.publishes]
    exact ⟨rfl, Function.update_self key _ S⟩

theorem Access.Grants.writeAs_eq (h : E.Grants key) (cmd typ : Bytes) (cast : Json → Option α)
    (absent : Option Json × RespValue) (body : α → Option Json × RespValue) :
    writeAs E S cmd key typ cast absent body =
      finish E S key typ ((readStored E.floats S key typ cast).elim absent (none, errWrongType) body) := by
  rw [writeAs, h.validateWrite_eq]

private theorem payload_of_represents_none {F : Floats} (h : Represents F (S key) none) : S key = none := by
  cases hp : S key with
  | none => rfl
  | some p =>
    rw [hp] at h
    exact absurd h id

variable {k : Value.Kind} {s : Option Value}

/-- What a handler finds under the key: nothing, a value of another type, or what the data type has. -/
theorem readStored_cases {cast : Json → Option α} {view : Value → Option β} {R : α → β → Prop}
    (ht : Typed k cast view R) (h : Represents E.floats (S key) s) :
    (s = none ∧ readStored E.floats S key k.name cast = .absent) ∨
      (∃ v, s = some v ∧ view v = none ∧ readStored E.floats S key k.name cast = .wrong) ∨
      ∃ v a b, s = some v ∧ view v = some b ∧ R a b ∧ readStored E.floats S key k.name cast = .value a := by
  cases s with
  | none =>
    left
    rw [readStored, payload_of_represents_none h]
    exact ⟨rfl, rfl⟩
  | some s =>
    right
    cases hp : S key with
    | none =>
      rw [hp] at h
      exact absurd h id
    | some p =>
      rw [hp] at h
      obtain ⟨v, hd, hshow⟩ := h
      obtain ⟨hother, hsame⟩ := ht v s hshow
      have hread : readStored E.floats S key k.name cast =
          if s.kind.name ≠ k.name then .wrong else ((cast v).map .value).getD .wrong := by
        rw [readStored, hp]
        dsimp only
        rw [hd]
        rfl
      by_cases hk : s.kind = k
      · right
        obtain ⟨a, b, hcast, hview, hR⟩ := hsame hk
        refine ⟨s, a, b, rfl, hview, hR, ?_⟩
        rw [hread, hk, if_neg (not_not.mpr rfl), hcast]
        rfl
      · left
        refine ⟨s, rfl, hother hk, ?_⟩
        have hname : s.kind.name ≠ k.name := by
          revert hk
          cases s.kind <;> cases k <;> decide
        rw [hread, if_pos hname]

/-- A handler's answer is that of the data type, and the key holds what the data type has then. -/
def Agrees (E : Access) (key : Bytes) (r : Store × RespValue) (q : Option Value × RespValue) : Prop :=
  r.2 = q.2 ∧ Represents E.floats (r.1 key) q.1

theorem Access.Grants.read_agrees (hE : E.Grants key) {cast : Json → Option α}
    {view : Value → Option β} {R : α → β → Prop} (ht : Typed k cast view R)
    (h : Represents E.floats (S key) s) (absent : RespValue) (body : α → RespValue) (empty : β)
    (body' : β → RespValue) (habsent : s = none → absent = body' empty) (hbody : ∀ a b, R a b → body a = body' b) :
    Agrees E key (S, readAs E S key k.name cast absent body) (Value.onType view empty s fun b => (s, body' b)) := by
  rw [hE.readAs_eq]
  rcases readStored_cases ht h with ⟨rfl, hread⟩ | ⟨v, rfl, hview, hread⟩ | ⟨v, a, b, rfl, hview, hR, hread⟩
  · rw [hread]
    exact ⟨habsent rfl, h⟩
  · rw [hread, Value.onType, hview]
    exact ⟨rfl, h⟩
  · rw [hread, Value.onType, hview]
    exact ⟨hbody a b hR, h⟩

theorem Access.Grants.write_agrees (hE : E.Grants key) {cast : Json → Option α}
    {view : Value → Option β} {R : α → β → Prop} (ht : Typed k cast view R)
    (h : Represents E.floats (S key) s) (cmd : Bytes) (absent : Option Json × RespValue)
    (body : α → Option Json × RespValue) (empty : β) (body' : β → Option Value × RespValue)
    (habsent : s = none → absent.2 = (body' empty).2 ∧
      Represents E.floats (published E.floats S key k.name absent.1) (body' empty).1)
    (hbody : ∀ v a b, s = some v → view v = some b → R a b → (body a).2 = (body' b).2 ∧
      Represents E.floats (published E.floats S key k.name (body a).1) (body' b).1) :
    Agrees E key (writeAs E S cmd key k.name cast absent body) (Value.onType view empty s body') := by
  rw [hE.writeAs_eq]
  rcases readStored_cases ht h with ⟨rfl, hread⟩ | ⟨v, rfl, hview, hread⟩ | ⟨v, a, b, rfl, hview, hR, hread⟩
  · rw [hread]
    obtain ⟨hreply, hkey⟩ := hE.finish_eq (S := S) k.name absent
    refine ⟨hreply.trans (habsent rfl).1, ?_⟩
    change Represents _ ((finish E S key k.name absent).1 key) _
    rw [hkey]
    exact (habsent rfl).2
  · rw [hread, Value.onType, hview]
    exact ⟨rfl, h⟩
  · rw [hread, Value.onType, hview]
    obtain ⟨hreply, hkey⟩ := hE.finish_eq (S := S) k.name (body a)
    obtain ⟨hreply', hrep⟩ := hbody v a b rfl hview hR
    refine ⟨hreply.trans hreply', ?_⟩
    change Represents _ ((finish E S key k.name (body a)).1 key) _
    rw [hkey]
    exact hrep

end Handlers

end MonsterMQ.Redis
