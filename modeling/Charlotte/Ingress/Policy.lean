import Charlotte.Graft.Types
import Charlotte.Lib.ByteCodec
import Charlotte.Lib.SwapRemove

/-!
# Ingress policy

`cluster_ingress.rs`: the snapshots of eligible backends, the choice of a backend for a flow, and
the two bounded tables of the frame router, the recent snapshots and the epochs of the flows.
-/

namespace Charlotte.Ingress

open Lib List Option
open Graft (Bytes ascii)

structure ServiceId where
  address : Bytes
  protocol : UInt8
  port : UInt16
  deriving DecidableEq, Repr

variable (service : ServiceId)

def ServiceId.isValid : Bool :=
  service.address != [0, 0, 0, 0] && service.address.headD 0 < 224 && service.protocol == 6 &&
    service.port != 0

structure FlowKey where
  protocol : UInt8
  srcAddr : Bytes
  dstAddr : Bytes
  srcPort : UInt16
  dstPort : UInt16
  deriving DecidableEq, Repr

structure ParsedFlow where
  key : FlowKey
  terminal : Bool
  deriving DecidableEq, Repr

inductive FlowPolicyError
  | noSnapshot
  | snapshotStale
  | missingEpoch
  deriving DecidableEq, Repr

structure Backend where
  nodeId : UInt64
  mac : Bytes
  deriving DecidableEq, Repr

structure BackendSnapshot where
  epoch : UInt64
  selfNode : UInt64
  advertiserNode : Option UInt64
  members : List Backend
  /-- The members that accept new flows. -/
  backends : List Backend
  deriving DecidableEq, Repr

/-! ### Fingerprints -/

def hashBytes (hash : UInt64) (bytes : Bytes) : UInt64 :=
  bytes.foldl (fun hash byte => (hash ^^^ byte.toUInt64) * 0x100000001b3) hash

def avalanche (value : UInt64) : UInt64 :=
  let value := (value ^^^ (value >>> 30)) * 0xbf58476d1ce4e5b9
  let value := (value ^^^ (value >>> 27)) * 0x94d049bb133111eb
  value ^^^ (value >>> 31)

/-- The hash of what is fed to it piece by piece. -/
def fingerprint (bytes : Bytes) : UInt64 := avalanche (hashBytes 0xcbf29ce484222325 bytes)

/-- `to_le_bytes`. -/
def word (value : UInt64) : Bytes := leBytes 8 value.toNat

def port (value : UInt16) : Bytes := beBytes 2 value.toNat

/-! ### The backend of a flow -/

variable (flow : FlowKey)

def rendezvousScore (nodeId : UInt64) : UInt64 :=
  fingerprint (ascii "Charlotte L2 rendezvous v1\x00" ++ service.address ++ [service.protocol] ++
    port service.port ++ [flow.protocol] ++ flow.srcAddr ++ flow.dstAddr ++ port flow.srcPort ++
    port flow.dstPort ++ word nodeId)

/-- The last of the greatest elements, as `max_by` returns it. -/
def maxBy {α : Type} (less : α → α → Bool) : List α → Option α
  | [] => none
  | first :: rest => some (rest.foldl (fun best next => if less next best then best else next) first)

/-- The order of two backends: by score, then by node. -/
def ranksBelow (left right : UInt64) : Bool :=
  let a := rendezvousScore service flow left
  let b := rendezvousScore service flow right
  a < b || (a == b && left < right)

def selectBackend (snapshot : BackendSnapshot) : Option Backend :=
  if service.isValid && flow.protocol == service.protocol then
    maxBy (fun left right => ranksBelow service flow left.nodeId right.nodeId) snapshot.backends
  else none

def BackendSnapshot.nodes (s : BackendSnapshot) : List UInt64 := s.backends.map (·.nodeId)

theorem maxBy_map {α β : Type} (f : α → β) (less : β → β → Bool) (list : List α) :
    (maxBy (fun a b => less (f a) (f b)) list).map f = maxBy less (list.map f) := by
  cases list with
  | nil => rfl
  | cons first rest =>
    simp only [maxBy, map_cons, map_some, some.injEq]
    induction rest generalizing first with
    | nil => rfl
    | cons next rest ih =>
      simp only [foldl_cons, map_cons]
      rw [ih]
      split <;> rfl

/-- The backend of a flow depends on the eligible nodes only. -/
theorem selectBackend_nodes {s s' : BackendSnapshot} (h : s.nodes = s'.nodes) :
    (selectBackend service flow s).map (·.nodeId) = (selectBackend service flow s').map (·.nodeId) := by
  unfold selectBackend
  split
  · have hmap := maxBy_map Backend.nodeId (ranksBelow service flow)
    exact (hmap s.backends).trans ((congrArg _ h).trans (hmap s'.backends).symm)
  · rfl

/-! ### Recent snapshots -/

structure SnapshotHistory where
  /-- The last one is the current one. -/
  snapshots : List BackendSnapshot
  capacity : ℕ

namespace SnapshotHistory

def new (capacity : ℕ) : SnapshotHistory := ⟨[], capacity⟩

def install (h : SnapshotHistory) (snapshot : BackendSnapshot) : SnapshotHistory :=
  if h.capacity = 0 then h
  else
    match h.snapshots.findIdx? (·.epoch == snapshot.epoch) with
    | some index => { h with snapshots := h.snapshots.set index snapshot }
    | none =>
      let kept := if h.snapshots.length = h.capacity then h.snapshots.tail else h.snapshots
      { h with snapshots := kept ++ [snapshot] }

def current (h : SnapshotHistory) : Option BackendSnapshot := h.snapshots.getLast?

def get (h : SnapshotHistory) (epoch : UInt64) : Option BackendSnapshot :=
  h.snapshots.find? (·.epoch == epoch)

end SnapshotHistory

/-! ### Epochs of flows -/

structure FlowBinding where
  flow : FlowKey
  epoch : UInt64
  lastSeen : UInt64
  deriving DecidableEq, Repr

structure FlowEpochTable where
  entries : List FlowBinding
  capacity : ℕ
  clock : UInt64

namespace FlowEpochTable

def new (capacity : ℕ) : FlowEpochTable := ⟨[], capacity, 0⟩

/-- The first entry that was seen least recently. -/
def oldest (entries : List FlowBinding) : ℕ :=
  entries.findIdx fun entry => entries.all fun other => decide (entry.lastSeen ≤ other.lastSeen)

def observe (t : FlowEpochTable) (packet : ParsedFlow) (currentEpoch : UInt64) (allowNew : Bool) :
    Option UInt64 × FlowEpochTable :=
  let clock := max (t.clock + 1) 1
  match t.entries.zipIdx.find? (·.1.flow == packet.key) with
  | some (entry, index) =>
    let entries :=
      if packet.terminal then swapRemove t.entries index
      else t.entries.set index { entry with lastSeen := clock }
    (some entry.epoch, { t with entries, clock })
  | none =>
    if !allowNew then (none, { t with clock })
    else if packet.terminal || t.capacity == 0 then (some currentEpoch, { t with clock })
    else
      let kept := if t.entries.length = t.capacity then swapRemove t.entries (oldest t.entries)
        else t.entries
      (some currentEpoch, { t with entries := kept ++ [⟨packet.key, currentEpoch, clock⟩], clock })

/-- A flow is kept if its snapshot is no longer known, or if its backend is still a member. -/
def removeAbsentBackends (t : FlowEpochTable) (service : ServiceId) (history : SnapshotHistory)
    (current : BackendSnapshot) : FlowEpochTable :=
  { t with entries := t.entries.filter fun entry =>
      match history.get entry.epoch with
      | none => true
      | some snapshot => (selectBackend service entry.flow snapshot).any fun selected =>
          current.members.any (·.nodeId == selected.nodeId) }

end FlowEpochTable

def snapshotForFlow (packet : ParsedFlow) (history : SnapshotHistory) (flows : FlowEpochTable)
    (fresh : Bool) : Except FlowPolicyError BackendSnapshot × FlowEpochTable :=
  match history.current with
  | none => (.error .noSnapshot, flows)
  | some current =>
    match flows.observe packet current.epoch fresh with
    | (none, flows) => (.error .snapshotStale, flows)
    | (some epoch, flows) =>
      match history.get epoch with
      | none => (.error .missingEpoch, flows)
      | some snapshot => (.ok snapshot, flows)

end Charlotte.Ingress
