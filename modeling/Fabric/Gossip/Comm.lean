import Fabric.Gossip.ConnStore

/-!
# The communication layer

Streams that come in are authenticated, registered in the connection store and served until they
end. Messages are sent on connections that the store has or makes. When a stream has ended or a
message could not be sent, the connection that the store then has for the PKI id is closed.
-/

namespace Fabric.Gossip

open Fabric.Common Option

/-- A message that is in the buffer of a connection, with the PKI id of the peer it is for. -/
structure Sending where
  pkiID : PKIidType
  conn : Connection
  deriving DecidableEq

/-- Where a teardown stands, and the connection whose stream has ended or that could not send. -/
inductive Teardown
  | disconnect (key : Bytes) (conn : Option Connection)
  | close (key : Bytes) (conn : Option Connection)
  deriving DecidableEq

/-- The connection that a teardown is for, with the key that it closes. -/
def Teardown.owed : Teardown → Option (Bytes × Connection)
  | disconnect key conn | close key conn => conn.map (key, ·)

/-- The PKI id that the peer has authenticated with. -/
def Remote.pkiID? : Remote → Option Bytes
  | authenticated pkiID => some pkiID
  | _ => none

structure Comm where
  store : ConnStore
  stopping : Bool
  blackListedPKIIDs : List Bytes
  /-- `BlackListPKIid` holds the lock of the layer, and has closed the connection -/
  blackListing : Option Bytes
  /-- streams that came in and are about to be authenticated -/
  accepted : ℕ
  /-- streams that are authenticated and about to be registered -/
  authenticated : List Bytes
  serving : List Connection
  sending : List Sending
  teardowns : List Teardown

namespace Comm

def newComm : Comm := ⟨.newConnStore, false, [], none, 0, [], [], [], []⟩

inductive Label
  | send (pkiID : PKIidType)
  | advance (call : Call)
  | create (pkiID : PKIidType) (lock : ℕ) (remote : Remote)
  | enqueue (pkiID : PKIidType) (conn : Connection)
  | noConnection (pkiID : PKIidType)
  | sent (m : Sending)
  | sendFails (m : Sending)
  | disconnect (key : Bytes) (conn : Option Connection)
  | close (key : Bytes) (conn : Option Connection)
  | accept
  | authenticate (remote : Remote)
  | register (pkiID : Bytes)
  | streamEnds (conn : Connection)
  | closeConn (pkiID : PKIidType)
  | blackListPKIid (pkiID : Bytes)
  | blackListed
  | stop
  | shutdown
  | produce (r : Range) (key : Bytes)
  | endRange (r : Range)
  | closer (r : Range) (key : Bytes)
  | endShutdown (r : Range)

def onStore (c : Comm) (l : ConnStore.Label) : Option Comm :=
  (c.store.step l).map fun store => { c with store := store }

def isPKIblackListed (c : Comm) (pkiID : Bytes) : Bool := c.blackListedPKIIDs.contains pkiID

/-- The end of `authenticateRemotePeer`: the comparison with the blacklist, under its lock. -/
def authenticateRemotePeer (c : Comm) : Remote → Option Remote
  | .authenticated pkiID =>
    if c.blackListing.isSome then none
    else some (if c.isPKIblackListed pkiID then .failed else .authenticated pkiID)
  | remote => some remote

def act (c : Comm) : Label → Option Comm
  -- sendToEndpoint
  | .send pkiID => if c.stopping then none else c.onStore (.getConnection pkiID)
  | .advance call => if call.isReturned then none else c.onStore (.advance call)
  | .create pkiID lock remote =>
    (c.authenticateRemotePeer remote).bind fun remote => c.onStore (.create pkiID lock remote)
  | .enqueue pkiID conn =>
    (c.onStore (.advance (.returned pkiID (some conn)))).map fun c =>
      { c with sending := ⟨pkiID, conn⟩ :: c.sending }
  | .noConnection pkiID =>
    (c.onStore (.advance (.returned pkiID none))).map fun c =>
      { c with teardowns := .disconnect pkiID.key none :: c.teardowns }
  | .sent m => if m ∈ c.sending then some { c with sending := c.sending.erase m } else none
  | .sendFails m =>
    if m ∈ c.sending then
      some { c with
        sending := c.sending.erase m
        teardowns := .disconnect m.pkiID.key (some m.conn) :: c.teardowns }
    else none
  -- disconnect
  | .disconnect key conn =>
    if .disconnect key conn ∈ c.teardowns then
      let rest := c.teardowns.erase (.disconnect key conn)
      some { c with teardowns := if c.stopping then rest else .close key conn :: rest }
    else none
  | .close key conn =>
    if .close key conn ∈ c.teardowns then
      { c with teardowns := c.teardowns.erase (.close key conn) }.onStore (.closeByPKIid key)
    else none
  -- GossipStream
  | .accept => if c.stopping then none else some { c with accepted := c.accepted + 1 }
  | .authenticate remote =>
    if 0 < c.accepted then
      (c.authenticateRemotePeer remote).map fun remote => { c with
        accepted := c.accepted - 1
        authenticated := remote.pkiID?.toList ++ c.authenticated }
    else none
  | .register pkiID =>
    if c.authenticated.contains pkiID then
      { c with
        authenticated := c.authenticated.erase pkiID
        serving := c.store.newConnection pkiID :: c.serving }.onStore (.onConnected pkiID)
    else none
  | .streamEnds conn =>
    if conn ∈ c.serving then
      some { c with
        serving := c.serving.erase conn
        teardowns := .close conn.pkiID (some conn) :: c.teardowns }
    else none
  | .closeConn pkiID => c.onStore (.closeConn pkiID)
  | .blackListPKIid pkiID =>
    if c.blackListing.isNone then
      { c with blackListing := some pkiID }.onStore (.closeByPKIid pkiID)
    else none
  | .blackListed =>
    c.blackListing.map fun pkiID =>
      { c with blackListedPKIIDs := c.blackListedPKIIDs ++ [pkiID], blackListing := none }
  -- Stop
  | .stop => if c.stopping then none else some { c with stopping := true }
  | .shutdown => if c.stopping then c.onStore .shutdown else none
  | .produce r key => c.onStore (.produce r key)
  | .endRange r => c.onStore (.endRange r)
  | .closer r key => c.onStore (.closer r key)
  | .endShutdown r => c.onStore (.endShutdown r)

/-- A panic in the store ends the process. -/
def step (c : Comm) (l : Label) : Option Comm := if c.store.panicked then none else c.act l

/-! ### What a step changes -/

variable {c c' : Comm} {l : Label} {sl : ConnStore.Label} {key pkiID : Bytes} {conn : Connection}

theorem act_of_step (h : c.step l = some c') : c.act l = some c' :=
  (ite_none_left_eq_some.mp h).2

/-- The step of the store that a step of the layer takes. -/
def drives (c : Comm) : Label → Option ConnStore.Label
  | .send pkiID => some (.getConnection pkiID)
  | .advance call => some (.advance call)
  | .create pkiID lock remote => (c.authenticateRemotePeer remote).map (.create pkiID lock)
  | .enqueue pkiID conn => some (.advance (.returned pkiID (some conn)))
  | .noConnection pkiID => some (.advance (.returned pkiID none))
  | .close key _ => some (.closeByPKIid key)
  | .register pkiID => some (.onConnected pkiID)
  | .closeConn pkiID => some (.closeConn pkiID)
  | .blackListPKIid pkiID => some (.closeByPKIid pkiID)
  | .shutdown => some .shutdown
  | .produce r key => some (.produce r key)
  | .endRange r => some (.endRange r)
  | .closer r key => some (.closer r key)
  | .endShutdown r => some (.endShutdown r)
  | _ => none

theorem store_of_act (h : c.act l = some c') :
    c'.store = c.store ∨ ∃ sl, c.drives l = some sl ∧ c.store.step sl = some c'.store := by
  cases l <;> simp only [act, onStore, map_eq_some_iff, bind_eq_some_iff,
    ite_none_left_eq_some, ite_none_right_eq_some] at h <;> grind [drives]

/-- The peer is blacklisted, or about to be. -/
def Barred (c : Comm) (pkiID : Bytes) : Prop :=
  pkiID ∈ c.blackListedPKIIDs ∨ c.blackListing = some pkiID

theorem barred_of_act (h : c.act l = some c') :
    (∀ pkiID, c'.Barred pkiID → c.Barred pkiID ∨ l = .blackListPKIid pkiID) ∧
      c.blackListedPKIIDs ⊆ c'.blackListedPKIIDs := by
  cases l <;> simp only [act, onStore, map_eq_some_iff, bind_eq_some_iff,
    ite_none_left_eq_some, ite_none_right_eq_some] at h <;> grind [Barred]

theorem authenticated_of_act (h : c.act l = some c') : ∀ pkiID ∈ c'.authenticated,
    pkiID ∈ c.authenticated ∨
      ∃ remote, c.authenticateRemotePeer remote = some (.authenticated pkiID) := by
  cases l <;> simp only [act, onStore, map_eq_some_iff, bind_eq_some_iff,
    ite_none_left_eq_some, ite_none_right_eq_some] at h <;> grind [Remote.pkiID?, cases Remote]

/-- The teardowns that wait or may follow, with the key they close and the connection they are for.
-/
def owed (c : Comm) : List (Bytes × Connection) :=
  c.serving.map (fun conn => (conn.pkiID, conn)) ++
    c.sending.map (fun m => (m.pkiID.key, m.conn)) ++ c.teardowns.filterMap Teardown.owed ++
      c.store.granted

theorem owed_of_act {x : Bytes × Connection} (h : c.act l = some c') (hx : x ∈ c'.owed) :
    x ∈ c.owed ∨ (∃ pkiID, l = .register pkiID ∧ x = (pkiID, c.store.newConnection pkiID)) ∨
      x ∈ c'.store.granted := by
  cases l <;> simp only [act, onStore, map_eq_some_iff, bind_eq_some_iff,
    ite_none_left_eq_some, ite_none_right_eq_some] at h <;> grind [owed, Teardown.owed,
    ConnStore.newConnection, ConnStore.granted_of_returned]

/-- A new entry is a stream that was authenticated, or a connection that a call had created. -/
theorem entry_of_act (h : c.act l = some c') (hentry : c'.store.entry key = some conn) :
    c.store.entry key = some conn ∨ (l = .register key ∧ conn = c.store.newConnection key) ∨
      ∃ id, l = .advance (.register id (.conn conn)) ∧ conn.pkiID = key ∧
        .register id (.conn conn) ∈ c.store.calls ∧ c.store.entry id.key = none := by
  rcases store_of_act h with heq | ⟨sl, hdrives, hstep⟩
  · exact .inl (heq ▸ hentry)
  · rcases ConnStore.entry_of_step hstep hentry with hold | ⟨rfl, rfl⟩ | ⟨id, rfl, hrest⟩
    · exact .inl hold
    · cases l <;> simp [drives] at hdrives
      exact .inr (.inl ⟨by rw [hdrives], rfl⟩)
    · cases l <;> simp [drives] at hdrives
      exact .inr (.inr ⟨id, by rw [hdrives], hrest⟩)

end Comm

end Fabric.Gossip
