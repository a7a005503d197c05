import CppPaxos.Messenger
import CppPaxos.Library.Machine

/-!
# The acceptor

`paxos/acceptor.h` and `paxos/acceptor.cpp`. A positive answer is normally
deferred: the request is recorded under a pending UID, and `persisted`, called by
the owner once the state is on disk, sends the answer. While a UID is pending no
further request of that kind changes the state.
-/

namespace CppPaxos

open Machines MessengerCall

/-- `class Acceptor`. -/
structure Acceptor where
  /-- `m_acceptorUID`. -/
  acceptorUID : Str
  /-- `m_livenessWindow`, in microseconds. -/
  livenessWindow : UInt64
  /-- `m_promisedID`: the ID of the prepare request the acceptor is committed to. -/
  promisedID : ProposalID
  /-- `m_pendingPromiseUID`: the proposer whose promise waits for persistence. -/
  pendingPromiseUID : Str
  /-- `m_lastPrepareTimestamp`. -/
  lastPrepareTimestamp : UInt64
  /-- `m_acceptedID`: the largest ID accepted. -/
  acceptedID : ProposalID
  /-- `m_acceptedValue`: the value accepted with it. -/
  acceptedValue : Str
  /-- `m_pendingAcceptUID`: the proposer whose permit waits for persistence. -/
  pendingAcceptUID : Str
  /-- `m_active`. -/
  active : Bool
  deriving DecidableEq, Repr

namespace Acceptor

/-- The constructor, which reads the clock once. It leaves `m_active` unset, so its
first content is an argument. -/
def new (acceptorUID : Str) (livenessWindow now : UInt64) (active : Bool) : Acceptor where
  acceptorUID := acceptorUID
  livenessWindow := livenessWindow
  promisedID := .empty
  pendingPromiseUID := []
  lastPrepareTimestamp := now
  acceptedID := .empty
  acceptedValue := []
  pendingAcceptUID := []
  active := active

/-- `receivePrepare`; `now` is the reading of the clock at its end. -/
def receivePrepare (A : Acceptor) (now : UInt64) (fromUID : Str) (proposalID : ProposalID) :
    Acceptor × List MessengerCall :=
  let stamped := { A with lastPrepareTimestamp := now }
  if A.promisedID.isValid ∧ proposalID = A.promisedID then
    -- a duplicate is answered at once, from the state in memory
    (stamped,
      if A.active then [sendPromise fromUID proposalID A.acceptedID A.acceptedValue] else [])
  else if ¬A.promisedID.isValid ∨ proposalID > A.promisedID then
    if A.pendingPromiseUID.isEmpty then
      ({ stamped with
          promisedID := proposalID
          pendingPromiseUID := if A.active then fromUID else A.pendingPromiseUID }, [])
    else (stamped, [])
  else
    (stamped, if A.active then [sendPrepareNACK fromUID proposalID A.promisedID] else [])

/-- `receiveAcceptRequest`. -/
def receiveAcceptRequest (A : Acceptor) (fromUID : Str) (proposalID : ProposalID) (value : Str) :
    Acceptor × List MessengerCall :=
  if A.acceptedID.isValid ∧ proposalID = A.acceptedID ∧ A.acceptedValue = value then
    (A, if A.active then [sendPermit fromUID proposalID value] else [])
  else if ¬A.promisedID.isValid ∨ proposalID > A.promisedID ∨ proposalID = A.promisedID then
    if A.pendingAcceptUID.isEmpty then
      ({ A with
          promisedID := proposalID
          acceptedID := proposalID
          acceptedValue := value
          pendingAcceptUID := if A.active then fromUID else A.pendingAcceptUID }, [])
    else (A, [])
  else
    (A, if A.active then [sendAcceptNACK fromUID proposalID A.promisedID] else [])

/-- `isPrepareExpire`; the subtraction is on unsigned 64-bit numbers. -/
def isPrepareExpire (A : Acceptor) (now : UInt64) : Bool :=
  now - A.lastPrepareTimestamp > A.livenessWindow

/-- `persistenceRequired`. -/
def persistenceRequired (A : Acceptor) : Bool :=
  !A.pendingAcceptUID.isEmpty || !A.pendingPromiseUID.isEmpty

/-- `recover`. -/
def recover (A : Acceptor) (promisedID acceptedID : ProposalID) (acceptedValue : Str) :
    Acceptor :=
  { A with promisedID := promisedID, acceptedID := acceptedID, acceptedValue := acceptedValue }

/-- `persisted`: the deferred answers carry the state of now, not of the request. -/
def persisted (A : Acceptor) : Acceptor × List MessengerCall :=
  ({ A with pendingPromiseUID := [], pendingAcceptUID := [] },
    if A.active then
      (if ¬A.pendingPromiseUID.isEmpty then
        [sendPromise A.pendingPromiseUID A.promisedID A.acceptedID A.acceptedValue] else []) ++
      (if ¬A.pendingAcceptUID.isEmpty then
        [sendPermit A.pendingAcceptUID A.acceptedID A.acceptedValue] else [])
    else [])

/-- `setActive`. -/
def setActive (A : Acceptor) (active : Bool) : Acceptor := { A with active := active }

/-- The accepted pair, where the code's own test `m_acceptedID.isValid()` says there is one. -/
def acceptedPair (A : Acceptor) : Option (ProposalID × Str) :=
  if A.acceptedID.isValid then some (A.acceptedID, A.acceptedValue) else none

/-- What it means for a pair to be the accepted one. -/
theorem acceptedPair_eq_some {A : Acceptor} {p : ProposalID} {v : Str} :
    A.acceptedPair = some (p, v) ↔
      A.acceptedID.isValid ∧ A.acceptedID = p ∧ A.acceptedValue = v := by
  simp only [acceptedPair, Option.ite_none_right_eq_some, Option.some.injEq, Prod.mk.injEq]

/-- The condition under which an accept request is recorded as the accepted pair: it is no
duplicate, the promise allows it and no earlier permit is pending. -/
def Records (A : Acceptor) (proposalID : ProposalID) (value : Str) : Prop :=
  ¬(A.acceptedID.isValid ∧ proposalID = A.acceptedID ∧ A.acceptedValue = value) ∧
    (¬A.promisedID.isValid ∨ proposalID > A.promisedID ∨ proposalID = A.promisedID) ∧
    A.pendingAcceptUID.isEmpty

instance (A : Acceptor) (proposalID : ProposalID) (value : Str) :
    Decidable (A.Records proposalID value) :=
  inferInstanceAs (Decidable (_ ∧ _ ∧ _))

/-- An accept request sets the accepted pair exactly when it is recorded. -/
theorem receiveAcceptRequest_accepted (A : Acceptor) (fromUID : Str) (proposalID : ProposalID)
    (value : Str) :
    ((A.receiveAcceptRequest fromUID proposalID value).1.acceptedID,
      (A.receiveAcceptRequest fromUID proposalID value).1.acceptedValue) =
      if A.Records proposalID value then (proposalID, value)
      else (A.acceptedID, A.acceptedValue) := by
  unfold receiveAcceptRequest
  by_cases hsame : A.acceptedID.isValid ∧ proposalID = A.acceptedID ∧ A.acceptedValue = value
  · rw [if_pos hsame, if_neg fun h : A.Records proposalID value => h.1 hsame]
  · rw [if_neg hsame]
    by_cases hallowed :
        ¬A.promisedID.isValid ∨ proposalID > A.promisedID ∨ proposalID = A.promisedID
    · rw [if_pos hallowed]
      by_cases hpending : A.pendingAcceptUID.isEmpty
      · have hrecords : A.Records proposalID value := ⟨hsame, hallowed, hpending⟩
        rw [if_pos hpending, if_pos hrecords]
      · rw [if_neg hpending, if_neg fun h : A.Records proposalID value => hpending h.2.2]
    · rw [if_neg hallowed, if_neg fun h : A.Records proposalID value => hallowed h.2.1]

end Acceptor

/-- A call of a member function of `Acceptor` that changes its state or sends a message. -/
inductive AcceptorCall
  | receivePrepare (now : UInt64) (fromUID : Str) (proposalID : ProposalID)
  | receiveAcceptRequest (fromUID : Str) (proposalID : ProposalID) (value : Str)
  | persisted
  | setActive (active : Bool)
  deriving DecidableEq, Repr

namespace Acceptor

/-- The acceptor as a machine. -/
def machine : Machine Acceptor AcceptorCall MessengerCall where
  step A
    | .receivePrepare now fromUID proposalID => A.receivePrepare now fromUID proposalID
    | .receiveAcceptRequest fromUID proposalID value =>
      A.receiveAcceptRequest fromUID proposalID value
    | .persisted => A.persisted
    | .setActive active => (A.setActive active, [])

end Acceptor

end CppPaxos
