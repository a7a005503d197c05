import CppPaxos.ProposalID

/-!
# The calls on the communication interface

`paxos/messenger.h`: the roles never talk to the network themselves, they call
the virtual functions of `Messenger`. A call of one of these functions is a value
here, and each function of a role returns the calls it makes, in order.
-/

namespace CppPaxos

/-- The virtual functions of `class Messenger`, with their arguments. -/
inductive MessengerCall
  | sendPrepare (proposalID : ProposalID)
  | sendPromise (toUID : Str) (proposalID acceptID : ProposalID) (acceptValue : Str)
  | sendAccept (proposalID : ProposalID) (proposalValue : Str)
  | sendPermit (proposerUID : Str) (proposalID : ProposalID) (acceptedValue : Str)
  | onResolution (proposalID : ProposalID) (value : Str)
  | sendPrepareNACK (proposerUID : Str) (proposalID promisedID : ProposalID)
  | sendAcceptNACK (proposerUID : Str) (proposalID promisedID : ProposalID)
  | onLeadershipAcquired
  | onLeadershipLost
  | onLeadershipChange (previousLeaderUID newLeaderUID : Str)
  | sendHeartbeat (leaderUID : Str) (leaderProposalID : ProposalID)
  deriving DecidableEq, Repr

/-- The call sends a message; the others notify the owner. -/
def MessengerCall.isMessage : MessengerCall → Bool
  | .onResolution .. | .onLeadershipAcquired | .onLeadershipLost | .onLeadershipChange .. => false
  | _ => true

end CppPaxos
