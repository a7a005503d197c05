import CppPaxos.NodeSteps
import CppPaxos.Timer

/-!
# The server and its timers

`server.h` and `server.cpp`, as far as the server drives its Paxos node. `std::bind`
copies what it binds: the pulse timer holds a copy of the node, made in the constructor,
and sends the heartbeats of that copy.
-/

namespace CppPaxos

open Machines MessengerCall

/-- The callbacks of the timers. Two are bound to the server itself and call no function of the
node; the third is bound to a copy of the node. -/
inductive ServerCallback
  | sendPingMessage
  | pulse (paxosNode : PaxosNode)
  | dumpStatus

/-- What a call of a callback does to what it has bound, and the calls on the messenger. -/
def ServerCallback.call (callback : ServerCallback) (now : UInt64) :
    ServerCallback × List MessengerCall :=
  match callback with
  | .pulse paxosNode =>
    let (paxosNode, sent) := paxosNode.pulse now
    (.pulse paxosNode, sent)
  | .sendPingMessage => (.sendPingMessage, [])
  | .dumpStatus => (.dumpStatus, [])

/-- The messages that `HandleMessage` tells apart, with what it hands to the node. -/
inductive ServerMessage
  | ping
  | pong
  | heartbeat (leaderUID : Str) (leaderProposalID : ProposalID)
  | prepare
  | promise
  | accept
  | permit
  | prepareAck
  | acceptAck
  deriving DecidableEq

/-- `class Server`: the node and the timers. -/
structure Server where
  /-- `m_paxosNode`. -/
  paxosNode : PaxosNode
  /-- `m_timerManager`. -/
  timerManager : EzTimerManager ServerCallback

namespace Server

/-- The body of the constructor, once `m_paxosNode` is initialised. -/
def ofNode (paxosNode : PaxosNode) : Server where
  paxosNode := paxosNode
  timerManager :=
    ((EzTimerManager.new.addTimer 5000 .sendPingMessage).addTimer 10000
      (.pulse paxosNode)).addTimer 2000 .dumpStatus

/-- The constructor, with the readings of the clock by that of the node. -/
def new (myid : Str) (quorumSize : Int) (acceptorNow now : UInt64) (unset : PaxosNode.Unset) :
    Server :=
  ofNode (.new myid quorumSize 100000 50000 [] acceptorNow now unset)

/-- `HandleMessage`. Of the messages of Paxos only the heartbeat is handed to the node. -/
def handleMessage (S : Server) (now : UInt64) (message : ServerMessage) :
    Server × List MessengerCall :=
  match message with
  | .heartbeat leaderUID leaderProposalID =>
    let (paxosNode, sent) := S.paxosNode.receiveHeartbeat now leaderUID leaderProposalID
    ({ S with paxosNode := paxosNode }, sent)
  | _ => (S, [])

/-- `m_timerManager.checkTimer()`. -/
def checkTimer (S : Server) (clock : ℕ → Reading) : Server × List MessengerCall :=
  let (timerManager, sent) := S.timerManager.checkTimer ServerCallback.call clock
  ({ S with timerManager := timerManager }, sent)

end Server

/-- What the event loop of `Run` does. -/
inductive ServerAction
  | handleMessage (now : UInt64) (message : ServerMessage)
  | checkTimer (clock : ℕ → Reading)

namespace Server

/-- The server as a machine. -/
def machine : Machine Server ServerAction MessengerCall where
  step S
    | .handleMessage now message => S.handleMessage now message
    | .checkTimer clock => S.checkTimer clock

/-- The three timers of a server, with the times of their last executions and the copy of the node
that the second one holds. -/
def timers (ping pulse status : UInt64) (copy : PaxosNode) : EzTimerManager ServerCallback :=
  ⟨[⟨5000, ping, .sendPingMessage⟩, ⟨10000, pulse, .pulse copy⟩, ⟨2000, status, .dumpStatus⟩]⟩

/-- The pulse timer is due, at the time of its last execution and the current one. -/
def PulseIsDue (pulse nowMs : UInt64) : Prop := pulse = 0 ∨ pulse + 10000 < nowMs

instance (pulse nowMs : UInt64) : Decidable (PulseIsDue pulse nowMs) :=
  inferInstanceAs (Decidable (_ ∨ _))

/-- The timers of a new server. -/
theorem ofNode_timerManager (N : PaxosNode) : (ofNode N).timerManager = timers 0 0 0 N := rfl

/-- A timer that calls no function of the node only notes the time. -/
theorem execute_silent (callback : ServerCallback)
    (h : ∀ now, callback.call now = (callback, [])) (period : Int64) (last : UInt64)
    (now : Reading) :
    ∃ last', (⟨period, last, callback⟩ : EzTimer ServerCallback).execute ServerCallback.call now =
      (⟨period, last', callback⟩, []) := by
  by_cases hdue : (⟨period, last, callback⟩ : EzTimer ServerCallback).isDue now.ms
  · exact ⟨now.ms, by rw [EzTimer.execute_of_isDue hdue, h]⟩
  · exact ⟨last, EzTimer.execute_of_not_isDue hdue⟩

/-- When the pulse timer is due. -/
theorem isDue_pulse_iff (pulse nowMs : UInt64) (copy : PaxosNode) :
    (⟨10000, pulse, .pulse copy⟩ : EzTimer ServerCallback).isDue nowMs ↔
      PulseIsDue pulse nowMs := by
  have hperiod : (10000 : Int64).toUInt64 = 10000 := rfl
  simp only [EzTimer.isDue, PulseIsDue, hperiod, decide_eq_true_eq]

/-- A check of the timers pulses the copy, if the pulse timer is due, and does nothing else that
concerns a node. -/
theorem checkTimer_timers (ping pulse status : UInt64) (copy : PaxosNode) (clock : ℕ → Reading) :
    ∃ ping' status', (timers ping pulse status copy).checkTimer ServerCallback.call clock =
      if PulseIsDue pulse (clock 1).ms then
        (timers ping' (clock 1).ms status' (copy.pulse (clock 1).us).1,
          (copy.pulse (clock 1).us).2)
      else (timers ping' pulse status' copy, []) := by
  obtain ⟨ping', hping⟩ :=
    execute_silent .sendPingMessage (fun _ => rfl) 5000 ping (clock 0)
  obtain ⟨status', hstatus⟩ :=
    execute_silent .dumpStatus (fun _ => rfl) 2000 status (clock 2)
  refine ⟨ping', status', ?_⟩
  have hdue := isDue_pulse_iff pulse (clock 1).ms copy
  simp only [EzTimerManager.checkTimer, timers, EzTimerManager.executeAll, hping, hstatus]
  by_cases hfires : PulseIsDue pulse (clock 1).ms
  · rw [if_pos hfires, EzTimer.execute_of_isDue (hdue.mpr hfires)]
    simp [ServerCallback.call]
  · rw [if_neg hfires, EzTimer.execute_of_not_isDue (mt hdue.mp hfires)]
    rfl

end Server

end CppPaxos
