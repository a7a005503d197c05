import CppPaxos.Library.Voting
import CppPaxos.NodeCluster

/-!
# A cluster elects one leader, once

The acceptor of an active node is locked to the first ID that it records: it can record
no other one, and every promise it sends is for that ID, to the node the ID belongs to.
So the acceptors that have promised anything to two nodes are different ones, and no
two nodes are ever elected by quorums.
-/

namespace CppPaxos

open Machines MessengerCall

/-- The acceptor is locked to its promised ID, if it has one: it is active and its answer to the
prepare request never got persisted. Its promises are for that ID, to the proposer of that ID. -/
structure Acceptor.Locked (A : Acceptor) (sent : List MessengerCall) : Prop where
  invariant : A.Invariant
  active : A.active
  waits : A.promisedID.isValid → A.pendingPromiseUID ≠ []
  promise : ∀ u p r w, sendPromise u p r w ∈ sent → p.isValid ∧ p = A.promisedID ∧ u = p.uid

/-- A prepare request in the name of its proposer keeps the lock. -/
theorem Acceptor.Locked.step {A A' : Acceptor} {sent emitted : List MessengerCall}
    (h : A.Locked sent) {now : UInt64} {u : Str} {p : ProposalID} (hu : u = p.uid)
    (hstep : A.Step (.receivePrepare now u p) A' emitted) : A'.Locked (sent ++ emitted) := by
  have hI := hstep.invariant h.invariant
  cases hstep with
  | promiseAgain hvalid hsame =>
    refine ⟨hI, h.active, h.waits, fun u q r w hq => ?_⟩
    rcases List.mem_append.mp hq with hold | hnew
    · exact h.promise u q r w hold
    · simp only [h.active, if_true, List.mem_singleton, sendPromise.injEq] at hnew
      obtain ⟨rfl, rfl, -, -⟩ := hnew
      exact ⟨hvalid, hsame, hu⟩
  | promise hvalid hlt hpending =>
    refine ⟨hI, h.active, fun _ => ?_, fun u q r w hq => ?_⟩
    · simpa [h.active, hu, ProposalID.isValid] using hvalid
    · -- no answer waits, so nothing has been promised yet
      rw [List.append_nil] at hq
      obtain ⟨hq, hsame, -⟩ := h.promise u q r w hq
      rw [hsame] at hq
      exact absurd hpending (h.waits hq)
  | prepareIgnored hlt =>
    refine ⟨hI, h.active, h.waits, fun u q r w hq => ?_⟩
    rw [List.append_nil] at hq
    exact h.promise u q r w hq
  | prepareRefused hlt =>
    refine ⟨hI, h.active, h.waits, fun u q r w hq => ?_⟩
    rcases List.mem_append.mp hq with hold | hnew
    · exact h.promise u q r w hold
    · simp [h.active] at hnew

/-- So does anything that sends no promise and leaves the acceptor alone. -/
theorem Acceptor.Locked.append_silent {A : Acceptor} {sent emitted : List MessengerCall}
    (h : A.Locked sent) (hsilent : ∀ u p r w, sendPromise u p r w ∉ emitted) :
    A.Locked (sent ++ emitted) := by
  refine ⟨h.invariant, h.active, h.waits, fun u p r w hp => ?_⟩
  rcases List.mem_append.mp hp with hold | hnew
  · exact h.promise u p r w hold
  · exact absurd hnew (hsilent u p r w)

/-- Only prepare requests change the acceptor of an active node that stays active. -/
theorem PaxosNode.acceptor_next_eq {N : PaxosNode} (hactive : N.acceptor.active) {call : NodeCall}
    (hprepare : ∀ now u p, call ≠ .receivePrepare now u p) (hset : call ≠ .setActive false) :
    (machine.next N call).acceptor = N.acceptor := by
  rw [(N.next_roles call).1]
  cases call with
  | receivePrepare now u p => exact absurd rfl (hprepare now u p)
  | setActive active =>
    cases active with
    | false => exact absurd rfl hset
    | true =>
      cases hA : N.acceptor
      simp only [hA] at hactive
      simp [acceptorCalls, Machine.next, Acceptor.machine, Acceptor.setActive, hactive]
  | _ => rfl

namespace NodeSetup

variable {ι : Type*} {S : NodeSetup ι}

/-- Node `j` has sent a promise to node `i`. -/
def Promised (S : NodeSetup ι) (sent : ι → List MessengerCall) (j i : ι) : Prop :=
  ∃ p r w, sendPromise (S.nodeUID i) p r w ∈ sent j

/-- A quorum of nodes has sent promises to node `i`, for whatever IDs. -/
def Backed (S : NodeSetup ι) (sent : ι → List MessengerCall) (i : ι) : Prop :=
  ∃ Q : Finset ι, (UInt64.ofInt S.quorumSize).toNat ≤ Q.card ∧ ∀ j ∈ Q, S.Promised sent j i

/-- A promise that was sent stays sent. -/
theorem Promised.mono {sent sent' : ι → List MessengerCall} {i j : ι} (h : S.Promised sent j i)
    (hsent : ∀ j, sent j ⊆ sent' j) : S.Promised sent' j i := by
  obtain ⟨p, r, w, hmem⟩ := h
  exact ⟨p, r, w, hsent j hmem⟩

/-- So does the backing of a node. -/
theorem Backed.mono {sent sent' : ι → List MessengerCall} {i : ι} (h : S.Backed sent i)
    (hsent : ∀ j, sent j ⊆ sent' j) : S.Backed sent' i := by
  obtain ⟨Q, hQ, hpromised⟩ := h
  exact ⟨Q, hQ, fun j hj => (hpromised j hj).mono hsent⟩

/-- What is known of one node and of the messages sent. -/
structure ElectionFacts (S : NodeSetup ι) (sent : ι → List MessengerCall) (i : ι) (N : PaxosNode) :
    Prop where
  proposerUID : N.proposer.proposerUID = S.nodeUID i
  proposalID : N.proposer.proposalID.uid = S.nodeUID i
  quorumSize : N.proposer.quorumSize = (UInt64.ofInt S.quorumSize).toNat
  elected : N.proposer.Elected
  held : ∀ u ∈ N.proposer.promisesReceived, ∃ j, S.nodeUID j = u ∧ S.Promised sent j i
  locked : N.acceptor.Locked (sent i)
  prepare : ∀ p, sendPrepare p ∈ sent i → p.uid = S.nodeUID i
  heartbeat : ∀ u p, sendHeartbeat u p ∈ sent i → u = S.nodeUID i ∧ S.Backed sent i
  acknowledged : N.leaderUID = [] ∨ ∃ j, N.leaderUID = S.nodeUID j ∧ S.Backed sent j

/-- A leader has been promised something by a quorum. -/
theorem backed_of_leader [Fintype ι] {sent : ι → List MessengerCall} {i : ι} {P : Proposer}
    (helected : P.Elected) (hsize : P.quorumSize = (UInt64.ofInt S.quorumSize).toNat)
    (hheld : ∀ u ∈ P.promisesReceived, ∃ j, S.nodeUID j = u ∧ S.Promised sent j i)
    (hleader : P.leader) : S.Backed sent i := by
  refine ⟨Finset.univ.filter fun j => S.nodeUID j ∈ P.promisesReceived, ?_, fun j hj => ?_⟩
  · rw [← hsize]
    exact (helected hleader).trans
      (Voting.card_le_card_filter_name S.nodeUID fun u hu => (hheld u hu).imp fun _ hj => hj.1)
  · obtain ⟨l, hl, hpromised⟩ := hheld _ (Finset.mem_filter.mp hj).2
    rwa [← S.nodeUID_injective hl]

/-- What other nodes send leaves the facts of a node true. -/
theorem ElectionFacts.mono {sent sent' : ι → List MessengerCall} {i : ι} {N : PaxosNode}
    (h : S.ElectionFacts sent i N) (hself : sent' i = sent i) (hsent : ∀ j, sent j ⊆ sent' j) :
    S.ElectionFacts sent' i N := by
  refine ⟨h.proposerUID, h.proposalID, h.quorumSize, h.elected, fun u hu => ?_, ?_, ?_, ?_, ?_⟩
  · obtain ⟨j, hj, hpromised⟩ := h.held u hu
    exact ⟨j, hj, hpromised.mono hsent⟩
  · rw [hself]
    exact h.locked
  · rw [hself]
    exact h.prepare
  · rw [hself]
    exact fun u p hbeat => (h.heartbeat u p hbeat).imp_right fun hbacked => hbacked.mono hsent
  · exact h.acknowledged.imp_right fun ⟨j, hj, hbacked⟩ => ⟨j, hj, hbacked.mono hsent⟩

/-- The acceptor of a node stays locked, unless the node is set inactive. -/
theorem ElectionFacts.locked_next {C : NodeCluster ι} {i : ι} {call : NodeCall}
    (h : ∀ j, S.ElectionFacts C.sent j (C.parties j)) (henabled : S.Enabled C (i, call))
    (hactive : call ≠ .setActive false) :
    (PaxosNode.machine.next (C.parties i) call).acceptor.Locked
      (C.sent i ++ PaxosNode.machine.emits (C.parties i) call) := by
  have hlocked := (h i).locked
  by_cases hprepare : ∃ now u p, call = .receivePrepare now u p
  · obtain ⟨now, u, p, rfl⟩ := hprepare
    obtain ⟨j, huid, hsent⟩ := henabled
    have hp : p.uid = S.nodeUID j := (h j).prepare p hsent
    have hvalid : p.isValid := by simpa [ProposalID.isValid, hp] using S.nodeUID_ne_nil j
    exact hlocked.step (huid.symm.trans hp.symm)
      (hlocked.invariant.step_receivePrepare now u hvalid)
  · have hother : ∀ now u p, call ≠ .receivePrepare now u p :=
      fun now u p hcall => hprepare ⟨now, u, p, hcall⟩
    rw [PaxosNode.acceptor_next_eq hlocked.active hother hactive]
    apply hlocked.append_silent
    intro u p r w hsent
    obtain ⟨now, u', p', hcall, -⟩ := PaxosNode.of_isAnswer_mem rfl hsent
    exact hother now u' p' hcall

/-- The promises that a node holds have been sent to it. -/
theorem ElectionFacts.held_next {C : NodeCluster ι} {i : ι} {call : NodeCall}
    (h : S.ElectionFacts C.sent i (C.parties i)) (henabled : S.Enabled C (i, call)) (u : Str)
    (hu : u ∈ (PaxosNode.machine.next (C.parties i) call).proposer.promisesReceived) :
    ∃ j, S.nodeUID j = u ∧ S.Promised C.sent j i := by
  rw [PaxosNode.next_proposer] at hu
  rcases Proposer.promisesReceived_run hu with hheld | ⟨p, r, w, hcall⟩
  · exact h.held u hheld
  · obtain ⟨now, rfl⟩ := PaxosNode.of_receivePromise_mem hcall
    obtain ⟨j, hj, hsent⟩ := henabled
    exact ⟨j, hj, p, r, w, hsent⟩

/-- One call of a node keeps its facts. -/
theorem ElectionFacts.next [Fintype ι] [DecidableEq ι] {C : NodeCluster ι} {i : ι}
    {call : NodeCall} (h : ∀ j, S.ElectionFacts C.sent j (C.parties j))
    (henabled : S.Enabled C (i, call)) (hactive : call ≠ .setActive false) :
    S.ElectionFacts ((PaxosNode.machine.network ι).next C (i, call)).sent i
      (PaxosNode.machine.next (C.parties i) call) := by
  obtain ⟨huid, hsize, hid⟩ :=
    (C.parties i).proposer.run_constants ((C.parties i).proposerCalls call)
  rw [← PaxosNode.next_proposer] at huid hsize hid
  have hsent := Machine.sent_subset_next (M := PaxosNode.machine) C (i, call)
  have helected := PaxosNode.elected_next (h i).elected call
  have hheld := (h i).held_next henabled
  have hbacked : (PaxosNode.machine.next (C.parties i) call).proposer.leader →
      S.Backed ((PaxosNode.machine.network ι).next C (i, call)).sent i := by
    intro hleader
    exact (backed_of_leader helected (hsize.trans (h i).quorumSize) hheld hleader).mono hsent
  refine ⟨huid.trans (h i).proposerUID, hid.trans (h i).proposalID,
    hsize.trans (h i).quorumSize, helected, fun u hu => ?_, ?_, fun p hp => ?_, fun u p hp => ?_,
    ?_⟩
  · obtain ⟨j, hj, hpromised⟩ := hheld u hu
    exact ⟨j, hj, hpromised.mono hsent⟩
  · rw [Machine.network_next_sent_self]
    exact ElectionFacts.locked_next h henabled hactive
  · rw [Machine.network_next_sent_self] at hp
    rcases List.mem_append.mp hp with hold | hnew
    · exact (h i).prepare p hold
    · rw [Proposer.uid_of_sendPrepare_mem (PaxosNode.of_isRequest_mem rfl hnew)]
      exact (h i).proposalID
  · rw [Machine.network_next_sent_self] at hp
    rcases List.mem_append.mp hp with hold | hnew
    · exact ((h i).heartbeat u p hold).imp_right fun hbacked => hbacked.mono hsent
    · obtain ⟨hu, hleader⟩ := PaxosNode.of_sendHeartbeat_mem hnew
      exact ⟨hu.trans (h i).proposerUID, hbacked hleader⟩
  · rcases (C.parties i).leaderUID_next_cases call with
      hsame | hnone | ⟨now, id, hcall⟩ | ⟨hleader, hself⟩
    · rw [hsame]
      exact (h i).acknowledged.imp_right fun ⟨j, hj, hbacked⟩ => ⟨j, hj, hbacked.mono hsent⟩
    · exact Or.inl hnone
    · rw [hcall] at henabled
      obtain ⟨j, hbeat⟩ := henabled
      obtain ⟨hu, hbacked⟩ := (h j).heartbeat _ _ hbeat
      exact Or.inr ⟨j, hu, hbacked.mono hsent⟩
    · exact Or.inr ⟨i, hself.trans (h i).proposerUID, hbacked hleader⟩

/-- Two nodes with quorums behind them are one: an acceptor in both quorums is locked to one ID. -/
theorem Backed.unique [Fintype ι] [DecidableEq ι] {sent : ι → List MessengerCall}
    {N : ι → PaxosNode} (h : ∀ j, S.ElectionFacts sent j (N j))
    (hmajority : Fintype.card ι < 2 * (UInt64.ofInt S.quorumSize).toNat) {i j : ι}
    (hi : S.Backed sent i) (hj : S.Backed sent j) : i = j := by
  obtain ⟨Q, hQ, hpromised⟩ := hi
  obtain ⟨Q', hQ', hpromised'⟩ := hj
  obtain ⟨a, ha, ha'⟩ := Voting.exists_mem_of_card_lt (S := Q) (T := Q') (by omega)
  obtain ⟨p, r, w, hsent⟩ := hpromised a ha
  obtain ⟨p', r', w', hsent'⟩ := hpromised' a ha'
  obtain ⟨-, hp, huid⟩ := (h a).locked.promise _ p r w hsent
  obtain ⟨-, hp', huid'⟩ := (h a).locked.promise _ p' r' w' hsent'
  apply S.nodeUID_injective
  rw [huid, huid', hp, hp']

/-- The facts hold at the start if no leader flag is set and the acceptor is active. -/
theorem electionFacts_start (i : ι) (hleader : (S.unset i).leader = false)
    (hactive : (S.unset i).acceptorActive) :
    S.ElectionFacts S.start.sent i (S.start.parties i) := by
  refine ⟨?_, ?_, ?_, ?_, ?_, ⟨?_, ?_, ?_, ?_⟩, ?_, ?_, Or.inl rfl⟩
  · simp [start, PaxosNode.new, Proposer.new]
  · simp [start, PaxosNode.new, Proposer.new]
  · simp [start, PaxosNode.new, Proposer.new]
  · simp [Proposer.Elected, start, PaxosNode.new, Proposer.new, hleader]
  · simp [start, PaxosNode.new, Proposer.new]
  · exact Acceptor.invariant_new _ _ _ _
  · exact hactive
  · simp [start, PaxosNode.new, Acceptor.new]
  · simp [start]
  · simp [start]
  · simp [start]

/-- The facts hold after every run in which no node is set inactive. -/
theorem electionFacts_run [Fintype ι] [DecidableEq ι] {C : NodeCluster ι}
    {acts : List (ι × NodeCall)} (hstart : ∀ i, S.ElectionFacts C.sent i (C.parties i))
    (hrun : (PaxosNode.machine.network ι).Admits
      (fun C act => S.Enabled C act ∧ act.2 ≠ .setActive false) C acts) (i : ι) :
    S.ElectionFacts ((PaxosNode.machine.network ι).run C acts).sent i
      (((PaxosNode.machine.network ι).run C acts).parties i) := by
  refine hrun.network_invariant (I := S.ElectionFacts) hstart ?_ ?_ i
  · exact fun sent sent' i N h hself hsent => h.mono hself hsent
  · exact fun C i call h ⟨henabled, hactive⟩ => ElectionFacts.next h henabled hactive

/-- **One leader, ever.** In every run of a cluster whose nodes start as followers and are never set
inactive, there is one UID such that, at whatever moments, no node with another UID leads, and no
node acknowledges another leader. -/
theorem one_leader_ever [Fintype ι] [DecidableEq ι]
    (hmajority : Fintype.card ι < 2 * (UInt64.ofInt S.quorumSize).toNat)
    (hstart : ∀ i, (S.unset i).leader = false ∧ (S.unset i).acceptorActive)
    {acts : List (ι × NodeCall)}
    (hrun : (PaxosNode.machine.network ι).Admits
      (fun C act => S.Enabled C act ∧ act.2 ≠ .setActive false) S.start acts) :
    ∃ leader, ∀ pre, pre <+: acts → ∀ i,
      let N := ((PaxosNode.machine.network ι).run S.start pre).parties i
      (N.isLeader → S.nodeUID i = leader) ∧ (N.leaderUID = [] ∨ N.leaderUID = leader) := by
  have hfacts : ∀ pre, pre <+: acts → ∀ i,
      S.ElectionFacts ((PaxosNode.machine.network ι).run S.start pre).sent i
        (((PaxosNode.machine.network ι).run S.start pre).parties i) := fun pre hpre =>
    electionFacts_run (fun i => electionFacts_start i (hstart i).1 (hstart i).2)
      (hrun.of_prefix hpre)
  -- whoever leads or is acknowledged at some moment is still backed at the end
  have hbacked : ∀ pre, pre <+: acts → ∀ i,
      S.Backed ((PaxosNode.machine.network ι).run S.start pre).sent i →
      S.Backed ((PaxosNode.machine.network ι).run S.start acts).sent i :=
    fun pre hpre i h => h.mono fun j => Machine.sent_subset_of_prefix S.start hpre j
  have hunique := fun i j => Backed.unique (i := i) (j := j) (hfacts acts List.prefix_rfl) hmajority
  obtain ⟨leader, hleader⟩ : ∃ leader, ∀ i,
      S.Backed ((PaxosNode.machine.network ι).run S.start acts).sent i → S.nodeUID i = leader := by
    by_cases hsome : ∃ i, S.Backed ((PaxosNode.machine.network ι).run S.start acts).sent i
    · obtain ⟨i, hi⟩ := hsome
      exact ⟨S.nodeUID i, fun j hj => by rw [hunique j i hj hi]⟩
    · exact ⟨[], fun i hi => absurd ⟨i, hi⟩ hsome⟩
  refine ⟨leader, fun pre hpre i => ⟨fun hleads => ?_, ?_⟩⟩
  · have h := hfacts pre hpre i
    exact hleader i (hbacked pre hpre i (backed_of_leader h.elected h.quorumSize h.held hleads))
  · refine (hfacts pre hpre i).acknowledged.imp_right fun ⟨j, hj, hbackedj⟩ => ?_
    rw [hj]
    exact hleader j (hbacked pre hpre j hbackedj)

/-- Three nodes, A, B and C. -/
def threeNodes : NodeSetup (Fin 3) where
  nodeUID i := [65 + UInt8.ofNat i]
  quorumSize := 2
  heartbeatTimeout _ := 0
  livenessWindow _ := 0
  acceptorNow _ := 0
  now _ := 0
  unset _ := ⟨false, true, true, true⟩
  nodeUID_injective := by decide
  nodeUID_ne_nil := by decide

/-- Node `i` prepares the ID `p`, and `j` and `l` answer when the request reaches them again. Node
`i` is elected, and `j` hears of it. Node `l` then prepares `p'`, which nobody promises. -/
def electedThenRival (i j l : Fin 3) (p p' : ProposalID) : List (Fin 3 × NodeCall) :=
  [(i, .prepare true), (j, .receivePrepare 1 p.uid p), (j, .receivePrepare 2 p.uid p),
    (l, .receivePrepare 1 p.uid p), (l, .receivePrepare 2 p.uid p),
    (i, .receivePromise 3 (threeNodes.nodeUID j) p .empty []),
    (i, .receivePromise 3 (threeNodes.nodeUID l) p .empty []), (j, .receiveHeartbeat 4 p.uid p),
    (l, .prepare true), (l, .prepare true), (j, .receivePrepare 5 p'.uid p'),
    (j, .receivePrepare 6 p'.uid p')]

set_option maxRecDepth 2000 in
/-- A is elected, and C, which prepares a higher ID, never is. -/
theorem one_leader_ever_electedThenRival :
    let acts := electedThenRival 0 1 2 ⟨1, [65]⟩ ⟨2, [67]⟩
    let C := (PaxosNode.machine.network (Fin 3)).run threeNodes.start acts
    (C.parties 0).isLeader ∧ (C.parties 1).leaderUID = [65] ∧ ¬(C.parties 2).isLeader := by
  have hrun : (PaxosNode.machine.network (Fin 3)).Admits
      (fun C act => threeNodes.Enabled C act ∧ act.2 ≠ .setActive false) threeNodes.start
      (electedThenRival 0 1 2 ⟨1, [65]⟩ ⟨2, [67]⟩) := by decide
  obtain ⟨leader, hleader⟩ := one_leader_ever (by decide) (by decide) hrun
  have hfirst : [65] = leader := (hleader _ List.prefix_rfl 0).1 (by decide)
  refine ⟨by decide, by decide, fun hthird => ?_⟩
  have hsame : [67] = leader := (hleader _ List.prefix_rfl 2).1 hthird
  rw [← hfirst] at hsame
  exact absurd hsame (by decide)

end NodeSetup

end CppPaxos
